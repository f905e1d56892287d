import TasNic.Lib.Chains
import TasNic.Utils.Timeout

/-!
# ARP requests (`slow/arp.c`)

The table of ARP entries is a doubly linked list of allocated blocks. An entry with status 1 waits for a
reply, with its timeout armed, and keeps a list of the completions of those who asked for its address,
through the same link as the queue (`utils_nbqueue.h`) that they are put on when it is answered.

The timeout of entry `e` is number `2 * e` of the timeout manager, and those of connections have odd
numbers. `none` is a call of `abort`, a walk that does not end, or the use of a block that was freed.
-/

namespace TasNic.Arp

open Function

/-- What `config` says about it: the two addresses of the host, and the timeouts in
microseconds. -/
structure Config where
  ip : BitVec 32
  nicIp : BitVec 32
  arpTo : BitVec 32
  arpToMax : BitVec 32
deriving DecidableEq

/-- `struct arp_entry`, without its links and its timeout. -/
structure ArpEntry where
  status : Nat
  compl : Option Nat
  ip : BitVec 32
  timeout : BitVec 32
  mac : BitVec 48
deriving DecidableEq

/-- `struct nicif_completion`, without its link. `ptr` is a variable for an address. -/
structure Completion where
  q : Nat
  ptr : Nat
  status : Int
deriving DecidableEq

/-- A packet that is sent, with the addresses it is for. -/
inductive Sent where
  | request (ip : BitVec 32)
  | response (mac : BitVec 48) (ip : BitVec 32)
deriving DecidableEq

/-- The table, the completions with their links, the queues, the variables the
completions point to, and what was sent. Blocks, completions and timeouts are numbered below `bound`. -/
structure ArpTable where
  bound : Nat
  arpTable : Option Nat
  next : Nat → Option Nat
  prev : Nat → Option Nat
  used : Nat → Bool
  entries : Nat → ArpEntry
  timeoutMgr : TimeoutManager
  link : Nat → Option Nat
  comps : Nat → Completion
  queues : Nat → Option Nat
  macs : Nat → BitVec 64
  out : List Sent

def arpTimer (e : Nat) : Nat := 2 * e
def tcpTimer (k : Nat) : Nat := 2 * k + 1

def toArpReq : BitVec 8 := 0
/-- `TO_TCP_CLOSED`, the last type of a timeout. -/
def toTcpClosed : BitVec 8 := 3

def arpOperRequest : BitVec 16 := 1
def arpOperReply : BitVec 16 := 2
def arpHtypeEthernet : BitVec 16 := 1
def arpPtypeIpv4 : BitVec 16 := 0x0800

structure ArpHdr where
  htype : BitVec 16
  ptype : BitVec 16
  hlen : BitVec 8
  plen : BitVec 8
  oper : BitVec 16
  sha : BitVec 48
  spa : BitVec 32
  tpa : BitVec 32
deriving DecidableEq

namespace ArpTable

/-- A bound on the turns of walks along blocks or completions. -/
def turns (m : ArpTable) : Nat := m.bound + 1

/-- A bound on the turns of walks along timeouts. -/
def timerTurns (m : ArpTable) : Nat := 2 * m.bound + 1

/-- `memcpy` of six bytes into a variable. -/
def setMac (m : ArpTable) (p : Nat) (mac : BitVec 48) : ArpTable :=
  { m with macs := update m.macs p ((m.macs p &&& 0xffff000000000000) ||| mac.setWidth 64) }

def setEntry (m : ArpTable) (e : Nat) (x : ArpEntry) : ArpTable := { m with entries := update m.entries e x }

/-- `request_tx` and `response_tx`; the caller goes on if they fail. -/
def send (m : ArpTable) (p : Sent) : ArpTable := { m with out := m.out ++ [p] }

def aeLookup (m : ArpTable) (ip : BitVec 32) : Except Chains.Fault (Option Nat) :=
  Chains.find m.used m.next (fun e => (m.entries e).ip == ip) m.turns m.arpTable

/-! ## The queues of completions -/

def nbqueueEnq (m : ArpTable) (q comp : Nat) : ArpTable :=
  { m with link := update m.link comp (m.queues q), queues := update m.queues q (some comp) }

/-- The loop of `nbqueue_deq`: the last element, and the one before it. -/
def nbqueueLast (link : Nat → Option Nat) : Nat → Option Nat → Nat → Option (Option Nat × Nat)
  | 0, _, _ => none
  | turns + 1, elP, el => match link el with
    | none => some (elP, el)
    | some n => nbqueueLast link turns (some el) n

def nbqueueDeq (m : ArpTable) (q : Nat) : Option (ArpTable × Option Nat) :=
  match m.queues q with
  | none => some (m, none)
  | some head => (nbqueueLast m.link m.turns none head).map fun r => match r.1 with
    | some elP => ({ m with link := update m.link elP none }, some r.2)
    | none => ({ m with queues := update m.queues q none }, some r.2)

/-- The loops that notify those who wait, with the address if there is one, from the
completion `comp` on. They give the completions that they put on their queues. -/
def notify (status : Int) (mac : Option (BitVec 48)) : Nat → ArpTable → Option Nat → Option (ArpTable × List Nat)
  | 0, _, _ => none
  | _ + 1, m, none => some (m, [])
  | turns + 1, m, some comp =>
    let compNext := m.link comp
    let x := m.comps comp
    let m := match mac with
      | some a => m.setMac x.ptr a
      | none => m
    let m := { m with comps := update m.comps comp { x with status := status } }
    (notify status mac turns (m.nbqueueEnq x.q comp) compNext).map fun r => (r.1, comp :: r.2)

/-! ## The calls -/

/-- `util_timeout_arm` for an entry, at the time `ts`. -/
def arm (m : ArpTable) (ae : Nat) (ts : BitVec 32) : Option ArpTable :=
  (m.timeoutMgr.utilTimeoutArmTs (arpTimer ae) (m.entries ae).timeout toArpReq ts m.timerTurns).map fun t =>
    { m with timeoutMgr := t }

/-- An entry is put into the table, at the front. -/
def insert (m : ArpTable) (ae : Nat) : ArpTable :=
  let m := { m with prev := update m.prev ae none, next := update m.next ae m.arpTable }
  let m := match m.arpTable with
    | some q => { m with prev := update m.prev q (some ae) }
    | none => m
  { m with arpTable := some ae }

/-- An entry is taken out of the table. -/
def remove (m : ArpTable) (ae : Nat) : ArpTable :=
  let m := match m.prev ae with
    | some p => { m with next := update m.next p (m.next ae) }
    | none => { m with arpTable := m.next ae }
  match m.next ae with
  | some n => { m with prev := update m.prev n (m.prev ae) }
  | none => m

end ArpTable

/-- What `arp_request` returns: 0 if the address is known, 1 if the completion waits
at an entry, which may be a new one, and -1 if there is no memory. -/
inductive Requested where
  | known
  | waits (ae : Nat) (new : Bool)
  | noMemory
deriving DecidableEq

/-- A completion joins those that wait at an entry. -/
def joinEntry (m : ArpTable) (comp mac ae : Nat) : ArpTable :=
  { m with
    comps := update m.comps comp { m.comps comp with ptr := mac }
    link := update m.link comp (m.entries ae).compl }.setEntry ae { m.entries ae with compl := some comp }

/-- The block `ae` is made an entry, where a completion waits. -/
def newEntry (cfg : Config) (m : ArpTable) (comp : Nat) (ip : BitVec 32) (mac ae : Nat) (ts : BitVec 32) :
    Option ArpTable :=
  let m := { m with
    used := update m.used ae true
    comps := update m.comps comp { m.comps comp with ptr := mac }
    link := update m.link comp none }
  let m := m.setEntry ae { m.entries ae with status := 1, ip := ip, compl := some comp, timeout := cfg.arpTo }
  ((m.send (.request ip)).arm ae ts).map fun m => m.insert ae

/-- `arp_request`, after the variable is set to 0. -/
def arpRequestFrom (cfg : Config) (m : ArpTable) (comp : Nat) (ip : BitVec 32) (mac : Nat) (block : Option Nat)
    (ts : BitVec 32) : Option (ArpTable × Requested) :=
  match m.aeLookup ip with
  | .error _ => none
  | .ok (some ae) =>
    if (m.entries ae).status = 0 then some (m.setMac mac (m.entries ae).mac, .known)
    else some (joinEntry m comp mac ae, .waits ae false)
  | .ok none => match block with
    | none => some (m, .noMemory)
    | some ae => (newEntry cfg m comp ip mac ae ts).map fun m => (m, .waits ae true)

/-- `arp_request`. The block is what `malloc` gives, and `ts` is the time. -/
def arpRequest (cfg : Config) (m : ArpTable) (comp : Nat) (ip : BitVec 32) (mac : Nat) (block : Option Nat)
    (ts : BitVec 32) : Option (ArpTable × Requested) :=
  arpRequestFrom cfg { m with macs := update m.macs mac 0 } comp ip mac block ts

def disarmReq (m : ArpTable) (ae : Nat) : Option ArpTable :=
  if (m.entries ae).status = 1 then
    (m.timeoutMgr.utilTimeoutDisarm (arpTimer ae)).map fun t => { m with timeoutMgr := t }
  else some m

/-- What `arp_packet` accepts. -/
def ArpHdr.wellFormed (p : ArpHdr) : Bool :=
  p.htype == arpHtypeEthernet && p.ptype == arpPtypeIpv4 && p.hlen == 6 && p.plen == 4

/-- The entry `ae` is resolved by a reply from `sha`. -/
def resolve (m : ArpTable) (ae : Nat) (sha : BitVec 48) : Option (ArpTable × List Nat) :=
  (disarmReq m ae).bind fun m =>
    let m := m.setEntry ae { m.entries ae with mac := sha, status := 0 }
    (m.notify 0 (some sha) m.turns (m.entries ae).compl).map fun r =>
      (r.1.setEntry ae { r.1.entries ae with compl := none }, r.2)

/-- `arp_packet`, with the completions that it puts on queues. -/
def arpPacket (cfg : Config) (m : ArpTable) (p : ArpHdr) : Option (ArpTable × List Nat) :=
  if ¬ p.wellFormed then some (m, [])
  else if p.oper = arpOperRequest then
    if p.tpa ≠ cfg.ip ∧ p.tpa ≠ cfg.nicIp then some (m, [])
    else some (m.send (.response p.sha p.spa), [])
  else if p.oper = arpOperReply then
    match m.aeLookup p.spa with
    | .error _ => none
    | .ok none => some (m, [])
    | .ok (some ae) => resolve m ae p.sha
  else some (m, [])

/-- `arp_timeout`, at the time `ts`, with the completions that it puts on queues. -/
def arpTimeout (cfg : Config) (m : ArpTable) (ae : Nat) (ts : BitVec 32) : Option (ArpTable × List Nat) :=
  let x := m.entries ae
  -- an entry that is marked as ready
  if x.status = 0 then none
  else if x.timeout * 2 ≥ cfg.arpToMax then
    (m.notify (-1) none m.turns x.compl).map fun r =>
      let m := r.1.remove ae
      ({ m with used := update m.used ae false }, r.2)
  else
    (((m.send (.request x.ip)).setEntry ae { x with timeout := x.timeout * 2 }).arm ae ts).map fun m => (m, [])

/-- `arp_init`, with the block 0 for the address of the host. -/
def arpInit (cfg : Config) (mac : BitVec 48) (m : ArpTable) : ArpTable :=
  { m with
    arpTable := some 0
    next := update m.next 0 none
    prev := update m.prev 0 none
    used := update (fun _ => false) 0 true
    entries := update m.entries 0 { m.entries 0 with status := 0, ip := cfg.ip, mac := mac, compl := none }
    timeoutMgr := utilTimeoutInit m.timeoutMgr.timeouts
    queues := fun _ => none }

/-! ## Runs

A run also records every request that waits, and what became of it. -/

/-- A request for which `arp_request` returned 1: the completion, its queue, the
address, and the variable for the result. -/
structure Req where
  comp : Nat
  q : Nat
  ip : BitVec 32
  ptr : Nat
deriving DecidableEq

inductive Cause where
  | reply (p : ArpHdr)
  /-- The timeout fired after having fired `fired` times. -/
  | timeout (fired : Nat)
deriving DecidableEq

/-- A completion that was put on a queue for the request with number `req`: the queue,
and what the status and the variable of the completion hold. -/
structure Done where
  req : Nat
  q : Nat
  ptr : Nat
  status : Int
  mac : BitVec 48
  cause : Cause
deriving DecidableEq

inductive Place where
  | entry (e : Nat)
  | queue (q : Nat)
deriving DecidableEq

/-- The table, the requests that waited, the number of the last request of each
completion, what was put on queues, where the completions are, how often the timeout of
an entry fired, and the other timeouts that are armed, with their types. -/
structure ArpState where
  arp : ArpTable
  reqs : List Req
  cur : Nat → Nat
  done : List Done
  place : Nat → Option Place
  fired : Nat → Nat
  others : Nat → Option (BitVec 8)

inductive ArpOp where
  /-- A call of `arp_request`, for a completion with queue `q`. -/
  | request (comp q : Nat) (ip : BitVec 32) (mac : Nat) (block : Option Nat) (ts : BitVec 32)
  | packet (p : ArpHdr)
  /-- A poll moves the timeouts that are due. -/
  | pollStart (ts : BitVec 32)
  /-- A poll takes the next timeout that is due. -/
  | pollNext (ts : BitVec 32)
  /-- The rest of the slow path puts a completion on a queue, or takes one off. -/
  | enq (comp q : Nat)
  | deq (q : Nat)
  /-- The rest of the slow path arms or disarms a timeout. -/
  | tcpArm (k : Nat) (us : BitVec 32) (type : BitVec 8) (ts : BitVec 32)
  | tcpDisarm (k : Nat)
deriving DecidableEq

/-- The completions of `l` were put on their queues, which gave `m`. -/
def ArpState.complete (s : ArpState) (cause : Cause) (m : ArpTable) (l : List Nat) : ArpState :=
  { s with
    arp := m
    place := fun c => if c ∈ l then some (.queue (m.comps c).q) else s.place c
    done := s.done ++ l.map fun c =>
      ⟨s.cur c, (m.comps c).q, (m.comps c).ptr, (m.comps c).status, (m.macs (m.comps c).ptr).setWidth 48, cause⟩ }

/-- `arp_request` returned, and gave `m`. -/
def ArpState.asked (s : ArpState) (r : Req) (m : ArpTable) : Requested → ArpState
  | .waits ae new =>
    { s with
      arp := m
      reqs := s.reqs ++ [r]
      cur := update s.cur r.comp s.reqs.length
      place := update s.place r.comp (some (.entry ae))
      fired := if new then update s.fired ae 0 else s.fired }
  | _ => { s with arp := m }

/-- `timeout_trigger`, for the timeout `t`, which is not armed any more in `m`. A
timeout of a connection does nothing here. -/
def timeoutTrigger (cfg : Config) (s : ArpState) (m : ArpTable) (t : Nat) (type : BitVec 8) (ts : BitVec 32) :
    Option ArpState :=
  if type = toArpReq then (arpTimeout cfg m (t / 2) ts).map fun r =>
    { s.complete (.timeout (s.fired (t / 2))) r.1 r.2 with fired := update s.fired (t / 2) (s.fired (t / 2) + 1) }
  else if type ≤ toTcpClosed then some { s with arp := m, others := update s.others (t / 2) none }
  else none

def arpStep (cfg : Config) (s : ArpState) : ArpOp → Option ArpState
  | .request comp q ip mac block ts =>
    let m := { s.arp with comps := update s.arp.comps comp { s.arp.comps comp with q := q } }
    (arpRequest cfg m comp ip mac block ts).map fun r => s.asked ⟨comp, q, ip, mac⟩ r.1 r.2
  | .packet p => (arpPacket cfg s.arp p).map fun r => s.complete (.reply p) r.1 r.2
  | .pollStart ts =>
    (TimeoutManager.moveDueTimeouts (ts &&& timeoutMask) s.arp.timerTurns s.arp.timeoutMgr).map fun t =>
      { s with arp := { s.arp with timeoutMgr := t } }
  | .pollNext ts => match s.arp.timeoutMgr.dueFirst with
    | none => some s
    | some t =>
      let type := ((s.arp.timeoutMgr.timeouts t).timeoutType >>> timeoutBits).setWidth 8
      timeoutTrigger cfg s { s.arp with timeoutMgr := s.arp.timeoutMgr.pollPop t } t type ts
  | .enq comp q =>
    let m := { s.arp with comps := update s.arp.comps comp { s.arp.comps comp with q := q } }
    some { s with arp := m.nbqueueEnq q comp, place := update s.place comp (some (.queue q)) }
  | .deq q => (s.arp.nbqueueDeq q).map fun r =>
    { s with arp := r.1, place := match r.2 with
      | some comp => update s.place comp none
      | none => s.place }
  | .tcpArm k us type ts =>
    (s.arp.timeoutMgr.utilTimeoutArmTs (tcpTimer k) us type ts s.arp.timerTurns).map fun t =>
      { s with arp := { s.arp with timeoutMgr := t }, others := update s.others k (some type) }
  | .tcpDisarm k => (s.arp.timeoutMgr.utilTimeoutDisarm (tcpTimer k)).map fun t =>
      { s with arp := { s.arp with timeoutMgr := t }, others := update s.others k none }

/-- What the callers keep to: a completion is used for one thing at a time, `malloc`
gives a block that is not in use, and the timeouts of connections are armed when they
are not, for a time the timeout manager takes, and disarmed when they are. -/
def arpOk (s : ArpState) : ArpOp → Prop
  | .request comp _ _ _ block _ => s.place comp = none ∧ comp < s.arp.bound ∧
    block.all (fun b => !s.arp.used b && decide (b < s.arp.bound)) = true
  | .enq comp _ => s.place comp = none ∧ comp < s.arp.bound
  | .tcpArm k us type _ => s.others k = none ∧ k < s.arp.bound ∧ us < 0x8000000 ∧ toArpReq < type ∧ type ≤ toTcpClosed
  | .tcpDisarm k => s.others k ≠ none
  | .packet _ | .pollStart _ | .pollNext _ | .deq _ => True

instance (s : ArpState) (op) : Decidable (arpOk s op) := by
  induction op using ArpOp.casesOn <;> dsimp only [arpOk] <;> infer_instance

/-- After `arp_init`, in memory `m`, with the address `mac` of the host. -/
def arpStart (cfg : Config) (mac : BitVec 48) (m : ArpTable) : ArpState where
  arp := arpInit cfg mac m
  reqs := []
  cur := fun _ => 0
  done := []
  place := fun _ => none
  fired := fun _ => 0
  others := fun _ => none

end TasNic.Arp
