import TasNic.Lib.Chains
import TasNic.Lib.Run

/-!
# Epolls (`lib/sockets/epoll.c`)

A registration (`struct epoll_socket`) is on two doubly linked lists: that of its socket, and the active
or the inactive list of its epoll. It is a block of memory, and its fields are tables. The calls are those
of one thread: locks and reference counts are left out, and so are Linux file descriptors and
`tas_move_conn`. The events of the context that `ep_poll_tas` handles first are steps of their own, and
`maxevents` is the unsigned number it is compared as. `num_active` does not wrap: an epoll has at most
one registration for a socket. `none` is a failed assertion, or a loop that does not end.
-/

namespace TasNic.Sockets

open Function

/-- `ep_next` and `ep_prev` of the registrations, and the lists of the epolls. -/
structure EpLinks where
  next : Nat → Option Nat
  prev : Nat → Option Nat
  inactive : Nat → Option Nat
  activeFirst : Nat → Option Nat
  activeLast : Nat → Option Nat
  numActive : Nat → Nat

namespace EpLinks

def esRemoveInactive (l : EpLinks) (ep es : Nat) : EpLinks :=
  let l := match l.prev es with
    | some p => { l with next := update l.next p (l.next es) }
    | none => { l with inactive := update l.inactive ep (l.next es) }
  match l.next es with
  | some n => { l with prev := update l.prev n (l.prev es) }
  | none => l

def esAddInactive (l : EpLinks) (ep es : Nat) : EpLinks :=
  let l := { l with prev := update l.prev es none }
  let l := match l.inactive ep with
    | none => { l with next := update l.next es none }
    | some n => { l with next := update l.next es (some n), prev := update l.prev n (some es) }
  { l with inactive := update l.inactive ep (some es) }

def esRemoveActive (l : EpLinks) (ep es : Nat) : Option EpLinks :=
  if l.numActive ep = 0 then none
  else
    let l := match l.prev es with
      | some p => { l with next := update l.next p (l.next es) }
      | none => { l with activeFirst := update l.activeFirst ep (l.next es) }
    let l := match l.next es with
      | some n => { l with prev := update l.prev n (l.prev es) }
      | none => { l with activeLast := update l.activeLast ep (l.prev es) }
    some { l with numActive := update l.numActive ep (l.numActive ep - 1) }

def esAddActive (l : EpLinks) (ep es : Nat) : EpLinks :=
  let l := match l.activeLast ep with
    | none => { l with
        prev := update l.prev es none, next := update l.next es none
        activeFirst := update l.activeFirst ep (some es), activeLast := update l.activeLast ep (some es) }
    | some q => { l with
        next := update (update l.next es none) q (some es), prev := update l.prev es (some q)
        activeLast := update l.activeLast ep (some es) }
  { l with numActive := update l.numActive ep (l.numActive ep + 1) }

end EpLinks

/-- `so_next` and `so_prev` of the registrations, and `eps` of the sockets. -/
structure SoLinks where
  next : Nat → Option Nat
  prev : Nat → Option Nat
  eps : Nat → Option Nat

def SoLinks.add (l : SoLinks) (s es : Nat) : SoLinks :=
  let l := { l with prev := update l.prev es none }
  match l.eps s with
  | none => { l with next := update l.next es none, eps := update l.eps s (some es) }
  | some n => { l with
      next := update l.next es (some n), prev := update l.prev n (some es), eps := update l.eps s (some es) }

/-- The changes of the links in `es_remove_sock`. -/
def SoLinks.remove (l : SoLinks) (s es : Nat) : SoLinks :=
  let l := match l.prev es with
    | none => { l with eps := update l.eps s (l.next es) }
    | some p => { l with next := update l.next p (l.next es) }
  match l.next es with
  | some n => { l with prev := update l.prev n (l.prev es) }
  | none => l

/-- The registrations, sockets and epolls: the memory has `blocks` blocks for
registrations. -/
structure EpollMem where
  blocks : Nat
  /-- The blocks that are allocated. -/
  used : Nat → Bool
  ep : Nat → Nat
  sock : Nat → Nat
  data : Nat → BitVec 64
  mask : Nat → BitVec 32
  active : Nat → Bool
  epl : EpLinks
  sol : SoLinks
  /-- `ep_events` of the sockets. -/
  epEvents : Nat → BitVec 32
  numTas : Nat → BitVec 32
  /-- The sockets and epolls that exist. -/
  sockets : Nat → Bool
  epolls : Nat → Bool

def EpollMem.init (blocks : Nat) : EpollMem where
  blocks := blocks
  used _ := false
  ep _ := 0
  sock _ := 0
  data _ := 0
  mask _ := 0
  active _ := false
  epl := ⟨fun _ => none, fun _ => none, fun _ => none, fun _ => none, fun _ => none, fun _ => 0⟩
  sol := ⟨fun _ => none, fun _ => none, fun _ => none⟩
  epEvents _ := 0
  numTas _ := 0
  sockets _ := false
  epolls _ := false

namespace EpollMem

def ready (m : EpollMem) (es : Nat) : BitVec 32 := m.epEvents (m.sock es) &&& m.mask es

def esActivate (m : EpollMem) (es : Nat) : EpollMem :=
  if m.active es then m
  else { m with
    epl := (m.epl.esRemoveInactive (m.ep es) es).esAddActive (m.ep es) es
    active := update m.active es true }

def esDeactivate (m : EpollMem) (es : Nat) : Option EpollMem :=
  if !m.active es then some m
  else (m.epl.esRemoveActive (m.ep es) es).map fun l =>
    { m with epl := l.esAddInactive (m.ep es) es, active := update m.active es false }

def esActivePushback (m : EpollMem) (es : Nat) : Option EpollMem :=
  if !m.active es then none
  else (m.epl.esRemoveActive (m.ep es) es).map fun l => { m with epl := l.esAddActive (m.ep es) es }

def esRemoveEp (m : EpollMem) (es : Nat) : Option EpollMem :=
  if m.active es then (m.epl.esRemoveActive (m.ep es) es).map fun l => { m with epl := l }
  else some { m with epl := m.epl.esRemoveInactive (m.ep es) es }

def esRemoveSock (m : EpollMem) (es : Nat) : EpollMem := { m with sol := m.sol.remove (m.sock es) es }

/-- `es_remove_sock`, `es_remove_ep` and `free`. -/
def esRemove (m : EpollMem) (es : Nat) : Option EpollMem :=
  ((m.esRemoveSock es).esRemoveEp es).map fun m => { m with used := update m.used es false }

/-- Removing registrations while there is one. -/
def removeAll (first : EpollMem → Option Nat) : Nat → EpollMem → Option EpollMem
  | 0, _ => none
  | turns + 1, m => match first m with
    | none => some m
    | some es => match m.esRemove es with
      | none => none
      | some m => removeAll first turns m

def flextcpEpollSockclose (m : EpollMem) (s : Nat) : Option EpollMem := removeAll (·.sol.eps s) (m.blocks + 1) m

def flextcpEpollDestroy (m : EpollMem) (ep : Nat) : Option EpollMem :=
  match removeAll (·.epl.activeFirst ep) (m.blocks + 1) m with
  | none => none
  | some m => removeAll (·.epl.inactive ep) (m.blocks + 1) m

/-- The loop of `flextcp_epoll_set`. -/
def epollSetLoop (newevs : BitVec 32) : Nat → EpollMem → Option Nat → Option EpollMem
  | 0, _, _ => none
  | _ + 1, m, none => some m
  | turns + 1, m, some es =>
    let m := if newevs &&& m.mask es = 0 then m else m.esActivate es
    epollSetLoop newevs turns m (m.sol.next es)

def flextcpEpollSet (m : EpollMem) (s : Nat) (evts : BitVec 32) : Option EpollMem :=
  let newevs := ~~~ m.epEvents s &&& evts
  if newevs = 0 then some m
  else epollSetLoop newevs (m.blocks + 1) { m with epEvents := update m.epEvents s (m.epEvents s ||| evts) } (m.sol.eps s)

def flextcpEpollClear (m : EpollMem) (s : Nat) (evts : BitVec 32) : EpollMem :=
  { m with epEvents := update m.epEvents s (m.epEvents s &&& ~~~ evts) }

end EpollMem

/-! ## `tas_epoll_ctl` -/

def epollIn : BitVec 32 := 0x001
def epollOut : BitVec 32 := 0x004
def epollErr : BitVec 32 := 0x008
def epollHup : BitVec 32 := 0x010
def epollRdhup : BitVec 32 := 0x2000
def epollEt : BitVec 32 := 0x80000000

inductive CtlOp where
  | add
  | mod
  | del
  | unknown

inductive Errno where
  | eexist
  | enoent
  | enomem
  | einval
deriving DecidableEq

namespace EpollMem

/-- The new registration of `EPOLL_CTL_ADD`, on block `es`. -/
def addRegistration (m : EpollMem) (e s : Nat) (events : BitVec 32) (data : BitVec 64) (es : Nat) : EpollMem :=
  let m := { m with
    used := update m.used es true, ep := update m.ep es e, sock := update m.sock es s, data := update m.data es data
    mask := update m.mask es (events ||| epollErr), active := update m.active es false
    sol := m.sol.add s es, epl := m.epl.esAddInactive e es }
  -- check if this epoll is already active
  if m.ready es = 0 then m else m.esActivate es

/-- `tas_epoll_ctl` for a socket, with the error it returns; `block` is what `calloc` gives. -/
def tasEpollCtl (m : EpollMem) (e : Nat) (op : CtlOp) (s : Nat) (events : BitVec 32) (data : BitVec 64)
    (block : Option Nat) : Option (EpollMem × Option Errno) :=
  -- look up socket on epoll
  match Chains.find (fun _ => true) m.sol.next (fun es => m.ep es == e) (m.blocks + 1) (m.sol.eps s) with
  | .error _ => none
  | .ok es =>
    let events := events &&& ~~~ epollEt
    let unsupported := events &&& ~~~ (epollIn ||| epollOut ||| epollErr ||| epollHup ||| epollRdhup)
    match op with
    | .add =>
      if unsupported ≠ 0 then some (m, some .einval)
      else
        let m := { m with numTas := update m.numTas e (m.numTas e + 1) }
        match es, block with
        | some _, _ => some (m, some .eexist)
        | none, none => some (m, some .enomem)
        | none, some es => some (m.addRegistration e s events data es, none)
    | .mod =>
      if unsupported ≠ 0 then some (m, some .einval)
      else match es with
        | none => some (m, some .enoent)
        | some es =>
          let m := { m with mask := update m.mask es (events ||| epollErr) }
          some (if m.ready es = 0 then m else m.esActivate es, none)
    | .del =>
      let m := { m with numTas := update m.numTas e (m.numTas e - 1) }
      match es with
      | none => some (m, some .enoent)
      | some es => (m.esRemove es).map fun m => (m, none)
    | .unknown => some (m, some .einval)

end EpollMem

/-! ## `ep_poll_tas` -/

/-- `struct epoll_event`, with the registration it is for. -/
structure PollEvent where
  es : Nat
  events : BitVec 32
  data : BitVec 64

namespace EpollMem

def event (m : EpollMem) (es : Nat) : PollEvent := ⟨es, m.ready es, m.data es⟩

/-- The loop of `ep_poll_tas`, with the events so far. -/
def epPollLoop (ep maxevents : Nat) : Nat → EpollMem → List PollEvent → Option (EpollMem × List PollEvent)
  | 0, m, evs => some (m, evs)
  | turns + 1, m, evs =>
    if evs.length < maxevents then
      match m.epl.activeFirst ep with
      -- no more active fds
      | none => some (m, evs)
      | some es =>
        -- check whether fd is actually active
        if m.ready es ≠ 0 then match m.esActivePushback es with
          | none => none
          | some m' => epPollLoop ep maxevents turns m' (evs ++ [m.event es])
        else match m.esDeactivate es with
          | none => none
          | some m' => epPollLoop ep maxevents turns m' evs
    else some (m, evs)

def epPollTas (m : EpollMem) (ep maxevents : Nat) : Option (EpollMem × List PollEvent) :=
  epPollLoop ep maxevents (m.epl.numActive ep) m []

end EpollMem

/-! ## Runs -/

inductive EpollOp where
  | socket (s : Nat)
  | sockclose (s : Nat)
  | epollCreate (ep : Nat)
  | epollDestroy (ep : Nat)
  | ctl (ep : Nat) (op : CtlOp) (s : Nat) (events : BitVec 32) (data : BitVec 64) (block : Option Nat)
  | set (s : Nat) (evts : BitVec 32)
  | clear (s : Nat) (evts : BitVec 32)
  | poll (ep maxevents : Nat)

/-- Calls are on sockets and epolls that exist, and `calloc` gives free memory. A socket that is
closed may get events until its memory is used again. -/
def EpollMem.Enabled (m : EpollMem) : EpollOp → Prop
  | .socket s => m.sockets s = false
  | .sockclose s => m.sockets s = true
  | .epollCreate ep => m.epolls ep = false
  | .epollDestroy ep | .poll ep _ => m.epolls ep = true
  | .ctl ep _ s _ _ block => m.epolls ep = true ∧ m.sockets s = true ∧
      block.all (fun es => decide (es < m.blocks) && !m.used es) = true
  | .set _ _ | .clear _ _ => True

instance EpollMem.Enabled.dec (m : EpollMem) (op) : Decidable (m.Enabled op) := by
  induction op using EpollOp.casesOn <;> dsimp only [EpollMem.Enabled] <;> infer_instance

def epollCall (m : EpollMem) : EpollOp → Option EpollMem
  | .socket s => some { m with
      sockets := update m.sockets s true, epEvents := update m.epEvents s 0
      sol := { m.sol with eps := update m.sol.eps s none } }
  | .sockclose s => (m.flextcpEpollSockclose s).map fun m => { m with sockets := update m.sockets s false }
  | .epollCreate ep => some { m with
      epolls := update m.epolls ep true, numTas := update m.numTas ep 0
      epl := { m.epl with
        inactive := update m.epl.inactive ep none, activeFirst := update m.epl.activeFirst ep none
        activeLast := update m.epl.activeLast ep none, numActive := update m.epl.numActive ep 0 } }
  | .epollDestroy ep => (m.flextcpEpollDestroy ep).map fun m => { m with epolls := update m.epolls ep false }
  | .ctl ep op s events data block => (m.tasEpollCtl ep op s events data block).map (·.1)
  | .set s evts => m.flextcpEpollSet s evts
  | .clear s evts => some (m.flextcpEpollClear s evts)
  | .poll ep maxevents => (m.epPollTas ep maxevents).map (·.1)

end TasNic.Sockets
