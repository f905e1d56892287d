import TasNic.Fast.FastFlows
import TasNic.Slow.FlowTable
import TasNic.Lib.Chains

/-!
# Connections in the slow path (`tas_nic/slow/tcp.c`, `cc.c`, `appif_ctx.c`)

A connection is a block of memory that is on up to three lists: a chain of `tcp_hashtable` or the list of
connections that wait for a listener (both through `ht_next`), the list `cc_conns` of the congestion
control, and the list of its application.

The functions give the state of the slow path after the call, or how the process stops in it (`Stop`).
What comes from elsewhere is an argument: memory from `malloc` with what is in it, results of the route
and of the fast path, and whether the queue to the application has room. The buffers of a connection, the
rates of the congestion control and the time are not modelled: timers expire in any order.
-/

namespace TasNic

open Function Chains

inductive Stop where
  /-- A walk along a chain of the hash table, along `cc_conns` or along the list of
  an application goes wrong. -/
  | ht (f : Fault)
  | cc (f : Fault)
  | app (f : Fault)
  /-- The connection is not on the list it is taken from. -/
  | notInHt
  | notInCc
  | notInApp
  /-- A connection is used that is not allocated. -/
  | freed
  /-- A connection is put into the queue of completions twice. -/
  | queued
  | assertion
  /-- A timer expires in a state that it is not for. -/
  | badState
  /-- There is no room for a message that `enqueue_and_flush_kout` must send. -/
  | koutFull
  /-- A listener that does not exist is used. -/
  | null
  /-- A search for a port or through the options of a packet does not end. -/
  | loops
  | divides
deriving DecidableEq

/-! ## Packets -/

/-- A packet in memory. Its first `len` bytes were received. -/
structure RawPkt where
  buf : Nat → Byte
  len : BitVec 16

def readBe16 (b : Nat → Byte) (off : Nat) : BitVec 16 := b off ++ b (off + 1)

def readBe32 (b : Nat → Byte) (off : Nat) : BitVec 32 := b off ++ b (off + 1) ++ b (off + 2) ++ b (off + 3)

/-- `sizeof(struct pkt_tcp)`: the Ethernet, IP and TCP headers. -/
def pktTcpSize : Nat := 54

namespace RawPkt

/-! The members of `struct pkt_tcp` in the bytes of a packet. -/

section

variable (b : Nat → Byte)

/-- `eth.src`, copied into the lower bytes of a word. -/
def ethSrc : BitVec 64 := 0#16 ++ b 11 ++ b 10 ++ b 9 ++ b 8 ++ b 7 ++ b 6
def ipLen : BitVec 16 := readBe16 b 16
def ipSrc : BitVec 32 := readBe32 b 26
def ipDest : BitVec 32 := readBe32 b 30
def tcpSrc : BitVec 16 := readBe16 b 34
def tcpDest : BitVec 16 := readBe16 b 36
def seqno : BitVec 32 := readBe32 b 38
def ackno : BitVec 32 := readBe32 b 42
/-- `TCPH_HDRLEN`. -/
def hdrlen : Nat := (readBe16 b 46 >>> 12).toNat
/-- `TCPH_FLAGS`. -/
def flags : BitVec 9 := (readBe16 b 46).setWidth 9

def key : FlowKey := ⟨ipDest b, ipSrc b, tcpDest b, tcpSrc b⟩

end

end RawPkt

def tcpRst : BitVec 9 := 0x04

/-- `struct tcp_opts`: where the options are in the packet. -/
structure TcpOpts where
  mss : Option Nat := none
  ts : Option Nat := none

/-- The loop of `parse_options`, from offset `off` on. -/
def parseOptionsFrom (b : Nat → Byte) (optsLen : Nat) : Nat → Nat → TcpOpts → Except Stop (Option TcpOpts)
  | 0, _, _ => .error .loops
  | turns + 1, off, opts =>
    if off < optsLen then
      let optKind := b (pktTcpSize + off)
      if optKind = 0 then .ok (some opts)
      else if optKind = 1 then parseOptionsFrom b optsLen turns (off + 1) opts
      else if optsLen - off < 2 then .ok none
      else
        let optLen := (b (pktTcpSize + off + 1)).toNat
        if optKind = 2 then
          if optLen ≠ 4 then .ok none
          else parseOptionsFrom b optsLen turns (off + optLen) { opts with mss := some (pktTcpSize + off) }
        else if optKind = 8 then
          if optLen ≠ 10 then .ok none
          else parseOptionsFrom b optsLen turns (off + optLen) { opts with ts := some (pktTcpSize + off) }
        else parseOptionsFrom b optsLen turns (off + optLen) opts
    else .ok (some opts)

/-- `parse_options`: `none` if the options are malformed. The bytes left after
the headers are an unsigned difference. An option of length 0 is read again
and again; every other moves on, so that no more turns than bytes are needed. -/
def parseOptions (b : Nat → Byte) (len : BitVec 16) : Except Stop (Option TcpOpts) :=
  let optsLen := RawPkt.hdrlen b * 4 - 20
  if RawPkt.hdrlen b < 5 ∨ (len.setWidth 64 - BitVec.ofNat 64 pktTcpSize).toNat < optsLen then .ok none
  else parseOptionsFrom b optsLen (optsLen + 1) 0 {}

def tsVal (b : Nat → Byte) (ts : Nat) : BitVec 32 := readBe32 b (ts + 2)

/-! ## Connections and listeners -/

/-- `struct app_context`: the application, and the doorbell of the context. -/
structure AppContext where
  app : Nat
  dbId : BitVec 32
deriving DecidableEq

/-- `enum connection_status`. -/
inductive ConnStatus where
  | synWait
  | arpPending
  | synSent
  | regSynack
  | opened
  | closed
  | failed
deriving DecidableEq, Inhabited

/-- `struct connection`, without its links. -/
structure Connection where
  opq : BitVec 64
  ctx : AppContext
  dbId : BitVec 32
  remoteMac : BitVec 64
  remoteIp : BitVec 32
  localIp : BitVec 32
  remotePort : BitVec 16
  localPort : BitVec 16
  status : ConnStatus
  remoteSeq : BitVec 32
  localSeq : BitVec 32
  synTs : BitVec 32
  timeout : BitVec 32
  toAttempts : BitVec 32
  toArmed : Bool
  compStatus : Int
  flowId : BitVec 32
  fnCore : BitVec 32
  flags : BitVec 32
  flowGroup : BitVec 16

def Connection.key (x : Connection) : FlowKey := ⟨x.localIp, x.remoteIp, x.localPort, x.remotePort⟩

def nicifConnEcn : BitVec 32 := 1 <<< 2

structure BacklogSlot where
  buf : Nat → Byte
  len : BitVec 16

/-- `sizeof(bls->buf)`. -/
def backlogBufSize : BitVec 16 := 126

/-- `struct listener`, without the connections that wait. -/
structure Listener where
  opq : BitVec 64
  ctx : AppContext
  port : BitVec 16
  flags : BitVec 32
  backlogLen : BitVec 32
  backlogPos : BitVec 32
  backlogUsed : BitVec 32
  slots : Nat → BacklogSlot
  cores : Nat → BitVec 32
  fgs : Nat → BitVec 16

/-- An entry of `ports`. -/
inductive Port where
  | unused
  | listen (l : Nat)
  | lmulti (ls : List Nat)
  | conn (c : Nat)
deriving DecidableEq

def listenMultiMax : Nat := 32

def portFirstEph : BitVec 16 := 8192

inductive TimerType where
  | handshake
  | closed
deriving DecidableEq

/-- `TO_TCP_HANDSHAKE` or `TO_TCP_CLOSED`. -/
def TimerType.code : TimerType → BitVec 8
  | handshake => 1
  | closed => 3

/-- How long a timer is armed for: `conn_timeout_arm` adds a random number. -/
def TimerType.us (timeout rnd : BitVec 32) : TimerType → BitVec 32
  | handshake => timeout / 2 + rnd % timeout
  | closed => timeout

/-- A call of the timeout manager for the timer of connection `c`, or the expiry of the timer. -/
inductive TimerCall where
  | arm (c : Nat) (t : TimerType) (timeout : BitVec 32)
  | disarm (c : Nat)
  | expire (c : Nat)

/-- The timers that are armed after a call. -/
def TimerCall.after (timers : Nat → Option TimerType) : TimerCall → Nat → Option TimerType
  | arm c t _ => update timers c (some t)
  | disarm c | expire c => update timers c none

def tcpHtsize : Nat := 4096

def connHash (H : HashCrc) (k : FlowKey) : BitVec 32 :=
  H.rteHashCrc4byte (k.localPort.setWidth 32 ||| k.remotePort.setWidth 32 <<< 16)
    (H.rteHashCrc8byte (k.localIp.setWidth 64 ||| k.remoteIp.setWidth 64 <<< 32) 0)

/-- The chain of the hash table for a connection. -/
def htIndex (H : HashCrc) (k : FlowKey) : Nat := (connHash H k).toNat % tcpHtsize

def hash64To32 (key : BitVec 64) : BitVec 32 :=
  let key := ~~~key + (key <<< 18)
  let key := key ^^^ (key >>> 31)
  let key := key * 21
  let key := key ^^^ (key >>> 11)
  let key := key + (key <<< 6)
  let key := key ^^^ (key >>> 22)
  key.setWidth 32

/-- The listener for a packet from `ip` and `port` among several on the port
`localPort`. -/
def listenerHash (ip : BitVec 32) (port localPort : BitVec 16) : Nat :=
  (hash64To32 (ip.setWidth 64 <<< 32 ||| port.setWidth 64 <<< 16 ||| localPort.setWidth 64)).toNat

/-- `listener_lookup`, for a packet of connection `k`. -/
def listenerLookup (ports : BitVec 16 → Port) (k : FlowKey) : Option Nat :=
  match ports k.localPort with
  | .listen l => some l
  | .lmulti ls => ls[listenerHash k.remoteIp k.remotePort k.localPort % ls.length]?
  | .unused => none
  | .conn _ => none

/-! ## State -/

/-- `struct config`: the address of the host, the first timeout and the number of
repetitions of a handshake, whether there is a kernel interface, and the
checksums of the hash table. -/
structure SlowConfig where
  ip : BitVec 32
  tcpHandshakeTo : BitVec 32
  tcpHandshakeRetries : BitVec 32
  kniName : Bool
  crc : HashCrc

structure Segment where
  remoteMac : BitVec 64
  remoteIp : BitVec 32
  remotePort : BitVec 16
  localPort : BitVec 16
  seqno : BitVec 32
  ackno : BitVec 32
  flags : BitVec 9
  tsEcho : Option (BitVec 32)
  mss : Option (BitVec 16)
deriving DecidableEq

structure ConnInfo where
  seqRx : BitVec 32
  seqTx : BitVec 32
  key : FlowKey
  flowId : BitVec 32
  fnCore : BitVec 32
deriving DecidableEq

inductive KernelAppin where
  | connOpened (opq : BitVec 64) (status : Int) (info : Option ConnInfo)
  | acceptedConn (opq : BitVec 64) (status : Int) (info : Option ConnInfo)
  | listenNewconn (opq : BitVec 64) (remoteIp : BitVec 32) (remotePort : BitVec 16)
  | statusListenOpen (opq : BitVec 64) (status : Int)
  | statusConnMove (opq : BitVec 64) (status : Int)
  | statusConnClose (opq : BitVec 64) (status : Int)
deriving DecidableEq

/-- What the slow path sends: segments, and messages to applications. -/
inductive SlowOut where
  | tx (seg : Segment)
  | kout (ctx : AppContext) (msg : KernelAppin)
deriving DecidableEq

/-- The list of the congestion control: `cc_conns`, the links `cc_next`, and where
`cc_poll` goes on. -/
structure CcList where
  conns : Option Nat
  next : Nat → Option Nat
  nextConn : Option Nat

/-- The lists of connections of the applications, and the links `app_next`. -/
structure AppLists where
  conns : Nat → Option Nat
  next : Nat → Option Nat

/-- The state of the slow path. Blocks of memory are numbered by their address;
`conns` holds the connections that are allocated. -/
structure Slow where
  conns : Nat → Option Connection
  htNext : Nat → Option Nat
  hashtable : Nat → Option Nat
  ports : BitVec 16 → Port
  portEphHint : BitVec 16
  listeners : Nat → Option Listener
  /-- The connections that wait for a listener. -/
  waitConns : Nat → Option Nat
  /-- `conn_async_q`, the oldest first. -/
  connAsyncQ : List Nat
  /-- Connections whose address is being resolved. -/
  arpWait : List Nat
  /-- The timers that are armed in the timeout manager. -/
  timers : Nat → Option TimerType
  /-- The calls that armed and disarmed them, the newest first. -/
  timerCalls : List TimerCall
  cc : CcList
  /-- The connections whose flow is registered with the fast path. -/
  flows : Nat → Bool
  apps : AppLists
  /-- The listeners of the applications, the newest first. -/
  appListeners : Nat → List Nat
  out : List SlowOut

/-- `tcp_init`, with some first hint for `port_alloc`. -/
def slowInit (portEphHint : BitVec 16) : Slow where
  conns _ := none
  htNext _ := none
  hashtable _ := none
  ports _ := .unused
  portEphHint := portEphHint
  listeners _ := none
  waitConns _ := none
  connAsyncQ := []
  arpWait := []
  timers _ := none
  timerCalls := []
  cc := ⟨none, fun _ => none, none⟩
  flows _ := false
  apps := ⟨fun _ => none, fun _ => none⟩
  appListeners _ := []
  out := []

/-- Addresses are below this number. A walk along a list that takes more turns
has come to a block twice. -/
def addresses : Nat := 0x10000000000000000

namespace Slow

variable (s : Slow)

def alive (c : Nat) : Bool := (s.conns c).isSome

def conn (c : Nat) : Except Stop Connection :=
  match s.conns c with
  | none => .error .freed
  | some x => .ok x

def setConn (c : Nat) (x : Connection) : Slow := { s with conns := update s.conns c (some x) }

def free (c : Nat) : Slow := { s with conns := update s.conns c none }

def callTimer (call : TimerCall) : Slow := { s with timers := call.after s.timers, timerCalls := call :: s.timerCalls }

def emit (o : SlowOut) : Slow := { s with out := s.out ++ [o] }

def sendControl (x : Connection) (flags : BitVec 9) (tsEcho : Option (BitVec 32)) (mss : Option (BitVec 16)) : Slow :=
  s.emit (.tx ⟨x.remoteMac, x.remoteIp, x.remotePort, x.localPort, x.localSeq, x.remoteSeq, flags, tsEcho, mss⟩)

def sendReset (b : Nat → Byte) (opts : TcpOpts) : Slow :=
  s.emit (.tx ⟨RawPkt.ethSrc b, RawPkt.ipSrc b, RawPkt.tcpSrc b, RawPkt.tcpDest b, RawPkt.ackno b,
    RawPkt.seqno b + 1, tcpRst ||| tcpAck, opts.ts.map (tsVal b), none⟩)

end Slow

/-- `TCP_MSS` of the slow path. -/
def slowTcpMss : BitVec 16 := 1460

/-! ## Lists and timers -/

namespace CcList

variable (alive : Nat → Bool) (c : Nat) (cc : CcList)

/-- `cc_conn_init`. -/
def connInit : CcList := { cc with next := update cc.next c cc.conns, conns := some c }

/-- `cc_conn_remove`. -/
def connRemove : Except Stop CcList :=
  match unlink alive cc.next (addresses + 1) cc.conns c with
  | .error f => .error (.cc f)
  | .ok none => .error .notInCc
  | .ok (some (conns, next)) =>
    .ok ⟨conns, next, if cc.nextConn = some c then cc.next c else cc.nextConn⟩

/-- The loop of `cc_poll` over the connections, from `c` on: where it ends. It
takes the first turn in any case, and then goes on until it is back at
`cFirst`. -/
def pollFrom (cFirst : Nat) : Nat → Bool → Option Nat → Except Stop (Option Nat)
  | 0, _, c => .ok c
  | _ + 1, _, none => .error (.cc .freed)
  | turns + 1, isFirst, some c =>
    if !isFirst && c = cFirst then .ok (some c)
    else if alive c then pollFrom cFirst turns false ((cc.next c).or cc.conns)
    else .error (.cc .freed)

/-- `cc_poll`, without the update of the rates. -/
def poll : Except Stop CcList :=
  match cc.nextConn.or cc.conns with
  | none => .ok cc
  | some c => do
    let next ← cc.pollFrom alive c 128 true (some c)
    .ok { cc with nextConn := next }

end CcList

namespace AppLists

variable (alive : Nat → Bool) (app c : Nat) (apps : AppLists)

def link : AppLists :=
  ⟨update apps.conns app (some c), update apps.next c (apps.conns app)⟩

/-- Taking a connection off the list, as `appif_conn_closed` does. -/
def remove : Except Stop AppLists :=
  match unlink alive apps.next (addresses + 1) (apps.conns app) c with
  | .error f => .error (.app f)
  | .ok none => .error .notInApp
  | .ok (some (head, next)) => .ok ⟨update apps.conns app head, next⟩

/-- The search of `kin_conn_move` and `kin_conn_close`. -/
def search (p : Nat → Bool) : Except Stop (Option Nat) :=
  match find alive apps.next p (addresses + 1) (apps.conns app) with
  | .error f => .error (.app f)
  | .ok r => .ok r

end AppLists

section

variable (cfg : SlowConfig)

/-- `conn_alloc`, if `malloc` gives the block `c` with `junk` in it. -/
def connAlloc (ctx : AppContext) (c : Nat) (junk : Connection) (s : Slow) : Slow :=
  s.setConn c { junk with ctx := ctx, toArmed := false }

def connRegister (c : Nat) (s : Slow) : Except Stop Slow := do
  let x ← s.conn c
  .ok { s with
    htNext := update s.htNext c (s.hashtable (htIndex cfg.crc x.key))
    hashtable := update s.hashtable (htIndex cfg.crc x.key) (some c) }

def connUnregister (c : Nat) (s : Slow) : Except Stop Slow := do
  let x ← s.conn c
  match unlink s.alive s.htNext (addresses + 1) (s.hashtable (htIndex cfg.crc x.key)) c with
  | .error f => .error (.ht f)
  | .ok none => .error .notInHt
  | .ok (some (head, next)) =>
    .ok { s with htNext := next, hashtable := update s.hashtable (htIndex cfg.crc x.key) head }

/-- The comparison of `conn_lookup`, which leaves out the local address. -/
def connMatches (k : FlowKey) (x : Connection) : Bool :=
  k.remoteIp = x.remoteIp && k.localPort = x.localPort && k.remotePort = x.remotePort

/-- `conn_lookup`, for a packet of connection `k`. -/
def connLookup (k : FlowKey) (s : Slow) : Except Stop (Option Nat) :=
  match find s.alive s.htNext (fun c => (s.conns c).any (connMatches k)) (addresses + 1)
    (s.hashtable (htIndex cfg.crc k)) with
  | .error f => .error (.ht f)
  | .ok r => .ok r

/-- `conn_timeout_arm`, which draws a random number below the timeout. -/
def connTimeoutArm (c : Nat) (s : Slow) : Except Stop Slow := do
  let x ← s.conn c
  if x.toArmed then .error .assertion
  else if x.timeout = 0 then .error .divides
  else .ok ((s.setConn c { x with toArmed := true }).callTimer (.arm c .handshake x.timeout))

def connTimeoutDisarm (c : Nat) (s : Slow) : Except Stop Slow := do
  let x ← s.conn c
  if x.toArmed then .ok ((s.setConn c { x with toArmed := false }).callTimer (.disarm c))
  else .error .assertion

/-- `nbqueue_enq` on `conn_async_q`. -/
def connAsyncEnq (c : Nat) (s : Slow) : Except Stop Slow :=
  if c ∈ s.connAsyncQ then .error .queued else .ok { s with connAsyncQ := s.connAsyncQ ++ [c] }

/-! ## Messages to applications -/

def tcpDestroy (c : Nat) (s : Slow) : Except Stop Slow := do
  let x ← s.conn c
  if x.status = .failed then .ok (s.free c) else .error .assertion

/-- What `appif_conn_opened` and `appif_accept_conn` say about a connection. -/
def Connection.info (x : Connection) : ConnInfo := ⟨x.remoteSeq, x.localSeq, x.key, x.flowId, x.fnCore⟩

/-- `appif_conn_opened`. Without room in the queue it does nothing. -/
def appifConnOpened (room : Bool) (c : Nat) (status : Int) (s : Slow) : Except Stop Slow := do
  let x ← s.conn c
  if room then
    if status = 0 then .ok (s.emit (.kout x.ctx (.connOpened x.opq status (some x.info))))
    else do
      let s ← tcpDestroy c s
      .ok (s.emit (.kout x.ctx (.connOpened x.opq status none)))
  else .ok s

/-- `appif_conn_closed`. Without room in the queue it does nothing, and the
connection stays on the list of its application. -/
def appifConnClosed (room : Bool) (c : Nat) (status : Int) (s : Slow) : Except Stop Slow := do
  let x ← s.conn c
  if room then
    let s := s.emit (.kout x.ctx (.statusConnClose x.opq status))
    let apps ← s.apps.remove s.alive x.ctx.app c
    .ok { s with apps := apps }
  else .ok s

def appifListenNewconn (room : Bool) (li : Listener) (remoteIp : BitVec 32) (remotePort : BitVec 16) (s : Slow) : Slow :=
  if room then s.emit (.kout li.ctx (.listenNewconn li.opq remoteIp remotePort)) else s

/-- `appif_accept_conn` with status 0, its only call. Without room in the queue
it goes on, and the message cannot be sent. -/
def appifAcceptConn (room : Bool) (c : Nat) (s : Slow) : Except Stop Slow := do
  let x ← s.conn c
  let s := { s with apps := s.apps.link x.ctx.app c }
  if room then .ok (s.emit (.kout x.ctx (.acceptedConn x.opq 0 (some x.info)))) else .error .koutFull

/-! ## Connections -/

/-- Disarming the timer of a connection if it is armed, as `conn_failed` does. -/
def connTimeoutClear (c : Nat) (s : Slow) : Except Stop Slow := do
  let x ← s.conn c
  if x.toArmed then connTimeoutDisarm c s else .ok s

def connFailed (room : Bool) (c : Nat) (status : Int) (s : Slow) : Except Stop Slow := do
  let s ← connUnregister cfg c s
  let s ← connTimeoutClear c s
  let x ← s.conn c
  appifConnOpened room c status (s.setConn c { x with status := .failed })

/-- What `conn_arp_done` writes into a connection. -/
def Connection.arpDone (x : Connection) : Connection :=
  { x with status := .synSent, toAttempts := 0, timeout := cfg.tcpHandshakeTo }

/-- `conn_arp_done`, which gives 0. -/
def connArpDone (c : Nat) (s : Slow) : Except Stop Slow := do
  let x ← s.conn c
  let s ← connTimeoutArm c (s.setConn c (x.arpDone cfg))
  .ok (s.sendControl (x.arpDone cfg) (tcpSyn ||| tcpEce ||| tcpCwr) (some 0) (some slowTcpMss))

/-- What `conn_syn_sent_packet` writes into a connection. -/
def Connection.synAcked (x : Connection) (b : Nat → Byte) (ts : Nat) : Connection :=
  { x with
    remoteSeq := RawPkt.seqno b + 1
    localSeq := RawPkt.ackno b
    synTs := tsVal b ts
    flags := if RawPkt.flags b &&& (tcpEce ||| tcpCwr) = tcpEce then x.flags ||| nicifConnEcn else x.flags
    compStatus := 0 }

/-- The flow `f` is registered for a connection. -/
def Slow.addFlow (s : Slow) (c : Nat) (x : Connection) (f : BitVec 32) : Slow :=
  { s.setConn c { x with flowId := f } with flows := update s.flows c true }

def Slow.ccInit (s : Slow) (c : Nat) : Slow := { s with cc := s.cc.connInit c }

/-- `conn_syn_sent_packet`, if `nicif_connection_add` gives `flow`. -/
def connSynSentPacket (c : Nat) (b : Nat → Byte) (opts : TcpOpts) (flow : Option (BitVec 32)) (room : Bool) (s : Slow) :
    Except Stop (Int × Slow) := do
  let s ← connTimeoutDisarm c s
  if RawPkt.flags b &&& (tcpSyn ||| tcpAck) ≠ tcpSyn ||| tcpAck then .ok (-1, s)
  else match opts.ts with
    | none => .ok (-1, s)
    | some ts => do
      let x ← s.conn c
      match flow with
      | none => .ok (-1, (s.setConn c (x.synAcked b ts)).ccInit c)
      | some f => do
        let s := ((s.setConn c (x.synAcked b ts)).ccInit c).addFlow c { x.synAcked b ts with status := .opened } f
        let s ← appifConnOpened room c 0 (s.sendControl (x.synAcked b ts) tcpAck (some (tsVal b ts)) none)
        .ok (0, s)

def Connection.ecnFlags (x : Connection) : BitVec 9 := if x.flags &&& nicifConnEcn = nicifConnEcn then tcpEce else 0

def connPacket (c : Nat) (b : Nat → Byte) (opts : TcpOpts) (fnCore : BitVec 32) (flowGroup : BitVec 16)
    (flow : Option (BitVec 32)) (room : Bool) (s : Slow) : Except Stop Slow := do
  let x ← s.conn c
  if x.status = .synSent then
    let (ret, s) ← connSynSentPacket c b opts flow room (s.setConn c { x with fnCore := fnCore, flowGroup := flowGroup })
    if ret ≠ 0 then connFailed cfg room c ret s else .ok s
  else if x.status = .opened ∧ RawPkt.flags b = tcpSyn then
    match opts.ts with
    | none => connFailed cfg room c (-1) s
    | some ts => .ok (s.sendControl x (tcpSyn ||| tcpAck ||| x.ecnFlags) (some (tsVal b ts)) (some slowTcpMss))
  else if x.status = .opened ∧ RawPkt.flags b &&& tcpSyn = tcpSyn then .ok s
  else if x.status = .closed ∧ RawPkt.flags b &&& tcpFin = tcpFin then .ok (s.sendControl x tcpAck (some 0) none)
  else .ok s

/-- `conn_reg_synack`, which gives 0. -/
def connRegSynack (room : Bool) (c : Nat) (s : Slow) : Except Stop Slow := do
  let x ← s.conn c
  appifAcceptConn room c ((s.setConn c { x with status := .opened }).sendControl x (tcpSyn ||| tcpAck ||| x.ecnFlags)
    (some x.synTs) (some slowTcpMss))

/-- Clearing the entry of a port if it is for a connection, as
`conn_close_timeout` does. -/
def portFree (ports : BitVec 16 → Port) (p : BitVec 16) : BitVec 16 → Port :=
  match ports p with
  | .conn _ => update ports p .unused
  | _ => ports

def connCloseTimeout (room : Bool) (c : Nat) (s : Slow) : Except Stop Slow := do
  let x ← s.conn c
  let s ← connUnregister cfg c { s with ports := portFree s.ports x.localPort }
  let s ← appifConnClosed room c 0 { s with ports := portFree s.ports x.localPort }
  .ok (s.free c)

end

/-! ## Listeners -/

namespace Listener

variable (li : Listener)

/-- The comparison with a stored packet, along the stored ones. -/
def holdsFrom (k : FlowKey) : Nat → BitVec 32 → Bool
  | 0, _ => false
  | n + 1, bp => k = RawPkt.key (li.slots bp.toNat).buf || holdsFrom k n ((bp + 1) % li.backlogLen)

def holds (k : FlowKey) : Bool := li.holdsFrom k li.backlogUsed.toNat li.backlogPos

def storePos : BitVec 32 :=
  let bp := li.backlogPos + li.backlogUsed
  if bp ≥ li.backlogLen then bp - li.backlogLen else bp

/-- Storing the first `len` bytes of a packet. The other bytes of the slot stay. -/
def store (b : Nat → Byte) (len : BitVec 16) (fnCore : BitVec 32) (flowGroup : BitVec 16) : Listener :=
  let bp := li.storePos.toNat
  { li with
    cores := update li.cores bp fnCore
    fgs := update li.fgs bp flowGroup
    slots := update li.slots bp ⟨fun i => if i < len.toNat then b i else (li.slots bp).buf i, len⟩
    backlogUsed := li.backlogUsed + 1 }

def oldest : BacklogSlot := li.slots li.backlogPos.toNat

def pop : Listener :=
  let pos := li.backlogPos + 1
  { li with
    backlogUsed := li.backlogUsed - 1
    backlogPos := if pos ≥ li.backlogLen then pos - li.backlogLen else pos }

end Listener

/-- The length of a packet from the length of its IP part. -/
def synLen (b : Nat → Byte) : BitVec 16 := 14 + RawPkt.ipLen b

namespace Slow

def setListener (s : Slow) (l : Nat) (li : Listener) : Slow := { s with listeners := update s.listeners l (some li) }

end Slow

section

variable (cfg : SlowConfig)

/-- What `listener_accept` writes into a connection that waits. -/
def Connection.accept (x : Connection) (li : Listener) (ts : Nat) : Connection :=
  let b := li.oldest.buf
  { x with
    fnCore := li.cores li.backlogPos.toNat
    flowGroup := li.fgs li.backlogPos.toNat
    remoteMac := RawPkt.ethSrc b
    remoteIp := RawPkt.ipSrc b
    localIp := cfg.ip
    remotePort := RawPkt.tcpSrc b
    localPort := li.port
    remoteSeq := RawPkt.seqno b + 1
    localSeq := 1
    synTs := tsVal b ts
    flags := if RawPkt.flags b &&& (tcpEce ||| tcpCwr) = tcpEce ||| tcpCwr then x.flags ||| nicifConnEcn else x.flags
    status := .regSynack
    compStatus := 0 }

/-- `listener_accept`, if `nicif_connection_add` gives `flow`. -/
def listenerAccept (l : Nat) (flow : Option (BitVec 32)) (s : Slow) : Except Stop Slow :=
  match s.listeners l, s.waitConns l with
  | none, _ => .error .null
  | some _, none => .error .assertion
  | some li, some c => do
    if li.backlogUsed = 0 then .error .assertion
    else match ← parseOptions li.oldest.buf li.oldest.len with
      | none => .ok (s.setListener l li.pop)
      | some opts => match opts.ts with
        | none => .ok (s.setListener l li.pop)
        | some ts => do
          let x ← s.conn c
          let s := (s.setConn c (x.accept cfg li ts)).ccInit c
          match flow with
          | none => .ok (s.setListener l li.pop)
          | some f => do
            let s := s.addFlow c (x.accept cfg li ts) f
            let s ← connRegister cfg c { s with waitConns := update s.waitConns l (s.htNext c) }
            let s ← connAsyncEnq c s
            .ok (s.setListener l li.pop)

def listenerPacket (l : Nat) (b : Nat → Byte) (opts : TcpOpts) (fnCore : BitVec 32) (flowGroup : BitVec 16)
    (flow : Option (BitVec 32)) (room : Bool) (s : Slow) : Except Stop Slow :=
  match s.listeners l with
  | none => .error .null
  | some li =>
    if RawPkt.flags b &&& ~~~(tcpEce ||| tcpCwr) ≠ tcpSyn then .ok (s.sendReset b opts)
    else if synLen b > backlogBufSize then .ok s
    else if li.holds (RawPkt.key b) then .ok s
    else if li.backlogLen = li.backlogUsed then .ok s
    else
      let s := s.setListener l (li.store b (synLen b) fnCore flowGroup)
      let s := appifListenNewconn room li (RawPkt.ipSrc b) (RawPkt.tcpSrc b) s
      if s.waitConns l = none then .ok s else listenerAccept cfg l flow s

end

/-! ## Calls -/

/-- `port_alloc`: the next port to try. -/
def portNext (p : BitVec 16) : BitVec 16 := if p + 1 < portFirstEph then portFirstEph else p + 1

/-- The loop of `port_alloc`. -/
def portSearch (ports : BitVec 16 → Port) (pStart : BitVec 16) : Nat → BitVec 16 → Except Stop (Option (BitVec 16))
  | 0, _ => .error .loops
  | turns + 1, p =>
    if ports p = .unused then .ok (some p)
    else if portNext p = pStart then .ok none
    else portSearch ports pStart turns (portNext p)

/-- `port_alloc`. A loop that has tried every port without coming back does not
end. -/
def portAlloc (s : Slow) : Except Stop (BitVec 16 × Slow) := do
  match ← portSearch s.ports s.portEphHint 65537 s.portEphHint with
  | none => .ok (0, s)
  | some p => .ok (p, { s with portEphHint := portNext p })

/-- The result of `routing_resolve`. -/
inductive Route where
  | fails
  | found (mac : BitVec 64)
  | pending

/-- The memory that `malloc` gives for a connection, with what is in it; `none` if
`conn_alloc` fails. -/
abbrev ConnMem := Option (Nat × Connection)

/-- `struct kernel_appout_conn_open`. -/
structure ConnOpen where
  opq : BitVec 64
  remoteIp : BitVec 32
  remotePort : BitVec 16

/-- `struct kernel_appout_accept_conn`. -/
structure AcceptConn where
  listenOpq : BitVec 64
  connOpq : BitVec 64
  localPort : BitVec 16

/-- The connection that a request to close or move names. -/
structure ConnName where
  opq : BitVec 64
  key : FlowKey
deriving DecidableEq

/-- `struct kernel_appout_listen_open`. -/
structure ListenOpen where
  opq : BitVec 64
  localPort : BitVec 16
  backlog : BitVec 32
  reuseport : Bool

/-- What `nicif_connection_disable` gives. -/
structure NicDisabled where
  txSeq : BitVec 32
  rxSeq : BitVec 32
  txClosed : Bool
  rxClosed : Bool

section

variable (cfg : SlowConfig)

/-- What `tcp_open` writes into a new connection. -/
def Connection.opening (x : Connection) (ctx : AppContext) (req : ConnOpen) (localPort : BitVec 16)
    (mac : BitVec 64) : Connection :=
  { x with
    ctx := ctx
    opq := req.opq
    status := .arpPending
    remoteIp := req.remoteIp
    localIp := cfg.ip
    remotePort := req.remotePort
    localPort := localPort
    remoteMac := mac
    localSeq := 0
    remoteSeq := 0
    dbId := ctx.dbId
    flags := 0
    compStatus := 0
    toArmed := false }

/-- `tcp_open`: the connection, if it does not fail. -/
def tcpOpen (ctx : AppContext) (req : ConnOpen) (mem : ConnMem) (route : Route) (s : Slow) :
    Except Stop (Option Nat × Slow) :=
  match mem with
  | none => .ok (none, s)
  | some (c, junk) => do
    let (localPort, s) ← portAlloc (connAlloc ctx c junk s)
    if localPort = 0 then .ok (none, s.free c)
    else match route with
      | .fails => .ok (none, s.free c)
      | .found mac => do
        let s ← connRegister cfg c (s.setConn c (junk.opening cfg ctx req localPort mac))
        let s ← connArpDone cfg c s
        .ok (some c, { s with ports := update s.ports localPort (.conn c) })
      | .pending => do
        let s ← connRegister cfg c (s.setConn c (junk.opening cfg ctx req localPort 0))
        .ok (some c, { s with ports := update s.ports localPort (.conn c), arpWait := s.arpWait ++ [c] })

def ListenOpen.listener (req : ListenOpen) (ctx : AppContext) (bufs : Nat → BacklogSlot) : Listener where
  opq := req.opq
  ctx := ctx
  port := req.localPort
  flags := 0
  backlogLen := req.backlog
  backlogPos := 0
  backlogUsed := 0
  slots := bufs
  cores _ := 0
  fgs _ := 0

/-- `tcp_listen`: the listener, if it does not fail. `mem` is the memory for the
listener and its buffers, if there is enough for all of it. -/
def tcpListen (ctx : AppContext) (req : ListenOpen) (mem : Option (Nat × (Nat → BacklogSlot))) (s : Slow) :
    Option Nat × Slow :=
  match s.ports req.localPort, mem with
  | .unused, some (l, bufs) =>
    (some l, { s.setListener l (req.listener ctx bufs) with
      waitConns := update s.waitConns l none
      ports := update s.ports req.localPort (if req.reuseport then .lmulti [l] else .listen l) })
  | .lmulti ls, some (l, bufs) =>
    if req.reuseport = false ∨ ls.length = listenMultiMax then (none, s)
    else (some l, { s.setListener l (req.listener ctx bufs) with
      waitConns := update s.waitConns l none
      ports := update s.ports req.localPort (.lmulti (ls ++ [l])) })
  | _, _ => (none, s)

/-- What `tcp_accept` writes into a new connection. -/
def Connection.waiting (x : Connection) (ctx : AppContext) (req : AcceptConn) (li : Listener) : Connection :=
  { x with
    ctx := ctx
    opq := req.connOpq
    status := .synWait
    localPort := li.port
    dbId := ctx.dbId
    flags := li.flags
    toArmed := false }

/-- `tcp_accept`: whether it succeeds. -/
def tcpAccept (ctx : AppContext) (req : AcceptConn) (l : Option Nat) (mem : ConnMem) (flow : Option (BitVec 32))
    (s : Slow) : Except Stop (Bool × Slow) :=
  match mem with
  | none => .ok (false, s)
  | some (c, junk) => match l.bind fun l => (s.listeners l).map (l, ·) with
    | none => .error .null
    | some (l, li) => do
      let s := connAlloc ctx c junk s
      let s := { s.setConn c (junk.waiting ctx req li) with
        htNext := update s.htNext c (s.waitConns l), waitConns := update s.waitConns l (some c) }
      if li.backlogUsed = 0 then .ok (true, s)
      else do
        let s ← listenerAccept cfg l flow s
        .ok (true, s)

def tcpPacket (pkt : RawPkt) (fnCore : BitVec 32) (flowGroup : BitVec 16) (flow : Option (BitVec 32)) (room : Bool)
    (s : Slow) : Except Stop Slow := do
  if pkt.len.toNat < pktTcpSize then .ok s
  else if RawPkt.ipDest pkt.buf ≠ cfg.ip then .ok s
  else match ← parseOptions pkt.buf pkt.len with
    | none => .ok s
    | some opts => match ← connLookup cfg (RawPkt.key pkt.buf) s with
      | some c => connPacket cfg c pkt.buf opts fnCore flowGroup flow room s
      | none => match listenerLookup s.ports (RawPkt.key pkt.buf) with
        | some l => listenerPacket cfg l pkt.buf opts fnCore flowGroup flow room s
        | none =>
          if RawPkt.flags pkt.buf &&& tcpRst = 0 ∧ cfg.kniName = false then .ok (s.sendReset pkt.buf opts) else .ok s

/-- The sequence numbers of the fast path are those of the connection. -/
def Connection.disabled (x : Connection) (nic : NicDisabled) : Connection :=
  { x with remoteSeq := nic.rxSeq, localSeq := nic.txSeq }

/-- `tcp_close`: whether it succeeds. -/
def tcpClose (c : Nat) (nic : NicDisabled) (s : Slow) : Except Stop (Bool × Slow) := do
  let x ← s.conn c
  if x.status ≠ .opened then .ok (false, s)
  else
    let s := { s with flows := update s.flows c false }
    let s := if nic.txClosed && nic.rxClosed then s else s.sendControl (x.disabled nic) tcpRst none none
    let cc ← s.cc.connRemove s.alive c
    if x.toArmed then .error .assertion
    else
      let s := { s.setConn c { x.disabled nic with status := .closed, toArmed := true } with cc := cc }
      .ok (true, s.callTimer (.arm c .closed 10000))

/-- A connection whose SYN is sent once more, with a longer timeout. -/
def Connection.retried (x : Connection) : Connection :=
  { x with toArmed := false, toAttempts := x.toAttempts + 1, timeout := x.timeout * 2 }

/-- `tcp_timeout`, when the timer of type `t` has expired. -/
def tcpTimeout (c : Nat) (t : TimerType) (room : Bool) (s : Slow) : Except Stop Slow := do
  let x ← s.conn c
  if x.toArmed then
    match t with
    | .closed => connCloseTimeout cfg room c (s.setConn c { x with toArmed := false })
    | .handshake =>
      if x.status ≠ .synSent then .error .badState
      else if cfg.tcpHandshakeRetries < x.toAttempts + 1 then
        connFailed cfg room c (-1) (s.setConn c { x with toArmed := false, toAttempts := x.toAttempts + 1 })
      else do
        let s ← connTimeoutArm c (s.setConn c x.retried)
        .ok (s.sendControl x.retried (tcpSyn ||| tcpEce ||| tcpCwr) (some 0) (some slowTcpMss))
  else .error .assertion

/-- A turn of `tcp_poll` for the connection `c`. -/
def tcpPollConn (room : Nat → Bool) (c : Nat) (s : Slow) : Except Stop Slow := do
  let x ← s.conn c
  if x.status = .arpPending then
    if x.compStatus ≠ 0 then connFailed cfg (room c) c x.compStatus s else connArpDone cfg c s
  else if x.status = .regSynack then
    if x.compStatus ≠ 0 then connFailed cfg (room c) c x.compStatus s else connRegSynack (room c) c s
  else .ok s

/-- The loop of `tcp_poll`, with a bound on its turns. Taking a connection from
the queue reads all that are in it. -/
def tcpPollTurns (room : Nat → Bool) : Nat → Slow → Except Stop Slow
  | 0, _ => .error .loops
  | turns + 1, s => match s.connAsyncQ with
    | [] => .ok s
    | c :: q =>
      if s.connAsyncQ.all s.alive then do
        let s ← tcpPollConn cfg room c { s with connAsyncQ := q }
        tcpPollTurns room turns s
      else .error .freed

def tcpPoll (room : Nat → Bool) (s : Slow) : Except Stop Slow := tcpPollTurns cfg room (s.connAsyncQ.length + 1) s

/-- What the end of a request to resolve an address writes into a connection. -/
def Connection.resolved (x : Connection) (status : Int) (mac : BitVec 64) : Connection :=
  { x with compStatus := status, remoteMac := if status = 0 then mac else x.remoteMac }

/-- The end of a request to resolve the address of `c`, in `arp_packet` or
`arp_timeout`. -/
def arpDone (c : Nat) (status : Int) (mac : BitVec 64) (s : Slow) : Except Stop Slow := do
  let x ← s.conn c
  connAsyncEnq c { s.setConn c (x.resolved status mac) with arpWait := s.arpWait.erase c }

/-! ## Requests of applications -/

def kinConnOpen (ctx : AppContext) (req : ConnOpen) (mem : ConnMem) (route : Route) (s : Slow) : Except Stop Slow := do
  match ← tcpOpen cfg ctx req mem route s with
  | (none, s) => .ok (s.emit (.kout ctx (.connOpened req.opq (-1) none)))
  | (some c, s) => .ok { s with apps := s.apps.link ctx.app c }

/-- The search for a connection by `kin_conn_move` and `kin_conn_close`. -/
def kinFind (ctx : AppContext) (name : ConnName) (s : Slow) : Except Stop (Option Nat) :=
  s.apps.search s.alive ctx.app fun c => (s.conns c).any fun x => x.key = name.key && x.opq = name.opq

/-- `kin_conn_move`, if the new context is `known`. The fast path is told, and the
slow path does not change. -/
def kinConnMove (ctx : AppContext) (name : ConnName) (known : Bool) (s : Slow) : Except Stop Slow := do
  match ← kinFind ctx name s with
  | none => .ok (s.emit (.kout ctx (.statusConnMove name.opq (-1))))
  | some c => do
    let x ← s.conn c
    .ok (s.emit (.kout ctx (.statusConnMove name.opq (if known ∧ x.status = .opened then 0 else -1))))

def kinConnClose (ctx : AppContext) (name : ConnName) (nic : NicDisabled) (s : Slow) : Except Stop Slow := do
  match ← kinFind ctx name s with
  | none => .ok (s.emit (.kout ctx (.statusConnClose name.opq (-1))))
  | some c => do
    match ← tcpClose c nic s with
    | (true, s) => .ok s
    | (false, s) => .ok (s.emit (.kout ctx (.statusConnClose name.opq (-1))))

def kinListenOpen (ctx : AppContext) (req : ListenOpen) (mem : Option (Nat × (Nat → BacklogSlot))) (s : Slow) : Slow :=
  match tcpListen ctx req mem s with
  | (none, s) => s.emit (.kout ctx (.statusListenOpen req.opq (-1)))
  | (some l, s) =>
    ({ s with appListeners := update s.appListeners ctx.app (l :: s.appListeners ctx.app) } : Slow).emit
      (.kout ctx (.statusListenOpen req.opq 0))

/-- `kin_accept_conn`. A listener that is not found is passed on as it is. -/
def kinAcceptConn (ctx : AppContext) (req : AcceptConn) (mem : ConnMem) (flow : Option (BitVec 32)) (s : Slow) :
    Except Stop Slow := do
  let listen := (s.appListeners ctx.app).find? fun l =>
    (s.listeners l).any fun li => li.port = req.localPort && li.opq = req.listenOpq
  match ← tcpAccept cfg ctx req listen mem flow s with
  | (true, s) => .ok s
  | (false, s) => .ok (s.emit (.kout ctx (.acceptedConn req.connOpq (-1) none)))

end

/-! ## Runs -/

inductive SlowOp where
  | connOpen (ctx : AppContext) (req : ConnOpen) (mem : ConnMem) (route : Route)
  | connMove (ctx : AppContext) (name : ConnName) (known : Bool)
  | connClose (ctx : AppContext) (name : ConnName) (nic : NicDisabled)
  | listenOpen (ctx : AppContext) (req : ListenOpen) (mem : Option (Nat × (Nat → BacklogSlot)))
  | acceptConn (ctx : AppContext) (req : AcceptConn) (mem : ConnMem) (flow : Option (BitVec 32))
  | packet (pkt : RawPkt) (fnCore : BitVec 32) (flowGroup : BitVec 16) (flow : Option (BitVec 32)) (room : Bool)
  | arpDone (c : Nat) (status : Int) (mac : BitVec 64)
  | tcpPoll (room : Nat → Bool)
  | timeout (c : Nat) (t : TimerType) (room : Bool)
  | ccPoll

def slowCall (cfg : SlowConfig) (s : Slow) : SlowOp → Except Stop Slow
  | .connOpen ctx req mem route => kinConnOpen cfg ctx req mem route s
  | .connMove ctx name known => kinConnMove ctx name known s
  | .connClose ctx name nic => kinConnClose ctx name nic s
  | .listenOpen ctx req mem => .ok (kinListenOpen ctx req mem s)
  | .acceptConn ctx req mem flow => kinAcceptConn cfg ctx req mem flow s
  | .packet pkt fnCore flowGroup flow room => tcpPacket cfg pkt fnCore flowGroup flow room s
  | .arpDone c status mac => TasNic.arpDone c status mac s
  | .tcpPoll room => TasNic.tcpPoll cfg room s
  | .timeout c t room => tcpTimeout cfg c t room (s.callTimer (.expire c))
  | .ccPoll => do
    let cc ← s.cc.poll s.alive
    .ok { s with cc := cc }

/-- What the environment can do: `malloc` gives memory that is not in use, an
address is resolved that was asked for, and only armed timers expire. -/
def Slow.Enabled (s : Slow) : SlowOp → Prop
  | .connOpen _ _ mem _ => ∀ m ∈ mem, m.1 < addresses ∧ s.conns m.1 = none
  | .acceptConn _ _ mem _ => ∀ m ∈ mem, m.1 < addresses ∧ s.conns m.1 = none
  | .listenOpen _ _ mem => ∀ m ∈ mem, s.listeners m.1 = none
  | .arpDone c _ _ => c ∈ s.arpWait
  | .timeout c t _ => s.timers c = some t
  | _ => True

/-- The process: it runs, or has stopped. -/
abbrev SlowProc := Except Stop Slow

/-- A step of the process. One that has stopped takes no step. -/
def slowStep (cfg : SlowConfig) : SlowProc → SlowOp → Option SlowProc
  | .error _, _ => none
  | .ok s, op => some (slowCall cfg s op)

end TasNic
