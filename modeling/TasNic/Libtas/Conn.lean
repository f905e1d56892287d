import TasNic.Rdma.Queue
import TasNic.Lib.Run
import TasNic.Lib.Chains

/-!
# Connections of libTAS (`lib/tas/conn.c`, `lib/tas/init.c`)

A connection collects what the fast path has to be told of it: `txb_bump` bytes to send and `rxb_bump`
bytes read. A call that adds to them puts the connection on the pending list of its context
(`connMarkBump`); a poll of the context takes the connections off the list, flushes their bytes and
announces them (`connsBump`). The end of the transmit stream is a dummy byte behind the others.

A poll is cut into its parts: the messages of the slow path, the updates of the fast path and
`connsBump`. Of the queues only matters whether they have room, which is an input, as are the results
of RDMA operations. `fn_core`, sequence numbers, addresses and the events that messages of the slow path
make are left out.
-/

namespace TasNic

namespace Libtas

open Function

inductive ConnState where
  | closed
  | openRequested
  | acceptRequested
  | opened
  | closeRequested
deriving DecidableEq

/-- `CONN_FLAG_TXEOS`, `CONN_FLAG_TXEOS_ALLOC` and `CONN_FLAG_TXEOS_ACK`. -/
structure ConnFlags where
  txeos : Bool
  txeosAlloc : Bool
  txeosAck : Bool

structure FlextcpConnection where
  rx : RdmaQueue
  rxbBump : BitVec 32
  tx : RdmaQueue
  txbAllocated : BitVec 32
  txbBump : BitVec 32
  bumpSeq : BitVec 32
  bumpNext : Option Nat
  bumpPrev : Option Nat
  bumpPending : Bool
  status : ConnState
  flags : ConnFlags
  rxClosed : Bool

/-- `connection_init`, with the queues and the state that the connection gets. -/
def FlextcpConnection.init (rx tx : RdmaQueue) (status : ConnState) : FlextcpConnection :=
  ⟨rx, 0, tx, 0, 0, 0, none, none, false, status, ⟨false, false, false⟩, false⟩

/-- `struct flextcp_pl_atx_connupdate`; a flow is named by its connection. -/
structure AtxConnupdate where
  conn : Nat
  rxBump : BitVec 32
  txBump : BitVec 32
  bumpSeq : BitVec 16
  txDone : Bool

/-- `struct flextcp_pl_arx_connupdate`. -/
structure ArxConnupdate where
  conn : Nat
  rxBump : BitVec 32
  txBump : BitVec 32
  eos : Bool

/-- `struct flextcp_event`; a pointer is an offset in the receive buffer. -/
inductive FlextcpEvent where
  | received (conn buf len : Nat)
  | sendbuf (conn : Nat)
  | txClosed (conn : Nat)
  | rxClosed (conn : Nat)
deriving DecidableEq

/-- `struct flextcp_context`, with its connections below `num`, and all entries put into the
queues to the fast path so far. -/
structure FlextcpContext where
  conns : Nat → FlextcpConnection
  num : Nat
  bumpPendingFirst : Option Nat
  bumpPendingLast : Option Nat
  atx : List AtxConnupdate

/-- The assertions and calls of `abort`. -/
inductive Stop where
  /-- An assertion of a queue function. -/
  | queue
  /-- A call of `rq_try_reserve_flush` fails. -/
  | reserve
  /-- `connection_close` does not find the connection, or does not stop looking for it. -/
  | notFound
  | endless
  | txSend
  | unsentData
  | noTxeos
  | pushtxeos
  /-- Assertions of `event_arx_connupdate`. -/
  | earlyTxBump
  | rxShort
  | ackAfterEos
  /-- Assertions of `conns_bump`. -/
  | notOpen
  | flush
deriving DecidableEq

/-- What `rq_try_reserve_flush` finds. -/
inductive Reserve where
  | room
  | full
  | failed
deriving DecidableEq

/-- The results of the RDMA operations of a call, one after the other. -/
abbrev RdmaEnv := Nat → Int × Nat

/-- All operations succeed, and read 0. -/
def rdmaOk : RdmaEnv := fun _ => (0, 0)

namespace FlextcpContext

def setConn (s : FlextcpContext) (c : Nat) (x : FlextcpConnection) : FlextcpContext :=
  { s with conns := update s.conns c x }

def bumpNext (s : FlextcpContext) (c : Nat) : Option Nat := (s.conns c).bumpNext

def connMarkBump (s : FlextcpContext) (c : Nat) : FlextcpContext :=
  if (s.conns c).bumpPending then s
  else
    let s' := s.setConn c
      { s.conns c with bumpNext := none, bumpPrev := s.bumpPendingLast, bumpPending := true }
    match s.bumpPendingLast with
    | some p => { s'.setConn p { s'.conns p with bumpNext := some c } with bumpPendingLast := some c }
    | none => { s' with bumpPendingFirst := some c, bumpPendingLast := some c }

/-- The removal from the bump queue in `flextcp_connection_close`. -/
def bumpRemove (s : FlextcpContext) (c : Nat) : Except Stop FlextcpContext :=
  let s' := s.setConn c { s.conns c with bumpPending := false }
  if !(s.conns c).bumpPending then .ok s
  else if s.bumpPendingFirst = some c then .ok { s' with bumpPendingFirst := s.bumpNext c }
  else match Chains.find (fun _ => true) s.bumpNext (fun p => s.bumpNext p == some c) (s.num + 1) s.bumpPendingFirst with
    | .error _ => .error .endless
    | .ok none => .error .notFound
    | .ok (some p) =>
      .ok { s'.setConn p { s'.conns p with bumpNext := s.bumpNext c } with
        bumpPendingLast := if s.bumpNext c = none then some p else s.bumpPendingLast }

/-- `flextcp_connection_close`; `r` is what it finds in the queue to the slow path. -/
def flextcpConnectionClose (s : FlextcpContext) (c : Nat) (r : Reserve) : Except Stop (FlextcpContext × Int) :=
  match s.bumpRemove c with
  | .error e => .error e
  | .ok s => match r with
    | .failed => .error .reserve
    | .full => .ok (s, -1)
    | .room => .ok (s.setConn c { s.conns c with status := .closeRequested }, 0)

def flextcpConnectionRxDone (s : FlextcpContext) (c len : Nat) : Except Stop (FlextcpContext × Int) :=
  let x := s.conns c
  match rqTryDequeue x.rx false len with
  | none => .error .queue
  | some d =>
    if d.rv ≠ 0 then if d.rv > 0 then .ok (s, -1) else .error .queue
    else
      let x := { x with rx := d.queue, rxbBump := x.rxbBump + BitVec.ofNat 32 len }
      let s := s.setConn c x
      .ok (if x.rxbBump.toNat > x.rx.bufferSize / 4 then s.connMarkBump c else s, 0)

/-- `flextcp_connection_tx_alloc`, with the offset of the allocated bytes. -/
def flextcpConnectionTxAlloc (s : FlextcpContext) (c len : Nat) (env : RdmaEnv) :
    Except Stop (FlextcpContext × Int × Nat) :=
  let x := s.conns c
  if x.flags.txeos then .ok (s, -1, 0)
  else match (rqNbytesCanReserve x.tx).eval env with
    | none => .error .queue
    | some (q, r, _) =>
      let avail := (BitVec.ofInt 32 r).toNat
      -- truncate if necessary
      let len := if avail < len then avail else len
      -- short alloc if we wrap around
      let len := if q.txOffset + len > q.bufferSize then q.bufferSize - q.txOffset else len
      .ok (s.setConn c { x with tx := q, txbAllocated := x.txbAllocated + BitVec.ofNat 32 len }, len, q.txOffset)

/-- `flextcp_connection_tx_alloc2`, with the offset of the allocated bytes and the length of
their first piece; a second piece is at the start of the buffer. -/
def flextcpConnectionTxAlloc2 (s : FlextcpContext) (c len : Nat) (env : RdmaEnv) :
    Except Stop (FlextcpContext × Int × Nat × Nat) :=
  let x := s.conns c
  if x.flags.txeos then .ok (s, -1, 0, 0)
  else match (rqNbytesCanReserve x.tx).eval env with
    | none => .error .queue
    | some (q, r, _) =>
      let avail := (BitVec.ofInt 32 r).toNat
      let len := if avail < len then avail else len
      let len1 := if q.txOffset + len > q.bufferSize then q.bufferSize - q.txOffset else len
      .ok (s.setConn c { x with tx := q, txbAllocated := x.txbAllocated + BitVec.ofNat 32 len }, len, q.txOffset, len1)

def flextcpConnectionTxSend (s : FlextcpContext) (c len : Nat) (env : RdmaEnv) : Except Stop (FlextcpContext × Int) :=
  let x := s.conns c
  if x.txbAllocated.toNat < len then .ok (s, -1)
  else match (rqTryEnqueue x.tx none len).eval env with
    | none => .error .queue
    | some (q, rv, _) =>
      if rv ≠ 0 then .error .txSend
      else
        let n := BitVec.ofNat 32 len
        let x := { x with tx := q, txbAllocated := x.txbAllocated - n, txbBump := x.txbBump + n }
        .ok ((s.setConn c x).connMarkBump c, 0)

def flextcpConnPushtxeos (s : FlextcpContext) (c : Nat) (env : RdmaEnv) : Except Stop (FlextcpContext × Int) :=
  let x := s.conns c
  if rqNbytesToFlush x.tx ≠ 0 then .error .unsentData
  else if !x.flags.txeos then .error .noTxeos
  -- if there is no tx buffer space we'll postpone until the next tx bump
  else if rqNbytesEmpty x.tx = 0 then .ok (s, -1)
  else match (rqTryEnqueue x.tx (some fun _ => 1) 1).eval env with
    | none => .error .queue
    | some (q, rv, _) =>
      if rv ≠ 0 then .error .pushtxeos
      else
        let x := { x with tx := q, flags := { x.flags with txeosAlloc := true }, txbBump := x.txbBump + 1 }
        .ok ((s.setConn c x).connMarkBump c, 0)

def flextcpConnectionTxClose (s : FlextcpContext) (c : Nat) (env : RdmaEnv) : Except Stop (FlextcpContext × Int) :=
  let x := s.conns c
  -- if app hasn't sent all data yet, abort
  if rqNbytesToFlush x.tx > 0 then .ok (s, -1)
  -- if already closed, abort too
  else if x.flags.txeos then .ok (s, -1)
  else
    (flextcpConnPushtxeos (s.setConn c { x with flags := { x.flags with txeos := true } }) c env).map fun r => (r.1, 0)

end FlextcpContext

/-! ## Updates of the fast path -/

namespace ArxConnupdate

def wraps (u : ArxConnupdate) (rx : RdmaQueue) : Bool := decide (rx.rxOffset + u.rxBump.toNat > rx.bufferSize)

def rxEvents (u : ArxConnupdate) (rx : RdmaQueue) : List FlextcpEvent :=
  if u.rxBump = 0 then []
  else if u.wraps rx then
    let rxLen := rx.bufferSize - rx.rxOffset
    [.received u.conn rx.rxOffset rxLen, .received u.conn 0 (u.rxBump.toNat - rxLen)]
  else [.received u.conn rx.rxOffset u.rxBump.toNat]

/-- If the transmit buffer was depleted, there is an event. -/
def txAvail (u : ArxConnupdate) (tx : RdmaQueue) : Bool := u.txBump != 0 && rqNbytesEmpty tx == 0

def txAvailEvents (u : ArxConnupdate) (tx : RdmaQueue) : List FlextcpEvent :=
  if u.txAvail tx then [.sendbuf u.conn] else []

/-- The number of events that `event_arx_connupdate` wants to have room for. -/
def evsNeeded (u : ArxConnupdate) (x : FlextcpConnection) : Nat :=
  (if u.rxBump = 0 then 0 else if u.wraps x.rx then 2 else 1) +
  (if u.txAvail x.tx then 1 else 0) +
  (if x.flags.txeosAlloc ∧ rqNbytesToFlush x.tx = 0 then 1 else 0) +
  if u.eos then 1 else 0

end ArxConnupdate

namespace FlextcpContext

/-- What `event_arx_connupdate` does with acknowledged bytes. -/
def bumpTx (s : FlextcpContext) (u : ArxConnupdate) (env : RdmaEnv) : Except Stop (FlextcpContext × List FlextcpEvent) :=
  let x := s.conns u.conn
  let avail := u.txAvailEvents x.tx
  if u.txBump = 0 then .ok (s, [])
  else if x.flags.txeos ∧ !x.flags.txeosAlloc then
    -- if we were previously unable to push out TX EOS, do so now
    match s.flextcpConnPushtxeos u.conn env with
    | .error e => .error e
    | .ok (s, rv) => if rv ≠ 0 then .error .pushtxeos else .ok (s, avail)
  else if x.flags.txeosAlloc then
    -- there should be no data after we push out the EOS
    if x.flags.txeosAck then .error .ackAfterEos
    -- if this was the last bump, mark TX EOS as acked
    else if x.txbBump = 0 then
      .ok (s.setConn u.conn { x with flags := { x.flags with txeosAck := true } }, avail ++ [.txClosed u.conn])
    else .ok (s, avail)
  else .ok (s, avail)

/-- `event_arx_connupdate`: the events, or `none` if there is no room for them. -/
def eventArxConnupdate (s : FlextcpContext) (u : ArxConnupdate) (outn : Nat) (env : RdmaEnv) :
    Except Stop (Option (FlextcpContext × List FlextcpEvent)) :=
  let x := s.conns u.conn
  match x.status with
  | .openRequested | .acceptRequested =>
    if u.txBump ≠ 0 then .error .earlyTxBump
    else .ok (some (s.setConn u.conn { x with rxClosed := u.eos }, []))
  | .closed | .closeRequested => .ok (some (s, []))
  | .opened =>
    if u.evsNeeded x > outn then .ok none
    else if u.rxBump ≠ 0 ∧ rqNbytesEnqueued x.rx < u.rxBump.toNat then .error .rxShort
    else match s.bumpTx u env with
      | .error e => .error e
      | .ok (s, txEvs) =>
        let evs := u.rxEvents x.rx ++ txEvs
        if u.eos then
          .ok (some (s.setConn u.conn { s.conns u.conn with rxClosed := true }, evs ++ [.rxClosed u.conn]))
        else .ok (some (s, evs))

/-! ## Telling the fast path -/

/-- The rest of a turn of `conns_bump`, for connection `c`. -/
def bumpTurn (s : FlextcpContext) (c : Nat) (env : RdmaEnv) : Except Stop FlextcpContext :=
  let x := s.conns c
  match (rqNflush x.tx x.txbBump.toNat).eval env with
  | none => .error .queue
  | some (q, n, _) =>
    if n < 0 then .error .flush
    else
      let txBump := BitVec.ofInt 32 n
      let x' := { x with
        tx := q, txbBump := x.txbBump - txBump, rxbBump := 0, bumpSeq := x.bumpSeq + 1, bumpPending := false }
      .ok { s.setConn c x' with
        bumpPendingLast := if x.bumpNext = none then none else s.bumpPendingLast
        bumpPendingFirst := x.bumpNext
        atx := s.atx ++ [⟨c, x.rxbBump, txBump, x.bumpSeq.setWidth 16, x.flags.txeosAlloc⟩] }

end FlextcpContext

/-- What a turn of `conns_bump` finds in the queue to the fast path: room, and then the
results of the RDMA operations, or a failure. -/
inductive BumpTurn where
  | room (env : RdmaEnv)
  | failed

/-- `conns_bump`; the turns are those that do not find the queue full. -/
def FlextcpContext.connsBump : FlextcpContext → List BumpTurn → Except Stop FlextcpContext
  | s, turns => match s.bumpPendingFirst with
    | none => .ok s
    | some c =>
      if (s.conns c).status ≠ .opened then .error .notOpen
      else match turns with
        | [] => .ok s
        | .failed :: _ => .error .reserve
        | .room env :: turns => match s.bumpTurn c env with
          | .error e => .error e
          | .ok s => s.connsBump turns

/-- What every turn of `conns_bump` flushes, `n` bytes of connection `c` in context `s`, meets `p s c n`. -/
def FlextcpContext.Turns (p : FlextcpContext → Nat → Int → Bool) : FlextcpContext → List BumpTurn → Prop
  | _, [] => True
  | _, .failed :: _ => True
  | s, .room env :: turns => match s.bumpPendingFirst with
    | none => True
    | some c =>
      ((rqNflush (s.conns c).tx (s.conns c).txbBump.toNat).eval env).all (fun r => p s c r.2.1) = true ∧
      match s.bumpTurn c env with
      | .error _ => True
      | .ok s' => s'.Turns p turns

instance FlextcpContext.Turns.dec (p : FlextcpContext → Nat → Int → Bool) : ∀ s turns, Decidable (FlextcpContext.Turns p s turns)
  | _, [] | _, .failed :: _ => isTrue trivial
  | s, .room env :: turns => by
    unfold FlextcpContext.Turns
    have : ∀ c, Decidable (match s.bumpTurn c env with
        | .error _ => True
        | .ok s' => s'.Turns p turns) := fun c =>
      match s.bumpTurn c env with
      | .error _ => isTrue trivial
      | .ok s' => FlextcpContext.Turns.dec p s' turns
    exact match s.bumpPendingFirst with
    | none => isTrue trivial
    | some c => instDecidableAnd

/-! ## Runs -/

/-- A context; the connections whose opening is not answered by the slow path yet, and
those that it was asked to close; the bytes acknowledged in updates; and the events
returned by polls. -/
structure LibtasRun where
  ctx : FlextcpContext
  opening : Nat → Bool
  closeReq : Nat → Bool
  acked : Nat → Nat
  events : List FlextcpEvent

/-- New connections, with any queues. -/
def LibtasRun.init (num : Nat) (status : Nat → ConnState) (rx tx : Nat → RdmaQueue) : LibtasRun where
  ctx := ⟨fun c => .init (rx c) (tx c) (status c), num, none, none, []⟩
  opening c := status c = .openRequested ∨ status c = .acceptRequested
  closeReq _ := false
  acked _ := 0
  events := []

inductive LibtasOp where
  | txAlloc (c len : Nat) (env : RdmaEnv)
  | txAlloc2 (c len : Nat) (env : RdmaEnv)
  | txSend (c len : Nat) (env : RdmaEnv)
  | rxDone (c len : Nat)
  | txClose (c : Nat) (env : RdmaEnv)
  | close (c : Nat) (r : Reserve)
  /-- Messages of the slow path: a connection is opened or accepted, or this has failed; a
  connection is closed. -/
  | connOpened (c : Nat) (ok : Bool)
  | connClosed (c : Nat)
  /-- An update of the fast path, with room for `outn` events. -/
  | update (u : ArxConnupdate) (outn : Nat) (env : RdmaEnv)
  | bump (turns : List BumpTurn)
  /-- The fast path changes a receive queue, or takes bytes from a transmit queue in shared
  memory. -/
  | nicRx (c : Nat) (rx : RdmaQueue)
  | nicTx (c len : Nat)

/-- The slow path only answers requests, and the fast path takes only bytes that are there. -/
def LibtasRun.Enabled (s : LibtasRun) : LibtasOp → Prop
  | .txAlloc c _ _ | .txAlloc2 c _ _ | .txSend c _ _ | .rxDone c _ | .txClose c _ | .close c _ | .nicRx c _ => c < s.ctx.num
  | .connOpened c _ => c < s.ctx.num ∧ s.opening c = true
  | .connClosed c => c < s.ctx.num ∧ s.closeReq c = true
  | .update u _ _ => u.conn < s.ctx.num
  | .bump _ => True
  | .nicTx c len => c < s.ctx.num ∧ (rqTryDequeue (s.ctx.conns c).tx false len).any (·.rv = 0) = true

instance LibtasRun.Enabled.dec (s : LibtasRun) (op) : Decidable (s.Enabled op) := by
  induction op using LibtasOp.casesOn <;> dsimp only [LibtasRun.Enabled] <;> infer_instance

def LibtasRun.updated (s : LibtasRun) (u : ArxConnupdate) (ctx : FlextcpContext) (evs : List FlextcpEvent) : LibtasRun :=
  { s with
    ctx := ctx, events := s.events ++ evs
    acked := update s.acked u.conn (s.acked u.conn + u.txBump.toNat) }

/-- A call, a message, an update, or `conns_bump`. -/
def libtasCall (s : LibtasRun) : LibtasOp → Except Stop LibtasRun
  | .txAlloc c len env => (s.ctx.flextcpConnectionTxAlloc c len env).map fun r => { s with ctx := r.1 }
  | .txAlloc2 c len env => (s.ctx.flextcpConnectionTxAlloc2 c len env).map fun r => { s with ctx := r.1 }
  | .txSend c len env => (s.ctx.flextcpConnectionTxSend c len env).map fun r => { s with ctx := r.1 }
  | .rxDone c len => (s.ctx.flextcpConnectionRxDone c len).map fun r => { s with ctx := r.1 }
  | .txClose c env => (s.ctx.flextcpConnectionTxClose c env).map fun r => { s with ctx := r.1 }
  | .close c r => (s.ctx.flextcpConnectionClose c r).map fun (ctx, rv) =>
      { s with ctx := ctx, closeReq := if rv = 0 then update s.closeReq c true else s.closeReq }
  | .connOpened c ok => .ok { s with
      ctx := s.ctx.setConn c { s.ctx.conns c with status := if ok then .opened else .closed }
      opening := update s.opening c false }
  | .connClosed c => .ok { s with ctx := s.ctx.setConn c { s.ctx.conns c with status := .closed } }
  | .update u outn env => (s.ctx.eventArxConnupdate u outn env).map fun
      | none => s
      | some (ctx, evs) => s.updated u ctx evs
  | .bump turns => (s.ctx.connsBump turns).map fun ctx => { s with ctx := ctx }
  | .nicRx c rx => .ok { s with ctx := s.ctx.setConn c { s.ctx.conns c with rx := rx } }
  | .nicTx c len => match rqTryDequeue (s.ctx.conns c).tx false len with
    | none => .error .queue
    | some d => .ok { s with ctx := s.ctx.setConn c { s.ctx.conns c with tx := d.queue } }

/-- A step of a run; the run ends if a call stops. -/
def libtasStep (s : LibtasRun) (op : LibtasOp) : Option LibtasRun :=
  if s.Enabled op then (libtasCall s op).toOption else none

/-! ## What the calls can do -/

namespace ArxConnupdate

theorem txClosed_not_mem_txAvailEvents (u : ArxConnupdate) (tx : RdmaQueue) (d : Nat) :
    .txClosed d ∉ u.txAvailEvents tx := by
  rw [txAvailEvents]
  split <;> simp

theorem txClosed_not_mem_rxEvents (u : ArxConnupdate) (rx : RdmaQueue) (d : Nat) : .txClosed d ∉ u.rxEvents rx := by
  rw [rxEvents]
  split
  · simp
  · split <;> simp

theorem length_rxEvents (u : ArxConnupdate) (rx : RdmaQueue) :
    (u.rxEvents rx).length = if u.rxBump = 0 then 0 else if u.wraps rx then 2 else 1 := by
  rw [rxEvents]
  split
  · rfl
  · split <;> rfl

theorem length_txAvailEvents (u : ArxConnupdate) (tx : RdmaQueue) :
    (u.txAvailEvents tx).length = if u.txAvail tx then 1 else 0 := by
  rw [txAvailEvents]
  split <;> rfl

end ArxConnupdate

namespace FlextcpContext

variable {s s' : FlextcpContext} {c d len : Nat} {env : RdmaEnv}

@[simp] theorem setConn_self (s : FlextcpContext) (c : Nat) (x : FlextcpConnection) : (s.setConn c x).conns c = x :=
  update_self ..

theorem setConn_of_ne (s : FlextcpContext) (x : FlextcpConnection) (h : d ≠ c) : (s.setConn c x).conns d = s.conns d :=
  update_of_ne h ..

@[simp] theorem setConn_num (s : FlextcpContext) (c : Nat) (x : FlextcpConnection) : (s.setConn c x).num = s.num := rfl

@[simp] theorem setConn_atx (s : FlextcpContext) (c : Nat) (x : FlextcpConnection) : (s.setConn c x).atx = s.atx := rfl

@[simp] theorem setConn_setConn (s : FlextcpContext) (c : Nat) (x y : FlextcpConnection) :
    (s.setConn c x).setConn c y = s.setConn c y := by
  simp [setConn]

theorem connMarkBump_conns (s : FlextcpContext) (c d : Nat) : ∃ n p, (s.connMarkBump c).conns d =
    { s.conns d with bumpNext := n, bumpPrev := p, bumpPending := d = c || (s.conns d).bumpPending } := by
  have hset : ∃ n p, (s.setConn c { s.conns c with bumpNext := none, bumpPrev := s.bumpPendingLast, bumpPending := true }).conns d =
      { s.conns d with bumpNext := n, bumpPrev := p, bumpPending := d = c || (s.conns d).bumpPending } := by
    by_cases hd : d = c
    · exact ⟨none, s.bumpPendingLast, by simp [hd]⟩
    · exact ⟨_, _, by simp [hd, setConn_of_ne _ _ hd]; rfl⟩
  obtain ⟨n, p, e⟩ := hset
  rw [connMarkBump]
  split
  · rename_i hp
    refine ⟨(s.conns d).bumpNext, (s.conns d).bumpPrev, ?_⟩
    by_cases hd : d = c
    · simp [hd, ← hp]
    · simp [hd]
  · split
    · rename_i q _
      by_cases hq : d = q
      · subst hq
        exact ⟨some c, p, by simp [e]⟩
      · exact ⟨n, p, (setConn_of_ne _ _ hq).trans e⟩
    · exact ⟨n, p, e⟩

@[simp] theorem connMarkBump_num (s : FlextcpContext) (c : Nat) : (s.connMarkBump c).num = s.num := by
  rw [connMarkBump]
  split
  · rfl
  · split <;> rfl

@[simp] theorem connMarkBump_atx (s : FlextcpContext) (c : Nat) : (s.connMarkBump c).atx = s.atx := by
  rw [connMarkBump]
  split
  · rfl
  · split <;> rfl

theorem bumpRemove_ok (h : s.bumpRemove c = .ok s') : s'.atx = s.atx ∧
    ∀ d, ∃ n b, s'.conns d = { s.conns d with bumpNext := n, bumpPending := b } := by
  have hset : ∀ d, ∃ b, (s.setConn c { s.conns c with bumpPending := false }).conns d = { s.conns d with bumpPending := b } := by
    intro d
    by_cases hd : d = c
    · subst hd
      exact ⟨false, setConn_self ..⟩
    · exact ⟨_, setConn_of_ne _ _ hd⟩
  simp only [bumpRemove] at h
  split at h
  · cases h
    exact ⟨rfl, fun d => ⟨_, _, rfl⟩⟩
  · split at h
    · cases h
      exact ⟨rfl, fun d => ⟨_, hset d⟩⟩
    · split at h
      · cases h
      · cases h
      · rename_i p _
        cases h
        refine ⟨rfl, fun d => ?_⟩
        obtain ⟨b, e⟩ := hset d
        by_cases hd : d = p
        · subst hd
          exact ⟨s.bumpNext c, b, by simp [e]⟩
        · exact ⟨_, b, (setConn_of_ne _ _ hd).trans e⟩

/-- What an allocation in the transmit buffer does, with its return value. -/
def Allocated (s : FlextcpContext) (c : Nat) (env : RdmaEnv) (s' : FlextcpContext) (r : Int) : Prop :=
  s' = s ∧ r = -1 ∨ ∃ (q : RdmaQueue) (n : Int) (env' : RdmaEnv) (v : BitVec 32) (m : Nat),
    (rqNbytesCanReserve (s.conns c).tx).eval env = some (q, n, env') ∧
    s' = s.setConn c { s.conns c with tx := q, txbAllocated := v } ∧ r = m ∧ m ≤ (BitVec.ofInt 32 n).toNat

theorem flextcpConnectionTxAlloc_ok {r : FlextcpContext × Int × Nat}
    (h : s.flextcpConnectionTxAlloc c len env = .ok r) : s.Allocated c env r.1 r.2.1 := by
  simp only [flextcpConnectionTxAlloc] at h
  split at h
  · cases h
    exact .inl ⟨rfl, rfl⟩
  · split at h
    · cases h
    · rename_i q n env' he
      cases h
      exact .inr ⟨q, n, env', _, _, he, rfl, rfl, by split <;> split <;> omega⟩

theorem flextcpConnectionTxAlloc2_ok {r : FlextcpContext × Int × Nat × Nat}
    (h : s.flextcpConnectionTxAlloc2 c len env = .ok r) : s.Allocated c env r.1 r.2.1 := by
  simp only [flextcpConnectionTxAlloc2] at h
  split at h
  · cases h
    exact .inl ⟨rfl, rfl⟩
  · split at h
    · cases h
    · rename_i q n env' he
      cases h
      exact .inr ⟨q, n, env', _, _, he, rfl, rfl, by split <;> omega⟩

theorem flextcpConnectionTxSend_ok {r : FlextcpContext × Int} (h : s.flextcpConnectionTxSend c len env = .ok r) :
    r.1 = s ∨ ∃ q env' v, len ≤ (s.conns c).txbAllocated.toNat ∧
      (rqTryEnqueue (s.conns c).tx none len).eval env = some (q, 0, env') ∧
      r.1 = (s.setConn c { s.conns c with
        tx := q, txbAllocated := v, txbBump := (s.conns c).txbBump + BitVec.ofNat 32 len }).connMarkBump c := by
  simp only [flextcpConnectionTxSend] at h
  split at h
  · cases h
    exact .inl rfl
  · rename_i hlen
    split at h
    · cases h
    · rename_i q rv env' he
      split at h
      · cases h
      · rename_i hrv
        cases h
        rw [not_not.mp hrv] at he
        exact .inr ⟨q, env', _, Nat.not_lt.mp hlen, he, rfl⟩

theorem flextcpConnectionRxDone_ok {r : FlextcpContext × Int} (h : s.flextcpConnectionRxDone c len = .ok r) :
    r.1 = s ∨ ∃ q v, r.1 = s.setConn c { s.conns c with rx := q, rxbBump := v } ∨
      r.1 = (s.setConn c { s.conns c with rx := q, rxbBump := v }).connMarkBump c := by
  simp only [flextcpConnectionRxDone] at h
  split at h
  · cases h
  · rename_i d hd
    split at h
    · split at h
      · cases h
        exact .inl rfl
      · cases h
    · cases h
      refine .inr ⟨d.queue, (s.conns c).rxbBump + BitVec.ofNat 32 len, ?_⟩
      split
      · exact .inr rfl
      · exact .inl rfl

theorem flextcpConnPushtxeos_ok {r : FlextcpContext × Int} (h : s.flextcpConnPushtxeos c env = .ok r) :
    rqNbytesToFlush (s.conns c).tx = 0 ∧ (s.conns c).flags.txeos = true ∧ (r = (s, -1) ∨
      ∃ q env', rqNbytesEmpty (s.conns c).tx ≠ 0 ∧
        (rqTryEnqueue (s.conns c).tx (some fun _ => 1) 1).eval env = some (q, 0, env') ∧
        r = ((s.setConn c { s.conns c with
          tx := q, flags := { (s.conns c).flags with txeosAlloc := true }
          txbBump := (s.conns c).txbBump + 1 }).connMarkBump c, 0)) := by
  simp only [flextcpConnPushtxeos] at h
  split at h
  · cases h
  · rename_i hflush
    split at h
    · cases h
    · rename_i heos
      refine ⟨not_not.mp hflush, by simpa using heos, ?_⟩
      split at h
      · cases h
        exact .inl rfl
      · rename_i hempty
        split at h
        · cases h
        · rename_i q rv env' he
          split at h
          · cases h
          · rename_i hrv
            cases h
            rw [not_not.mp hrv] at he
            exact .inr ⟨q, env', hempty, he, rfl⟩

theorem flextcpConnectionTxClose_ok {r : FlextcpContext × Int} (h : s.flextcpConnectionTxClose c env = .ok r) :
    r.1 = s ∨ (s.conns c).flags.txeos = false ∧ ∃ rv,
      flextcpConnPushtxeos (s.setConn c { s.conns c with flags := { (s.conns c).flags with txeos := true } }) c env =
        .ok (r.1, rv) := by
  simp only [flextcpConnectionTxClose] at h
  split at h
  · cases h
    exact .inl rfl
  · split at h
    · cases h
      exact .inl rfl
    · rename_i heos
      obtain ⟨r', hr', rfl⟩ := Run.map_ok h
      exact .inr ⟨by simpa using heos, r'.2, hr'⟩

/-- What becomes of acknowledged bytes: nothing, the end of the stream is pushed, or it is
taken to be acknowledged. -/
theorem bumpTx_ok {u : ArxConnupdate} {r : FlextcpContext × List FlextcpEvent} (h : s.bumpTx u env = .ok r) :
    (r.1 = s ∧ r.2.length ≤ (u.txAvailEvents (s.conns u.conn).tx).length ∧ ∀ d, .txClosed d ∉ r.2) ∨
    (u.txBump ≠ 0 ∧ (s.conns u.conn).flags.txeos = true ∧ (s.conns u.conn).flags.txeosAlloc = false ∧
      s.flextcpConnPushtxeos u.conn env = .ok (r.1, 0) ∧ r.2 = u.txAvailEvents (s.conns u.conn).tx) ∨
    (u.txBump ≠ 0 ∧ (s.conns u.conn).flags.txeosAlloc = true ∧ (s.conns u.conn).flags.txeosAck = false ∧
      (s.conns u.conn).txbBump = 0 ∧
      r = (s.setConn u.conn { s.conns u.conn with flags := { (s.conns u.conn).flags with txeosAck := true } },
        u.txAvailEvents (s.conns u.conn).tx ++ [.txClosed u.conn])) := by
  have hnot := u.txClosed_not_mem_txAvailEvents (s.conns u.conn).tx
  simp only [bumpTx] at h
  split at h
  · cases h
    exact .inl ⟨rfl, Nat.zero_le _, fun _ => List.not_mem_nil⟩
  · rename_i hbump
    split at h
    · rename_i heos
      split at h
      · cases h
      · rename_i s₁ rv he
        split at h
        · cases h
        · rename_i hrv
          cases h
          rw [not_not.mp hrv] at he
          exact .inr (.inl ⟨hbump, heos.1, by simpa using heos.2, he, rfl⟩)
    · split at h
      · rename_i halloc
        split at h
        · cases h
        · rename_i hack
          split at h
          · rename_i hz
            cases h
            exact .inr (.inr ⟨hbump, halloc, by simpa using hack, hz, rfl⟩)
          · cases h
            exact .inl ⟨rfl, Nat.le_refl _, hnot⟩
      · cases h
        exact .inl ⟨rfl, Nat.le_refl _, hnot⟩

theorem eventArxConnupdate_ok {u : ArxConnupdate} {outn : Nat} {evs : List FlextcpEvent}
    (h : s.eventArxConnupdate u outn env = .ok (some (s', evs))) :
    ((s.conns u.conn).status ≠ .opened ∧ evs = [] ∧ ∃ b, s' = s.setConn u.conn { s.conns u.conn with rxClosed := b }) ∨
    ((s.conns u.conn).status = .opened ∧ u.evsNeeded (s.conns u.conn) ≤ outn ∧ ∃ s₁ txEvs b, s.bumpTx u env = .ok (s₁, txEvs) ∧
      s' = s₁.setConn u.conn { s₁.conns u.conn with rxClosed := b } ∧
      evs = u.rxEvents (s.conns u.conn).rx ++ txEvs ++ if u.eos then [.rxClosed u.conn] else []) := by
  have hid : ∀ s : FlextcpContext, s = s.setConn u.conn { s.conns u.conn with rxClosed := (s.conns u.conn).rxClosed } :=
    fun s => by rw [setConn, update_eq_self]
  simp only [eventArxConnupdate] at h
  split at h
  · rename_i hst
    split at h
    · cases h
    · cases h
      exact .inl ⟨by simp [hst], rfl, u.eos, rfl⟩
  · rename_i hst
    split at h
    · cases h
    · cases h
      exact .inl ⟨by simp [hst], rfl, u.eos, rfl⟩
  · rename_i hst
    cases h
    exact .inl ⟨by simp [hst], rfl, _, hid s⟩
  · rename_i hst
    cases h
    exact .inl ⟨by simp [hst], rfl, _, hid s⟩
  · rename_i hst
    split at h
    · cases h
    · rename_i hfit
      split at h
      · cases h
      · split at h
        · cases h
        · rename_i s₁ txEvs hb
          refine .inr ⟨hst, Nat.not_lt.mp hfit, ?_⟩
          split at h
          · rename_i heos
            cases h
            exact ⟨s₁, txEvs, true, hb, rfl, by rw [if_pos heos]⟩
          · rename_i heos
            cases h
            exact ⟨_, txEvs, _, hb, hid _, by rw [if_neg heos, List.append_nil]⟩

theorem bumpTurn_ok {env : RdmaEnv} (h : s.bumpTurn c env = .ok s') :
    ∃ q n env', (rqNflush (s.conns c).tx (s.conns c).txbBump.toNat).eval env = some (q, n, env') ∧ 0 ≤ n ∧
      s' = { s.setConn c { s.conns c with
          tx := q, txbBump := (s.conns c).txbBump - BitVec.ofInt 32 n, rxbBump := 0
          bumpSeq := (s.conns c).bumpSeq + 1, bumpPending := false } with
        bumpPendingLast := if s.bumpNext c = none then none else s.bumpPendingLast
        bumpPendingFirst := s.bumpNext c
        atx := s.atx ++
          [⟨c, (s.conns c).rxbBump, BitVec.ofInt 32 n, (s.conns c).bumpSeq.setWidth 16, (s.conns c).flags.txeosAlloc⟩] } := by
  simp only [bumpTurn] at h
  split at h
  · cases h
  · rename_i q n env' he
    split at h
    · cases h
    · cases h
      exact ⟨q, n, env', he, by omega, rfl⟩

theorem connsBump_nil_ok (h : s.connsBump [] = .ok s') : s' = s := by
  rw [connsBump] at h
  split at h
  · exact (Except.ok.inj h).symm
  · split at h
    · cases h
    · exact (Except.ok.inj h).symm

/-- `conns_bump` has nothing to do, or makes a turn and goes on. -/
theorem connsBump_cons_ok {t : BumpTurn} {turns : List BumpTurn} (h : s.connsBump (t :: turns) = .ok s') :
    (s.bumpPendingFirst = none ∧ s' = s) ∨ ∃ c env s₁, s.bumpPendingFirst = some c ∧
      s.bumpTurn c env = .ok s₁ ∧ s₁.connsBump turns = .ok s' ∧ ∀ p, s.Turns p (t :: turns) →
        ((rqNflush (s.conns c).tx (s.conns c).txbBump.toNat).eval env).all (fun r => p s c r.2.1) = true ∧
        s₁.Turns p turns := by
  rw [connsBump] at h
  split at h
  · rename_i hfirst
    exact .inl ⟨hfirst, (Except.ok.inj h).symm⟩
  · rename_i c hfirst
    split at h
    · cases h
    · cases t with
      | failed => cases h
      | room env =>
        simp only at h
        split at h
        · cases h
        · rename_i s₁ hturn
          refine .inr ⟨c, env, s₁, hfirst, hturn, h, fun p hp => ?_⟩
          simpa only [Turns, hfirst, hturn] using hp

end FlextcpContext

theorem libtasStep_some {s s' : LibtasRun} {op : LibtasOp} (h : libtasStep s op = some s') :
    s.Enabled op ∧ libtasCall s op = .ok s' := by
  rw [libtasStep] at h
  split at h
  · rename_i he
    refine ⟨he, ?_⟩
    cases hc : libtasCall s op with
    | ok a =>
      rw [hc] at h
      exact congrArg Except.ok (Option.some.inj h)
    | error e =>
      rw [hc] at h
      cases h
  · cases h

end Libtas

end TasNic
