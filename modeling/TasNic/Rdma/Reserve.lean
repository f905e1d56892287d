import TasNic.Rdma.Flush
import TasNic.Libtas.Conn

/-!
# Reservations and their callers

A caller reserves room for a message, then enqueues it and flushes the queue, and aborts if
one of the two fails (`ReserveCaller`). A reservation takes the bytes up to the receiver's
offset for room, of which `rq_try_enqueue` keeps `RDMA_QUEUE_PAD` free. `ReservePadded` says
that they stay free; then a reservation that succeeds is kept, and no caller aborts after it
(`reservation_contract`).
-/

namespace TasNic

open Circ RdmaQueue

/-! ## Programs one after the other -/

namespace Rdma

variable {α β : Type}

/-- A program that goes on with the queue and the result of another one. -/
def bind : Rdma α → (RdmaQueue → α → Rdma β) → Rdma β
  | done q a, k => k q a
  | abort, _ => abort
  | write q src dst sz f, k => write q src dst sz fun rc => (f rc).bind k
  | read q dst src sz f, k => read q dst src sz fun rc q' => (f rc q').bind k

theorem eval_bind {p : Rdma α} {k : RdmaQueue → α → Rdma β} {env env' : Nat → Int × Nat} {q : RdmaQueue} {a : α}
    (h : p.eval env = some (q, a, env')) : (p.bind k).eval env = (k q a).eval env' := by
  induction p generalizing env with
  | done q₁ a =>
    cases h
    rfl
  | abort => cases h
  | write q₁ src dst sz f ih => exact ih _ h
  | read q₁ dst src sz f ih => exact ih _ _ h

end Rdma

/-- No RDMA operation fails. -/
def RdmaOk (env : Nat → Int × Nat) : Prop := ∀ i, (env i).1 = 0

theorem RdmaOk.rest {α : Type} {p : Rdma α} {env env' : Nat → Int × Nat} {q : RdmaQueue} {a : α} (h : RdmaOk env)
    (he : p.eval env = some (q, a, env')) : RdmaOk env' := by
  induction p generalizing env with
  | done q₁ a =>
    cases he
    exact h
  | abort => cases he
  | write q₁ src dst sz f ih => exact ih _ (fun i => h (i + 1)) he
  | read q₁ dst src sz f ih => exact ih _ _ (fun i => h (i + 1)) he

/-! ## Flushes that do not fail -/

section flushes

variable {q : RdmaQueue} {n m total : Nat} {env : Nat → Int × Nat}

theorem nflushWrite_ok (k : RdmaQueue → Rdma Int) (h : RdmaOk env) :
    ∃ q' env', (nflushWrite q n k).eval env = (k q').eval env' ∧ RdmaOk env' := by
  have hrc : ∀ i, ¬ (env i).1 < 0 := fun i => by rw [h i]; decide
  unfold nflushWrite
  split
  · generalize (if q.flushOffset + n > q.bufferSize then q.bufferSize - q.flushOffset else n) = b1
    dsimp only [Rdma.eval]
    rw [if_neg (hrc 0)]
    split
    · dsimp only [Rdma.eval]
      rw [if_neg (hrc 1)]
      exact ⟨_, _, rfl, fun i => h (i + 1 + 1)⟩
    · exact ⟨_, _, rfl, fun i => h (i + 1)⟩
  · exact ⟨q, env, rfl, h⟩

theorem nflushPublish_ok (q : RdmaQueue) (total : Nat) (env : Nat → Int × Nat) :
    ∃ env', (nflushPublish q total).eval env = some (q, (total : Int), env') :=
  (TxOf.nflushPublish_eval q total env).1

theorem nflushLoop_ok (left : Nat) (h : RdmaOk env) :
    ∃ q' r env', (nflushLoop left q m total).eval env = some (q', ((r : Nat) : Int), env') := by
  induction left generalizing q total env with
  | zero =>
    rw [nflushLoop.eq_def]
    obtain ⟨q', env', e, -⟩ := nflushWrite_ok _ h
    obtain ⟨env₁, e₁⟩ := nflushPublish_ok q' _ env'
    rw [e, ite_self, e₁]
    exact ⟨_, _, _, rfl⟩
  | succ left ih =>
    rw [nflushLoop.eq_def]
    dsimp only
    generalize (if m > rqNbytesMaxFlush q then rqNbytesMaxFlush q else m) = n
    obtain ⟨q', env', e, h'⟩ := nflushWrite_ok _ h
    rw [e]
    split
    · obtain ⟨env₁, e₁⟩ := nflushPublish_ok q' _ env'
      exact ⟨_, _, _, e₁⟩
    · simp only [readRxOffset, Rdma.eval, h' 0, ne_eq, not_true_eq_false, if_false]
      exact ih fun i => h' (i + 1)

theorem nflushLoop_room (hm : m ≤ rqNbytesMaxFlush q) (h : RdmaOk env) :
    ∃ q' env', (nflushLoop 1 q m 0).eval env = some (q', (m : Int), env') := by
  rw [nflushLoop_fits 1 hm]
  obtain ⟨q', env', e, -⟩ := nflushWrite_ok _ h
  obtain ⟨env₁, e₁⟩ := nflushPublish_ok q' m env'
  exact ⟨q', env₁, by rw [e, e₁]⟩

end flushes

/-! ## The contract -/

/-- After `n` more bytes the padding is still free: of the transmitter's ring if the receiver
has its own, and of the room up to the receiver's offset otherwise. The sum to which
`rq_try_reserve_flush` compares the room does not wrap. -/
def ReservePadded (q : RdmaQueue) (n : Nat) : Prop :=
  rqNbytesToFlush q + n < 2 ^ 64 ∧
    if q.paired = true then rqNbytesToFlush q + n + rdmaQueuePad ≤ q.bufferSize
    else q.flushOffset = q.rxOffset ∨ rqNbytesToFlush q + n + rdmaQueuePad ≤ rqNbytesMaxFlush q
deriving Decidable

/-- An enqueue of `n` bytes succeeds, and the flush after it flushes as many bytes. -/
def ReserveKept (q : RdmaQueue) (n : Nat) (env : Nat → Int × Nat) : Prop :=
  ∀ src, ∃ q₁ q₂ r env₁ env₂, (rqTryEnqueue q src n).eval env = some (q₁, 0, env₁) ∧
    (rqFlush q₁).eval env₁ = some (q₂, r, env₂) ∧ (n : Int) ≤ r

theorem ReservePadded.reread {q q' : RdmaQueue} {n : Nat} (h : ReservePadded q n) (hr : Reread q q') :
    ReservePadded q' n := by
  obtain rfl | ⟨hp, o, rfl⟩ := hr
  · exact h
  · rw [ReservePadded, if_pos hp] at h
    exact ⟨h.1, (if_pos hp).symm ▸ h.2⟩

theorem ReservePadded.room {q : RdmaQueue} {n : Nat} (h : ReservePadded q n)
    (hroom : (rqNbytesToFlush q + n) % 2 ^ 64 ≤ rqNbytesMaxFlush q) : rqNbytesToFlush q + n ≤ rqNbytesMaxFlush q :=
  Nat.mod_eq_of_lt h.1 ▸ hroom

namespace TxSide

variable {q : RdmaQueue} {T F n : Nat} {env : Nat → Int × Nat}

theorem fits (h : TxSide q T F) (hpad : ReservePadded q n)
    (hroom : n = 0 ∧ q.paired = true ∨ rqNbytesToFlush q + n ≤ rqNbytesMaxFlush q) : n ≤ rqNbytesEmpty q := by
  cases h with
  | unpaired D h =>
    have hf := h.flushed; have hd := h.dequeued; have hlap := h.lap
    have hunp : ¬ q.paired = true := by rw [h.unpaired]; decide
    have hmax : rqNbytesMaxFlush q = if D = F then q.bufferSize - rdmaQueuePad else q.bufferSize - (F - D) := by
      rw [rqNbytesMaxFlush, h.flush, h.rx, rqNbytes_room hd (by omega)]
    have hroom : T - F + n ≤ rqNbytesMaxFlush q := by
      rw [← h.toFlush]
      exact hroom.resolve_left fun hp => hunp hp.2
    rw [ReservePadded, if_neg hunp, h.flush, h.rx, h.toFlush] at hpad
    rw [h.empty]
    obtain ⟨-, he | hpad⟩ := hpad
    · rw [hmax, if_pos (eq_of_pos_eq h.size_pos hd (by omega) he.symm)] at hroom
      have := eq_of_pos_eq h.size_pos hd (by omega) he.symm
      omega
    · rw [hmax] at hpad
      split at hpad <;> omega
  | paired B b h hB =>
    rw [ReservePadded, if_pos h.paired, h.toFlush, h.size] at hpad
    rw [h.empty hB]
    omega

theorem flush_ok (h : TxSide q T F) (hok : RdmaOk env) :
    ∃ q' r env', (rqFlush q).eval env = some (q', ((r : Nat) : Int), env') := by
  rw [rqFlush]
  cases h with
  | unpaired D h =>
    rw [h.nflush_eq]
    exact ⟨_, _, _, rfl⟩
  | paired B b h hB =>
    rw [h.nflush_eq]
    exact nflushLoop_ok 1 hok

theorem flush_room (h : TxSide q T F) (hroom : T - F ≤ rqNbytesMaxFlush q) (hok : RdmaOk env) :
    ∃ q' env', (rqFlush q).eval env = some (q', ((T - F : Nat) : Int), env') := by
  rw [rqFlush, h.toFlush]
  cases h with
  | unpaired D h =>
    rw [h.nflush_eq, Nat.min_self]
    exact ⟨_, _, rfl⟩
  | paired B b h hB =>
    rw [h.nflush_eq, Nat.min_self]
    exact nflushLoop_room hroom hok

theorem enqueue_flush (h : TxSide q T F) (hpad : ReservePadded q n)
    (hroom : rqNbytesToFlush q + n ≤ rqNbytesMaxFlush q) (hok : RdmaOk env) (src : Option (Nat → Byte)) :
    ∃ q₁ q₂ env', rqTryEnqueue q src n = .done q₁ 0 ∧
      (rqFlush q₁).eval env = some (q₂, ((rqNbytesToFlush q + n : Nat) : Int), env') := by
  obtain ⟨q₁, e, h₁, -, -, hmax, -⟩ := h.enqueue_fits src (h.fits hpad (.inr hroom))
  have hle := h.flushed
  have hT : T + n - F = rqNbytesToFlush q + n := by rw [h.toFlush]; omega
  obtain ⟨q₂, env', e'⟩ := h₁.flush_room (by rw [hmax, hT]; exact hroom) hok
  exact ⟨q₁, q₂, env', e, hT ▸ e'⟩

theorem reserveKept (h : TxSide q T F) (hpad : ReservePadded q n)
    (hroom : n = 0 ∧ q.paired = true ∨ rqNbytesToFlush q + n ≤ rqNbytesMaxFlush q) (hok : RdmaOk env) :
    ReserveKept q n env := by
  intro src
  rcases hroom with ⟨rfl, hp⟩ | hroom
  · obtain ⟨q₁, e, h₁, -⟩ := h.enqueue_fits src (Nat.zero_le _)
    obtain ⟨q₂, r, env', e'⟩ := h₁.flush_ok hok
    exact ⟨q₁, q₂, r, env, env', by rw [e]; rfl, e', by omega⟩
  · obtain ⟨q₁, q₂, env', e, e'⟩ := h.enqueue_flush hpad hroom hok src
    exact ⟨q₁, q₂, _, env, env', by rw [e]; rfl, e', by omega⟩

end TxSide

/-! ## Callers of `rq_try_reserve_flush` -/

/-- `sizeof` of `struct flextcp_pl_krx`, `flextcp_pl_ktx`, `kernel_appin` and `kernel_appout`. -/
def kernelMsgSize : Nat := 64

/-- `sizeof(struct flextcp_pl_atx)`. -/
def atxSize : Nat := 16

/-- What a caller asks of `rq_flush`. -/
inductive FlushCheck where
  /-- Not `rv < sizeof(msg)`: a comparison of unsigned numbers, which -1 passes. -/
  | atLeast
  /-- `rv == sizeof(msg)`. -/
  | exactly
deriving DecidableEq

def FlushCheck.Passes (sz : Nat) (r : Int) : FlushCheck → Prop
  | atLeast => r < 0 ∨ (sz : Int) ≤ r
  | exactly => r = sz

instance (sz : Nat) (r : Int) : ∀ check : FlushCheck, Decidable (check.Passes sz r)
  | .atLeast => inferInstanceAs (Decidable (_ ∨ _))
  | .exactly => inferInstanceAs (Decidable (_ = _))

def enqueueFlush (q : RdmaQueue) (msg : Nat → Byte) (sz : Nat) (check : FlushCheck) : Rdma Int :=
  (rqTryEnqueue q (some msg) sz).bind fun q rv =>
    if rv ≠ 0 then .abort
    else (rqFlush q).bind fun q r => if check.Passes sz r then .done q 0 else .abort

/-- Reserving room for a message, and what is done with and without it. -/
def reserving (q : RdmaQueue) (sz : Nat) (noRoom room : RdmaQueue → Rdma Int) : Rdma Int :=
  (rqTryReserveFlush q sz).bind fun q rv =>
    if rv = 1 then room q else if rv = 0 then noRoom q else .abort

namespace Reserving

/-- The entry that `fast_kernel_packet` writes. Its address is that of the entry at the tail of
the ring; `stack` are the bytes that it does not set. -/
def krxBytes (q : RdmaQueue) (len fnCore flowGroup : BitVec 16) (stack : Nat → Byte) (j : Nat) : Byte :=
  if j < 8 then q.buffer (q.txOffset + j)
  else if j < 10 then (len >>> (8 * (j - 8))).setWidth 8
  else if j < 12 then (fnCore >>> (8 * (j - 10))).setWidth 8
  else if j < 14 then (flowGroup >>> (8 * (j - 12))).setWidth 8
  else if j = 63 then 1
  else stack j

/-- `fast_kernel_packet` for the queue `kctx->rx`; it returns what is added to `kernel_drop`.
The copy of the packet is left out. -/
def fastKernelPacket (q : RdmaQueue) (enabled : Bool) (len fnCore : BitVec 16) (flowGroup : Option (BitVec 16))
    (stack : Nat → Byte) : Rdma Int :=
  if !enabled then .done q 0
  else reserving q kernelMsgSize (.done · 1) fun q =>
    if q.txOffset % kernelMsgSize ≠ 0 then .abort
    else match flowGroup with
      | none => .abort
      | some g => enqueueFlush q (krxBytes q len fnCore g stack) kernelMsgSize .atLeast

def nicifConnectionRetransmit (q : RdmaQueue) (ktx : Nat → Byte) : Rdma Int :=
  reserving q kernelMsgSize (.done · (-1)) (enqueueFlush · ktx kernelMsgSize .atLeast)

def nicifTxSend (q : RdmaQueue) (ktx : Nat → Byte) : Rdma Int :=
  if rqNbytesEmpty q < kernelMsgSize then .done q (-1)
  else if q.txOffset % kernelMsgSize ≠ 0 then .abort
  else reserving q kernelMsgSize (.done · (-1)) (enqueueFlush · ktx kernelMsgSize .atLeast)

def enqueueAndFlushKout (q : RdmaQueue) (kout : Nat → Byte) : Rdma Int :=
  enqueueFlush q kout kernelMsgSize .atLeast

/-- A message to the application, which is dropped without room. -/
def appifNotify (q : RdmaQueue) (kout : Nat → Byte) : Rdma Int :=
  reserving q kernelMsgSize (.done · 0) (enqueueAndFlushKout · kout)

def appifConnOpened (q : RdmaQueue) (kout : Nat → Byte) : Rdma Int := appifNotify q kout

def appifConnClosed (q : RdmaQueue) (kout : Nat → Byte) : Rdma Int := appifNotify q kout

def appifListenNewconn (q : RdmaQueue) (kout : Nat → Byte) : Rdma Int := appifNotify q kout

/-- `appif_accept_conn`, which goes on without room. -/
def appifAcceptConn (q : RdmaQueue) (kout : Nat → Byte) : Rdma Int :=
  reserving q kernelMsgSize (enqueueAndFlushKout · kout) (enqueueAndFlushKout · kout)

/-- The answer of `appif_ctx_poll`. -/
def appifCtxPoll (q : RdmaQueue) (kout : Nat → Byte) : Rdma Int :=
  reserving q kernelMsgSize (fun _ => .abort) (enqueueAndFlushKout · kout)

def enqueueAppout (q : RdmaQueue) (kin : Nat → Byte) : Rdma Int :=
  enqueueFlush q kin kernelMsgSize .exactly

/-- A request to the slow path; the caller may give up once it has reserved room. -/
def flextcpRequest (q : RdmaQueue) (giveUp : Bool) (kin : Nat → Byte) : Rdma Int :=
  reserving q kernelMsgSize (.done · (-1)) fun q => if giveUp then .done q (-1) else enqueueAppout q kin

/-- `flextcp_listen_open`; the only known flag is `FLEXTCP_LISTEN_REUSEPORT`. -/
def flextcpListenOpen (q : RdmaQueue) (flags : BitVec 32) (kin : Nat → Byte) : Rdma Int :=
  flextcpRequest q (flags &&& ~~~1 != 0) kin

/-- `flextcp_listen_accept`; `buffers` is whether `flextcp_create_tcp_buffer` succeeds. -/
def flextcpListenAccept (q : RdmaQueue) (buffers : Bool) (kin : Nat → Byte) : Rdma Int :=
  flextcpRequest q (!buffers) kin

def flextcpConnectionOpen (q : RdmaQueue) (buffers : Bool) (kin : Nat → Byte) : Rdma Int :=
  flextcpRequest q (!buffers) kin

def flextcpConnectionClose (q : RdmaQueue) (kin : Nat → Byte) : Rdma Int := flextcpRequest q false kin

def flextcpConnectionMove (q : RdmaQueue) (kin : Nat → Byte) : Rdma Int := flextcpRequest q false kin

/-- `flextcp_kernel_reqscale`, which does not flush. -/
def flextcpKernelReqscale (q : RdmaQueue) (kin : Nat → Byte) : Rdma Int :=
  reserving q kernelMsgSize (.done · (-1)) fun q =>
    (rqTryEnqueue q (some kin) kernelMsgSize).bind fun q rv => if rv ≠ 0 then .abort else .done q 0

/-- A turn of `conns_bump` at the queue to the fast path. -/
def connsBump (q : RdmaQueue) (atx : Nat → Byte) : Rdma Int :=
  reserving q atxSize (.done · 0) (enqueueFlush · atx atxSize .exactly)

end Reserving

/-- A caller of `rq_try_reserve_flush` with its message. -/
inductive ReserveCaller where
  | fastKernelPacket (enabled : Bool) (len fnCore : BitVec 16) (flowGroup : Option (BitVec 16)) (stack : Nat → Byte)
  | nicifConnectionRetransmit (ktx : Nat → Byte)
  | nicifTxSend (ktx : Nat → Byte)
  | appifConnOpened (kout : Nat → Byte)
  | appifConnClosed (kout : Nat → Byte)
  | appifListenNewconn (kout : Nat → Byte)
  | appifAcceptConn (kout : Nat → Byte)
  | appifCtxPoll (kout : Nat → Byte)
  | flextcpListenOpen (flags : BitVec 32) (kin : Nat → Byte)
  | flextcpListenAccept (buffers : Bool) (kin : Nat → Byte)
  | flextcpConnectionOpen (buffers : Bool) (kin : Nat → Byte)
  | flextcpConnectionClose (kin : Nat → Byte)
  | flextcpConnectionMove (kin : Nat → Byte)
  | flextcpKernelReqscale (kin : Nat → Byte)
  | connsBump (atx : Nat → Byte)

namespace ReserveCaller

def prog (q : RdmaQueue) : ReserveCaller → Rdma Int
  | fastKernelPacket enabled len fnCore flowGroup stack => Reserving.fastKernelPacket q enabled len fnCore flowGroup stack
  | nicifConnectionRetransmit ktx => Reserving.nicifConnectionRetransmit q ktx
  | nicifTxSend ktx => Reserving.nicifTxSend q ktx
  | appifConnOpened kout => Reserving.appifConnOpened q kout
  | appifConnClosed kout => Reserving.appifConnClosed q kout
  | appifListenNewconn kout => Reserving.appifListenNewconn q kout
  | appifAcceptConn kout => Reserving.appifAcceptConn q kout
  | appifCtxPoll kout => Reserving.appifCtxPoll q kout
  | flextcpListenOpen flags kin => Reserving.flextcpListenOpen q flags kin
  | flextcpListenAccept buffers kin => Reserving.flextcpListenAccept q buffers kin
  | flextcpConnectionOpen buffers kin => Reserving.flextcpConnectionOpen q buffers kin
  | flextcpConnectionClose kin => Reserving.flextcpConnectionClose q kin
  | flextcpConnectionMove kin => Reserving.flextcpConnectionMove q kin
  | flextcpKernelReqscale kin => Reserving.flextcpKernelReqscale q kin
  | connsBump atx => Reserving.connsBump q atx

def size : ReserveCaller → Nat
  | connsBump _ => atxSize
  | _ => kernelMsgSize

/-- The callers for which a flush of more than their own message is an error. -/
def Exact : ReserveCaller → Prop
  | flextcpListenOpen .. | flextcpListenAccept .. | flextcpConnectionOpen .. | flextcpConnectionClose _
  | flextcpConnectionMove _ | connsBump _ => True
  | _ => False

/-- The assertions of a caller on something else than the reservation. -/
def OwnChecks (q : RdmaQueue) : ReserveCaller → Prop
  | fastKernelPacket _ _ _ flowGroup _ => q.txOffset % kernelMsgSize = 0 ∧ flowGroup.isSome
  | nicifTxSend _ => q.txOffset % kernelMsgSize = 0
  | _ => True

end ReserveCaller

theorem reserving_eval {q q₁ : RdmaQueue} {sz : Nat} {env env₁ : Nat → Int × Nat} (noRoom room : RdmaQueue → Rdma Int)
    (he : (rqTryReserveFlush q sz).eval env = some (q₁, 1, env₁)) :
    (reserving q sz noRoom room).eval env = (room q₁).eval env₁ := by
  rw [reserving, Rdma.eval_bind he, if_pos rfl]

theorem TxSide.enqueueFlush {q : RdmaQueue} {T F sz : Nat} {env : Nat → Int × Nat} (h : TxSide q T F)
    (hpad : ReservePadded q sz) (hroom : rqNbytesToFlush q + sz ≤ rqNbytesMaxFlush q) (hok : RdmaOk env)
    (msg : Nat → Byte) {check : FlushCheck} (hcheck : check = .exactly → rqNbytesToFlush q = 0) :
    ((enqueueFlush q msg sz check).eval env).isSome := by
  obtain ⟨q₁, q₂, env', e, e'⟩ := h.enqueue_flush hpad hroom hok (some msg)
  have hpass : check.Passes sz ((rqNbytesToFlush q + sz : Nat) : Int) := by
    cases check with
    | atLeast => exact .inr (by omega)
    | exactly =>
      rw [hcheck rfl, Nat.zero_add]
      rfl
  have he : (rqTryEnqueue q (some msg) sz).eval env = some (q₁, 0, env) := by rw [e]; rfl
  rw [TasNic.enqueueFlush, Rdma.eval_bind he, if_neg (by decide), Rdma.eval_bind e', if_pos hpass]
  rfl

theorem Reread.txOffset {q q' : RdmaQueue} (h : Reread q q') : q'.txOffset = q.txOffset := by
  obtain rfl | ⟨-, o, rfl⟩ := h <;> rfl

theorem Reread.paired {q q' : RdmaQueue} (h : Reread q q') : q'.paired = q.paired := by
  obtain rfl | ⟨-, o, rfl⟩ := h <;> rfl

/-- A caller does not abort after a successful reservation. -/
theorem ReserveCaller.runs {q q₁ : RdmaQueue} {T F n : Nat} {env env₁ : Nat → Int × Nat} (c : ReserveCaller)
    (hn : c.size = n) (h : TxSide q T F) (hpad : ReservePadded q n) (hok : RdmaOk env)
    (he : (rqTryReserveFlush q n).eval env = some (q₁, 1, env₁)) (hown : c.OwnChecks q)
    (hexact : c.Exact → rqNbytesToFlush q = 0) : ((c.prog q).eval env).isSome := by
  obtain ⟨hr, hmod⟩ := rqTryReserveFlush_cases he
  have h₁ := h.reread hr
  have hroom := (hpad.reread hr).room (hmod rfl)
  have hsend : ∀ msg check, (check = .exactly → rqNbytesToFlush q = 0) →
      ((enqueueFlush q₁ msg n check).eval env₁).isSome := fun msg check hcheck =>
    h₁.enqueueFlush (hpad.reread hr) hroom (hok.rest he) msg fun e => by rw [h₁.toFlush, ← h.toFlush, hcheck e]
  have hatLeast : ∀ msg, ((enqueueFlush q₁ msg n .atLeast).eval env₁).isSome := fun msg =>
    hsend msg .atLeast fun e => nomatch e
  have hrequest : ∀ giveUp kin, n = kernelMsgSize → c.Exact →
      ((Reserving.flextcpRequest q giveUp kin).eval env).isSome := by
    rintro giveUp kin rfl hex
    rw [Reserving.flextcpRequest, reserving_eval _ _ he]
    cases giveUp with
    | true => rfl
    | false => exact hsend kin .exactly fun _ => hexact hex
  cases c <;> simp only [size] at hn <;> subst hn
  case fastKernelPacket enabled len fnCore flowGroup stack =>
    obtain ⟨halign, hgroup⟩ := hown
    obtain ⟨g, rfl⟩ := Option.isSome_iff_exists.mp hgroup
    cases enabled with
    | false => rfl
    | true =>
      rw [prog, Reserving.fastKernelPacket, if_neg (by decide), reserving_eval _ _ he, hr.txOffset, if_neg (not_not.mpr halign)]
      exact hatLeast _
  case nicifConnectionRetransmit ktx =>
    rw [prog, Reserving.nicifConnectionRetransmit, reserving_eval _ _ he]
    exact hatLeast ktx
  case nicifTxSend ktx =>
    have halign : q.txOffset % kernelMsgSize = 0 := hown
    rw [prog, Reserving.nicifTxSend]
    split
    · rfl
    · rw [if_neg (not_not.mpr halign), reserving_eval _ _ he]
      exact hatLeast ktx
  case appifConnOpened kout | appifConnClosed kout | appifListenNewconn kout =>
    exact (reserving_eval _ _ he).symm ▸ hatLeast kout
  case appifAcceptConn kout | appifCtxPoll kout => exact (reserving_eval _ _ he).symm ▸ hatLeast kout
  case flextcpListenOpen flags kin => exact hrequest _ kin rfl trivial
  case flextcpListenAccept buffers kin | flextcpConnectionOpen buffers kin => exact hrequest _ kin rfl trivial
  case flextcpConnectionClose kin | flextcpConnectionMove kin => exact hrequest _ kin rfl trivial
  case flextcpKernelReqscale kin =>
    obtain ⟨q₂, -, -, e, -⟩ := h₁.enqueue_flush (hpad.reread hr) hroom (hok.rest he) (some kin)
    have e' : (rqTryEnqueue q₁ (some kin) kernelMsgSize).eval env₁ = some (q₂, 0, env₁) := by rw [e]; rfl
    rw [prog, Reserving.flextcpKernelReqscale, reserving_eval _ _ he, Rdma.eval_bind e']
    rfl
  case connsBump atx =>
    rw [prog, Reserving.connsBump, reserving_eval _ _ he]
    exact hsend atx .exactly fun _ => hexact trivial

/-! ## Transmit buffers of connections -/

namespace Libtas.FlextcpContext

/-- `flextcp_connection_tx_alloc` or `flextcp_connection_tx_alloc2` allocates `n` bytes. -/
def Allocates (s : FlextcpContext) (c : Nat) (env : RdmaEnv) (n : Nat) (s' : FlextcpContext) : Prop :=
  ∃ len, (∃ o, s.flextcpConnectionTxAlloc c len env = .ok (s', n, o)) ∨
    ∃ o l, s.flextcpConnectionTxAlloc2 c len env = .ok (s', n, o, l)

theorem toNat_ofInt_le {r : Int} (h : 0 ≤ r) : ((BitVec.ofInt 32 r).toNat : Int) ≤ r := by
  rw [BitVec.toNat_ofInt]
  omega

theorem Allocates.reserved {s s' : FlextcpContext} {c n : Nat} {env : RdmaEnv} (h : s.Allocates c env n s')
    (hok : RdmaOk env) :
    ∃ r env', (rqNbytesCanReserve (s.conns c).tx).eval env = some ((s'.conns c).tx, r, env') ∧ (n : Int) ≤ r := by
  have ha : s.Allocated c env s' n := by
    obtain ⟨len, ⟨o, ha⟩ | ⟨o, l, ha⟩⟩ := h
    · exact flextcpConnectionTxAlloc_ok ha
    · exact flextcpConnectionTxAlloc2_ok ha
  obtain ⟨-, hn⟩ | ⟨q, r, env', v, m, he, rfl, hn, hm⟩ := ha
  · omega
  · have hle := toNat_ofInt_le ((rqNbytesCanReserve_cases (n := 0) he).2.2 (hok 0))
    exact ⟨r, env', by rw [he, setConn_self], by omega⟩

/-- `flextcp_connection_tx_send` of bytes that fit. -/
theorem flextcpConnectionTxSend_fits {s : FlextcpContext} {c m T F : Nat} (h : TxSide (s.conns c).tx T F)
    (hm : m ≤ rqNbytesEmpty (s.conns c).tx) (env : RdmaEnv) : ∃ x, s.flextcpConnectionTxSend c m env = .ok x := by
  obtain ⟨q, e, -⟩ := h.enqueue_fits none hm
  simp only [flextcpConnectionTxSend, e, Rdma.eval]
  split
  · exact ⟨_, rfl⟩
  · exact ⟨_, rfl⟩

end Libtas.FlextcpContext

/-! ## The result -/

/-- In every run of calls whose flushes are right, from a state in which `n` more bytes leave the
padding free, with RDMA operations that do not fail: a reservation of `n` bytes is kept, and
no caller aborts after it. -/
theorem reservation_contract {q₀ q : RdmaQueue} (hnew : NewTxQueue q₀) {ops : List TxOp}
    (hops : Run.All txStep txOk q₀ ops) (hrun : Run.exec txStep q₀ ops = some q) {n : Nat}
    (hpad : ReservePadded q n) {env : Nat → Int × Nat} (hok : RdmaOk env) :
    (∀ q₁ env₁, (rqTryReserveFlush q n).eval env = some (q₁, 1, env₁) →
      ReserveKept q₁ n env₁ ∧
      ∀ c : ReserveCaller, c.size = n → c.OwnChecks q → (c.Exact → rqNbytesToFlush q = 0) → ((c.prog q).eval env).isSome) ∧
    (∀ q₁ r env₁, (rqNbytesCanReserve q).eval env = some (q₁, r, env₁) → (n : Int) ≤ r → ReserveKept q₁ n env₁) ∧
    (∀ (s s' : Libtas.FlextcpContext) c, (s.conns c).tx = q → s.Allocates c env n s' →
      ∀ m ≤ n, ∀ env', ∃ x, s'.flextcpConnectionTxSend c m env' = .ok x) := by
  obtain ⟨T, F, h⟩ := txRun_txSide hnew hops hrun
  refine ⟨fun q₁ env₁ he => ⟨?_, fun c hn hown hexact => ?_⟩, fun q₁ r env₁ he hle => ?_, fun s s' c hq ha m hm env' => ?_⟩
  · obtain ⟨hr, hroom⟩ := rqTryReserveFlush_cases he
    exact (h.reread hr).reserveKept (hpad.reread hr) (.inr ((hpad.reread hr).room (hroom rfl))) (hok.rest he)
  · exact c.runs hn h hpad hok he hown hexact
  · obtain ⟨hr, hroom, -⟩ := rqNbytesCanReserve_cases he
    exact (h.reread hr).reserveKept (hpad.reread hr) ((hr.paired ▸ hroom) hle) (hok.rest he)
  · obtain ⟨r, env₁, he, hle⟩ := ha.reserved hok
    rw [hq] at he
    obtain ⟨hr, hroom, -⟩ := rqNbytesCanReserve_cases he
    have hfit := (h.reread hr).fits (hpad.reread hr) ((hr.paired ▸ hroom) hle)
    exact Libtas.FlextcpContext.flextcpConnectionTxSend_fits (h.reread hr) (Nat.le_trans hm hfit) env'

theorem rdmaOk_receiverAt (o : Nat) : RdmaOk (receiverAt o) := fun _ => rfl

/-- One entry of `size` bytes, enqueued and flushed. -/
def oneEntry (size : Nat) : List TxOp :=
  [.call (.enqueue (some countingBytes) size) (receiverAt 0), .call .flush (receiverAt 0)]

def packetEntry : ReserveCaller := .fastKernelPacket true 60 0 (some 3) countingBytes

/-- A second packet in a queue of four entries. -/
theorem reservation_contract_packet :
    ∃ q, Run.exec txStep (zeroedQueue 4096 256) (oneEntry 64) = some q ∧ ReservePadded q 64 ∧
      ((packetEntry.prog q).eval (receiverAt 0)).isSome := by
  obtain ⟨q, hq, hpad, halign, ⟨q₁, _, env₁⟩, he, rfl⟩ : ∃ q, Run.exec txStep (zeroedQueue 4096 256) (oneEntry 64) = some q ∧
      ReservePadded q 64 ∧ q.txOffset % kernelMsgSize = 0 ∧
      ∃ x, (rqTryReserveFlush q 64).eval (receiverAt 0) = some x ∧ x.2.1 = 1 := by decide +kernel
  have hnew : NewTxQueue (zeroedQueue 4096 256) :=
    ⟨4096, fun _ => 0, rdmaQueueHdr + 256, 0, 0, _, rfl, show rdmaQueuePad < 256 by decide, .inl rfl⟩
  obtain ⟨-, hcallers⟩ := (reservation_contract hnew (by decide +kernel) hq hpad (rdmaOk_receiverAt 0)).1 q₁ env₁ he
  exact ⟨q, hq, hpad, hcallers packetEntry rfl ⟨halign, rfl⟩ fun h => h.elim⟩

/-- A connection whose transmit queue is paired, after four bytes were flushed. -/
def fourFlushed : Option Libtas.FlextcpContext :=
  (Run.exec txStep pairedQueue (oneEntry 4)).map fun q =>
    ⟨fun _ => .init (zeroedQueue 4096 24) q .opened, 1, none, none, []⟩

/-- Reservations that are not kept. In a queue of two entries in shared memory the second entry
is reserved, but it does not leave the padding free, and `fast_kernel_packet` aborts. The same
happens to 20 bytes of a connection's paired queue of 24, of which four were flushed. A
request that `flextcp_kernel_reqscale` has left in its queue is flushed with the next one,
which is then one too many for `enqueue_appout`. -/
theorem reservation_slips :
    (∃ q q₁ env₁, Run.exec txStep (zeroedQueue 4096 128) (oneEntry 64) = some q ∧
      (rqTryReserveFlush q 64).eval (receiverAt 0) = some (q₁, 1, env₁) ∧ ¬ ReserveKept q₁ 64 env₁ ∧
      ((packetEntry.prog q).eval (receiverAt 0)).isNone) ∧
    (∃ s s', fourFlushed = some s ∧ s.Allocates 0 (receiverAt 0) 20 s' ∧
      ∀ x, s'.flextcpConnectionTxSend 0 20 (receiverAt 0) ≠ .ok x) ∧
    (∃ q env q₁ env₁,
      ((ReserveCaller.flextcpKernelReqscale countingBytes).prog (zeroedQueue 4096 1024)).eval (receiverAt 0) = some (q, 0, env) ∧
      (rqTryReserveFlush q 64).eval (receiverAt 0) = some (q₁, 1, env₁) ∧
      (((ReserveCaller.flextcpConnectionMove countingBytes).prog q).eval (receiverAt 0)).isNone) := by
  refine ⟨?_, ?_, ?_⟩
  · obtain ⟨q, hq, hnone, ⟨q₁, _, env₁⟩, he, rfl, hall⟩ : ∃ q, Run.exec txStep (zeroedQueue 4096 128) (oneEntry 64) = some q ∧
        ((packetEntry.prog q).eval (receiverAt 0)).isNone ∧
        ∃ x, (rqTryReserveFlush q 64).eval (receiverAt 0) = some x ∧ x.2.1 = 1 ∧
          ((rqTryEnqueue x.1 none 64).eval x.2.2).all (fun y => y.2.1 != 0) := by decide +kernel
    refine ⟨q, q₁, env₁, hq, he, fun hkept => ?_, hnone⟩
    obtain ⟨q₂, -, -, env₂, -, e, -⟩ := hkept none
    rw [e] at hall
    cases hall
  · obtain ⟨s, hs, ⟨s', _, o, l⟩, ha, rfl, hnone⟩ : ∃ s, fourFlushed = some s ∧
        ∃ r, (s.flextcpConnectionTxAlloc2 0 20 (receiverAt 0)).toOption = some r ∧ r.2.1 = 20 ∧
          (r.1.flextcpConnectionTxSend 0 20 (receiverAt 0)).toOption.isNone := by decide +kernel
    refine ⟨s, s', hs, ⟨20, .inr ⟨o, l, ?_⟩⟩, fun x hx => ?_⟩
    · cases hal : s.flextcpConnectionTxAlloc2 0 20 (receiverAt 0) with
      | error e =>
        rw [hal] at ha
        cases ha
      | ok r =>
        rw [hal] at ha
        cases ha
        rfl
    · rw [hx] at hnone
      cases hnone
  · obtain ⟨⟨q, _, env⟩, hq, rfl, hnone, ⟨q₁, _, env₁⟩, he, rfl⟩ : ∃ x,
        ((ReserveCaller.flextcpKernelReqscale countingBytes).prog (zeroedQueue 4096 1024)).eval (receiverAt 0) = some x ∧
        x.2.1 = 0 ∧ (((ReserveCaller.flextcpConnectionMove countingBytes).prog x.1).eval (receiverAt 0)).isNone ∧
        ∃ y, (rqTryReserveFlush x.1 64).eval (receiverAt 0) = some y ∧ y.2.1 = 1 := by decide +kernel
    exact ⟨q, env, q₁, env₁, hq, he, hnone⟩

end TasNic
