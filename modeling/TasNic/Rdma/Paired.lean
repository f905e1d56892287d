import TasNic.Rdma.Queue
import TasNic.Lib.Run

/-!
# The paired queue

A call of the transmitter is a program that stops at each RDMA operation; the operations are executed
one at a time and in order, and the receiver may dequeue between any two of them (`pairStep`).

A flush writes the bytes from `flush_offset` on into the receiver's buffer and then publishes
`tx.offset`, whatever it has flushed. How much it may write is the distance to the last known
`rx.offset`, padding included, and the second pass of its loop starts again from the full amount.
`pairOk` is what a run has to meet for this not to matter.
-/

namespace TasNic

open Circ RdmaQueue

/-! ## The two sides -/

/-- A call of the transmitter; `src` is the memory at `to_enqueue`, or `none`
for `NULL`. -/
inductive TxCall where
  | enqueue (src : Option (Nat → Byte)) (sz : Nat)
  | nflush (toFlush : Nat)
  | flush
  | reserve (toFlush : Nat)

namespace TxCall

def prog (q : RdmaQueue) : TxCall → Rdma Int
  | .enqueue src sz => rqTryEnqueue q src sz
  | .nflush n => rqNflush q n
  | .flush => rqFlush q
  | .reserve n => rqTryReserveFlush q n

/-- What the call adds to the stream if it returns 0: the bytes at the source,
or those in the ring already if there is no source. -/
def bytes (q : RdmaQueue) : TxCall → List Byte
  | .enqueue (some p) sz => slice p 0 sz
  | .enqueue none sz =>
    let b1 := if q.txOffset + sz > q.bufferSize then q.bufferSize - q.txOffset else sz
    slice q.buffer q.txOffset b1 ++ slice q.buffer 0 (sz - b1)
  | _ => []

def maxFlush (q : RdmaQueue) : TxCall → Nat
  | .enqueue _ sz => if sz > rqNbytesEmpty q then rqNbytesToFlush q else 0
  | .nflush n => min n (rqNbytesToFlush q)
  | .flush => rqNbytesToFlush q
  | .reserve _ => 0

end TxCall

/-- The transmitter: between calls, or in a call (with the bytes it adds to
the stream if it returns 0) at an RDMA operation. -/
inductive TxThread where
  | idle (q : RdmaQueue)
  | running (call : TxCall) (bytes : List Byte) (p : Rdma Int)

/-- The two sides, with the stream of bytes enqueued, the bytes dequeued, and
the cells of the receiver's buffer written by flushes, in order. -/
structure Pair where
  tx : TxThread
  rx : RdmaQueue
  enqueued : List Byte
  dequeued : List Byte
  flushedAt : List Nat

/-- What an RDMA write from the transmitter's queue `q` does to the receiver's. -/
def rdmaWritten (q : RdmaQueue) (src dst : ProtectedAddress) (sz : Nat) (r : RdmaQueue) : RdmaQueue :=
  if dst.addr = r.self then
    match src.field, dst.field with
    | .buffer o, .buffer d => r.setBuffer (copy r.buffer d sz fun j => q.buffer (o + j))
    | .txOffset, .txOffset => r.setTxOffset q.txOffset
    | _, _ => r
  else r

/-- What an RDMA read from the receiver's queue `r` does to the transmitter's. -/
def rdmaRead (q : RdmaQueue) (dst src : ProtectedAddress) (r : RdmaQueue) : RdmaQueue :=
  if src.addr = r.self then
    match dst.field, src.field with
    | .rxOffset, .rxOffset => q.setRxOffset r.rxOffset
    | _, _ => q
  else q

/-- The cells of the buffer an RDMA write goes to. -/
def ProtectedAddress.cells (dst : ProtectedAddress) (sz : Nat) : List Nat :=
  match dst.field with
  | .buffer d => (List.range sz).map (d + ·)
  | _ => []

/-- The transmitter's call goes on until its next RDMA operation or its end;
`none` if it aborts. -/
def Pair.settle (s : Pair) (call : TxCall) (bytes : List Byte) (p : Rdma Int) : Option Pair :=
  match p with
  | .done q rv => some { s with tx := .idle q, enqueued := if rv = 0 then s.enqueued ++ bytes else s.enqueued }
  | .abort => none
  | p => some { s with tx := .running call bytes p }

/-- What can happen: the transmitter makes a call, its next RDMA operation is
executed, the receiver dequeues. -/
inductive PairAct where
  | call (c : TxCall)
  | rdma
  | dequeue (sz : Nat)

/-- One step. A call in the middle of another, and an RDMA operation when none
is posted, are no steps. -/
def pairStep (s : Pair) : PairAct → Option Pair
  | .call c => match s.tx with
    | .idle q => s.settle c (c.bytes q) (c.prog q)
    | .running .. => some s
  | .rdma => match s.tx with
    | .running c bytes (.write q src dst sz k) =>
      { s with rx := rdmaWritten q src dst sz s.rx, flushedAt := s.flushedAt ++ dst.cells sz }.settle c bytes (k 0)
    | .running c bytes (.read q dst src _ k) => s.settle c bytes (k 0 (rdmaRead q dst src s.rx))
    | _ => some s
  | .dequeue sz => (rqTryDequeue s.rx true sz).map fun d =>
      ⟨s.tx, d.queue, s.enqueued, if d.rv = 0 then s.dequeued ++ d.out else s.dequeued, s.flushedAt⟩

def pairInit (tx rx : RdmaQueue) : Pair :=
  let t := (rqPairReceiver tx rx.endpoints.rx 0).1
  ⟨.idle t, rqPaired rx t, [], [], []⟩

/-- The receiver sees the next bytes of the stream, and no others. -/
def Pair.Visible (s : Pair) : Prop :=
  rqBytes s.rx (rqNbytesEnqueued s.rx) =
    (s.enqueued.drop s.dequeued.length).take (rqNbytesEnqueued s.rx)

/-- The bytes flushed and not dequeued leave the padding free, and the write
that is posted goes to none of their cells. -/
def Pair.NoOverwrite (s : Pair) : Prop :=
  s.flushedAt.length ≤ s.dequeued.length + (s.rx.bufferSize - rdmaQueuePad) ∧
    match s.tx with
    | .running _ _ (.write _ _ dst sz _) => ∀ i ∈ dst.cells sz, i ∉ s.flushedAt.drop s.dequeued.length
    | _ => True

/-! ## What a run has to meet -/

/-- By the offset of the receiver that it knows, the transmitter sees an empty
ring, or a flush of `m` bytes leaves the padding free. -/
def RdmaQueue.LeavesPad (q : RdmaQueue) (m : Nat) : Prop :=
  q.flushOffset = q.rxOffset ∨ m + rdmaQueuePad ≤ rqNbytesMaxFlush q
deriving Decidable

/-- A flush of `m` bytes that is to be `whole` leaves at most `cap` in the receiver
and nothing in the transmitter; any other leaves the padding free. -/
def FlushOk (whole : Bool) (cap : Nat) (s : Pair) (q : RdmaQueue) (m : Nat) : Prop :=
  if whole = true then s.flushedAt.length + m ≤ s.dequeued.length + cap ∧ rqNbytesToFlush q ≤ m else q.LeavesPad m
deriving Decidable

def TxCall.CopyOk (q : RdmaQueue) : TxCall → Prop
  | .enqueue (some p) sz => EnqueueOk q p sz
  | _ => True

/-- A call that flushes has nothing to flush, sees no room, or sees enough
room and is `FlushOk`; one that saw no room is `FlushOk` with the offset it reads.
For whole flushes the copies of enqueues are right, too. -/
def pairOk (whole : Bool) (cap : Nat) (s : Pair) : PairAct → Prop
  | .call c => match s.tx with
    | .idle q => (whole = true → c.CopyOk q) ∧ (c.maxFlush q = 0 ∨ rqNbytesMaxFlush q = 0 ∨
        c.maxFlush q ≤ rqNbytesMaxFlush q ∧ FlushOk whole cap s q (c.maxFlush q))
    | .running .. => True
  | .rdma => match s.tx with
    | .running c _ (.read q ..) => c.maxFlush q = 0 ∨ FlushOk whole cap s (q.setRxOffset s.rx.rxOffset) (c.maxFlush q)
    | _ => True
  | .dequeue _ => True

instance (q : RdmaQueue) : ∀ c, Decidable (TxCall.CopyOk q c)
  | .enqueue (some p) sz => inferInstanceAs (Decidable (EnqueueOk q p sz))
  | .enqueue none _ | .nflush _ | .flush | .reserve _ => isTrue trivial

instance (whole : Bool) (cap : Nat) (s : Pair) : ∀ act, Decidable (pairOk whole cap s act)
  | .call c => match h : s.tx with
    | .idle q => decidable_of_iff ((whole = true → c.CopyOk q) ∧ (c.maxFlush q = 0 ∨ rqNbytesMaxFlush q = 0 ∨
        c.maxFlush q ≤ rqNbytesMaxFlush q ∧ FlushOk whole cap s q (c.maxFlush q))) (by simp only [pairOk, h])
    | .running .. => isTrue (by simp only [pairOk, h])
  | .rdma => match h : s.tx with
    | .idle _ => isTrue (by simp only [pairOk, h])
    | .running c _ (.read q ..) =>
      decidable_of_iff (c.maxFlush q = 0 ∨ FlushOk whole cap s (q.setRxOffset s.rx.rxOffset) (c.maxFlush q))
        (by simp only [pairOk, h])
    | .running _ _ (.write ..) | .running _ _ (.done ..) | .running _ _ .abort =>
      isTrue (by simp only [pairOk, h])
  | .dequeue _ => isTrue trivial

/-! ## The passes of a flush -/

/-- The second write of a flush of `n` bytes, `b` of which are written. -/
def nflushSecond (q : RdmaQueue) (n b : Nat) : Rdma Int :=
  .write q ⟨q.self, .buffer 0, q.endpoints.tx.lkey⟩
    ⟨q.endpoints.rx.addr, .buffer 0, q.endpoints.rx.rkey⟩ (n - b) fun rc =>
      if rc < 0 then .done q (-1) else nflushPublish (q.setFlushOffset (n - b)) n

/-- Looking again for room for `m` bytes. -/
def nflushReread (q : RdmaQueue) (m : Nat) : Rdma Int :=
  readRxOffset q fun rc q => if rc ≠ 0 then .done q (-1) else nflushLoop 0 q m 0

/-- Looking again for room to reserve `n` bytes. -/
def reserveReread (q : RdmaQueue) (n : Nat) : Rdma Int :=
  readRxOffset q fun rc q => if rc ≠ 0 then .done q (-1) else rqTryReserveFlushLoop 0 q n

theorem nflushLoop_nothing (left : Nat) (q : RdmaQueue) : nflushLoop left q 0 0 = .done q 0 := by
  unfold nflushLoop
  simp [nflushWrite, nflushPublish]

variable {q : RdmaQueue}

theorem nflushLoop_fits {m : Nat} (left : Nat) (h : m ≤ rqNbytesMaxFlush q) :
    nflushLoop left q m 0 = nflushWrite q m (nflushPublish · m) := by
  unfold nflushLoop
  simp [Nat.not_lt.mpr h]

theorem nflushLoop_none {m : Nat} (h : rqNbytesMaxFlush q = 0) (hm : 0 < m) :
    nflushLoop 1 q m 0 = nflushReread q m := by
  have hne : ¬ 0 = m := by omega
  rw [nflushLoop.eq_def]
  simp [h, hm, nflushWrite, hne, nflushReread]

theorem nflushLoop_last (q : RdmaQueue) (m : Nat) :
    nflushLoop 0 q m 0 =
      nflushWrite q (min m (rqNbytesMaxFlush q)) (nflushPublish · (min m (rqNbytesMaxFlush q))) := by
  have e : (if m > rqNbytesMaxFlush q then rqNbytesMaxFlush q else m) = min m (rqNbytesMaxFlush q) := by
    split <;> omega
  unfold nflushLoop
  simp [e]

/-! ## The invariant -/

/-- The transmitter's queue after `T` bytes were enqueued and `F` flushed; its
copy of the receiver's offset may be anything. -/
structure TxOf (B b : Nat) (q : RdmaQueue) (T F : Nat) : Prop where
  paired : q.paired = true
  isTx : q.isTx = true
  txAddr : q.endpoints.tx.addr = q.self
  rxAddr : q.endpoints.rx.addr = b
  size : q.bufferSize = B
  tx : q.txOffset = pos B T
  flush : q.flushOffset = pos B F
  flushed : F ≤ T
  room : T + rdmaQueuePad ≤ F + B

/-- The receiver's queue after `D` bytes were dequeued and `P` published. -/
structure RxOf (B b : Nat) (r : RdmaQueue) (D P : Nat) : Prop where
  paired : r.paired = true
  self : r.self = b
  rxAddr : r.endpoints.rx.addr = b
  size : r.bufferSize = B
  rx : r.rxOffset = pos B D
  tx : r.txOffset = pos B P
  published : D ≤ P

namespace TxOf

variable {B b : Nat} {q : RdmaQueue} {T F : Nat}

variable (h : TxOf B b q T F)

include h

theorem pad_le : rdmaQueuePad ≤ B := by
  have h₁ := h.room; have h₂ := h.flushed
  omega

theorem size_pos : 0 < B := by
  have := h.pad_le
  simp only [rdmaQueuePad] at this
  omega

theorem toFlush : rqNbytesToFlush q = T - F := by
  have h₁ := h.room
  have hB := h.size
  subst hB
  simp only [rdmaQueuePad] at h₁
  rw [rqNbytesToFlush, h.flush, h.tx, rqNbytes_pos h.flushed (by omega)]

theorem empty (hB : B < 2 ^ 31) : rqNbytesEmpty q = B - rdmaQueuePad - (T - F) := by
  have h₁ := h.room; have h₂ := h.flushed
  rw [← h.size]
  refine rqNbytesEmpty_of_bytes ?_ (by rw [h.size]; omega) (by rw [h.size]; exact hB)
  rw [h.paired, if_pos rfl, h.isTx, if_pos rfl, h.toFlush]

theorem setRxOffset (o : Nat) : TxOf B b (q.setRxOffset o) T F :=
  { h with }

theorem setFlushOffset {o n : Nat} (ho : o = pos B (F + n)) (hn : F + n ≤ T) :
    TxOf B b (q.setFlushOffset o) T (F + n) :=
  { h with flush := ho, flushed := hn, room := by have := h.room; omega }

theorem nflush_eq (n : Nat) : rqNflush q n = nflushLoop 1 q (min n (T - F)) 0 := by
  have hm : (if T - F > n then n else T - F) = min n (T - F) := by split <;> omega
  simp [rqNflush, h.txAddr, h.toFlush, h.paired, hm]

theorem flush_eq : rqFlush q = nflushLoop 1 q (T - F) 0 := by
  rw [rqFlush, h.toFlush, h.nflush_eq, Nat.min_self]

end TxOf

/-- Where a call of the transmitter can be. `F` bytes are flushed, and
`flush_offset` is that of `F₀`: between the two writes of a flush these
differ. The room for a flush is counted from `R` bytes dequeued. -/
inductive Point (B cap : Nat) (whole : Bool) (T R : Nat) (c : TxCall) (q : RdmaQueue) :
    Nat → Nat → Rdma Int → Prop
  | finished {F : Nat} {rv : Int} : Point B cap whole T R c q F F (.done q rv)
  | first {F n : Nat} (hn : 0 < n) (hT : F + n ≤ T) (hcap : F + n ≤ R + cap) (hall : whole = true → F + n = T) :
    Point B cap whole T R c q F F (nflushWrite q n (nflushPublish · n))
  | second {F n b : Nat} (hlap : pos B F + b = B) (hb : b < n) (hT : F + n ≤ T) (hcap : F + n ≤ R + cap)
    (hall : whole = true → F + n = T) : Point B cap whole T R c q F (F + b) (nflushSecond q n b)
  | reread {F : Nat} (hm : 0 < c.maxFlush q) : Point B cap whole T R c q F F (nflushReread q (c.maxFlush q))
  | publish {F n : Nat} (hn : 0 < n) (hall : whole = true → F = T) :
    Point B cap whole T R c q F F (nflushPublish q n)
  | reserve {F : Nat} (n : Nat) : Point B cap whole T R c q F F (reserveReread q n)

/-- The state apart from where the transmitter's call is: its queue is `q`, the
receiver was told of `P` bytes, and had dequeued `R` when the transmitter last
looked. For whole flushes only flushed bytes are published, both buffers hold
the stream, and `R` is any earlier count. -/
structure PairBody (B b cap : Nat) (whole : Bool) (s : Pair) (q : RdmaQueue) (F₀ P R : Nat) : Prop where
  tx : TxOf B b q s.enqueued.length F₀
  rx : RxOf B b s.rx s.dequeued.length P
  published : P ≤ s.enqueued.length
  started : F₀ ≤ s.flushedAt.length
  flushed : s.flushedAt.length ≤ s.enqueued.length
  seen : R ≤ s.dequeued.length
  cached : whole = false → q.rxOffset = pos B R
  held : s.flushedAt.length ≤ R + cap
  cells : s.flushedAt = (List.range s.flushedAt.length).map (· % B)
  mem : whole = true → P ≤ F₀ ∧ Agree B q.buffer F₀ s.enqueued.length (s.enqueued.getD · 0) ∧
    Agree B s.rx.buffer s.dequeued.length s.flushedAt.length (s.enqueued.getD · 0)

def PairInv (B b cap : Nat) (whole : Bool) (s : Pair) : Prop :=
  ∃ q F₀ P R, PairBody B b cap whole s q F₀ P R ∧ match s.tx with
    | .idle q' => q' = q ∧ F₀ = s.flushedAt.length
    | .running c bytes p => ∃ p' f, p = p'.map f ∧ (bytes = [] ∨ ∀ r, f r ≠ 0) ∧
        Point B cap whole s.enqueued.length R c q F₀ s.flushedAt.length p'

/-- The next `n` bytes flushed are in the receiver's buffer. -/
def Pair.arrive (s : Pair) (B n : Nat) (src : Nat → Byte) : Pair :=
  { s with
    rx := s.rx.setBuffer (put B s.rx.buffer s.flushedAt.length n src)
    flushedAt := s.flushedAt ++ (List.range n).map fun j => (s.flushedAt.length + j) % B }

section Step

variable {B b cap : Nat} {whole : Bool} {s : Pair} {q : RdmaQueue} {F₀ P R : Nat}

variable {c : TxCall} {p : Rdma Int} {bytes : List Byte} {f : Int → Int} {n : Nat}

theorem PairBody.withTx (h : PairBody B b cap whole s q F₀ P R) (t : TxThread) :
    PairBody B b cap whole { s with tx := t } q F₀ P R :=
  { h with }

theorem length_arrive (s : Pair) (B n : Nat) (src : Nat → Byte) :
    (s.arrive B n src).flushedAt.length = s.flushedAt.length + n := by
  simp [Pair.arrive]

theorem PairBody.write (h : PairBody B b cap whole s q F₀ P R) (n : Nat) (src : Nat → Byte) (hcB : cap ≤ B)
    (hT : s.flushedAt.length + n ≤ s.enqueued.length) (hcap : s.flushedAt.length + n ≤ R + cap)
    (hsrc : whole = true → ∀ j < n, src j = s.enqueued.getD (s.flushedAt.length + j) 0) :
    PairBody B b cap whole (s.arrive B n src) q F₀ P R := by
  have hlen := length_arrive s B n src
  refine ⟨h.tx, ⟨h.rx.paired, h.rx.self, h.rx.rxAddr, h.rx.size, h.rx.rx, h.rx.tx, h.rx.published⟩, h.published,
    ?_, ?_, h.seen, h.cached, ?_, ?_, fun hw => ?_⟩
  · have := h.started; omega
  · rw [hlen]; exact hT
  · rw [hlen]; exact hcap
  · rw [hlen, List.range_add, List.map_append, ← h.cells, List.map_map]
    rfl
  · obtain ⟨h₁, h₂, h₃⟩ := h.mem hw
    have h₄ := h.seen; have h₅ := h.rx.published; have h₆ := h.started
    rw [hlen]
    exact ⟨h₁, h₂, h₃.put_next (by omega) (by omega) (hsrc hw)⟩

theorem PairBody.advance (h : PairBody B b cap whole s q F₀ P R) {o : Nat} (ho : o = pos B s.flushedAt.length) :
    PairBody B b cap whole s (q.setFlushOffset o) s.flushedAt.length P R := by
  have h₁ := h.started
  have ht := h.tx.setFlushOffset (n := s.flushedAt.length - F₀) (o := o)
    (by rw [ho]; congr 1; omega) (by have := h.flushed; omega)
  rw [show F₀ + (s.flushedAt.length - F₀) = s.flushedAt.length by omega] at ht
  refine { h with tx := ht, started := Nat.le_refl _, mem := fun hw => ?_ }
  obtain ⟨h₂, h₃, h₄⟩ := h.mem hw
  exact ⟨by omega, h₃.mono h₁ (Nat.le_refl _), h₄⟩

theorem PairBody.publish (h : PairBody B b cap whole s q F₀ P R) (hall : whole = true → F₀ = s.enqueued.length) :
    PairBody B b cap whole { s with rx := s.rx.setTxOffset q.txOffset } q F₀ s.enqueued.length R := by
  have h₁ := h.rx.published; have h₂ := h.published
  refine { h with
    rx := { h.rx with tx := h.tx.tx, published := Nat.le_trans h₁ h₂ }, published := Nat.le_refl _, mem := fun hw => ?_ }
  obtain ⟨-, h₃, h₄⟩ := h.mem hw
  exact ⟨by have := hall hw; omega, h₃, h₄⟩

theorem settle_posted (hd : ∀ q rv, p ≠ .done q rv) (ha : p ≠ .abort) :
    s.settle c bytes (p.map f) = some { s with tx := .running c bytes (p.map f) } := by
  cases p with
  | done q rv => exact absurd rfl (hd q rv)
  | abort => exact absurd rfl ha
  | write => rfl
  | read => rfl

theorem settle_inv (h : PairBody B b cap whole s q F₀ P R) (hf : bytes = [] ∨ ∀ r, f r ≠ 0)
    (hp : Point B cap whole s.enqueued.length R c q F₀ s.flushedAt.length p) :
    ∃ s', s.settle c bytes (p.map f) = some s' ∧ PairInv B b cap whole s' := by
  have running (hd : ∀ q rv, p ≠ .done q rv) (ha : p ≠ .abort) :
      ∃ s', s.settle c bytes (p.map f) = some s' ∧ PairInv B b cap whole s' :=
    ⟨_, settle_posted hd ha, q, F₀, P, R, h.withTx _, p, f, rfl, hf, hp⟩
  generalize hF : s.flushedAt.length = F at hp
  cases hp with
  | finished =>
    rename_i rv
    have e : (if f rv = 0 then s.enqueued ++ bytes else s.enqueued) = s.enqueued := by
      rcases hf with rfl | hf
      · simp
      · rw [if_neg (hf rv)]
    refine ⟨{ s with tx := .idle q }, ?_, q, _, P, R, h.withTx _, rfl, hF.symm⟩
    simp [Rdma.map, Pair.settle, e]
  | first hn =>
    exact running (by simp [nflushWrite, hn]) (by simp [nflushWrite, hn])
  | second => exact running (by simp [nflushSecond]) (by simp [nflushSecond])
  | reread => exact running (by simp [nflushReread, readRxOffset]) (by simp [nflushReread, readRxOffset])
  | publish hn => exact running (by simp [nflushPublish, hn]) (by simp [nflushPublish, hn])
  | reserve => exact running (by simp [reserveReread, readRxOffset]) (by simp [reserveReread, readRxOffset])

section

variable (h : PairBody B b cap whole s q s.flushedAt.length P R)

include h

theorem step_first (hcB : cap ≤ B) (hf : bytes = [] ∨ ∀ r, f r ≠ 0)
    (htx : s.tx = .running c bytes ((nflushWrite q n (nflushPublish · n)).map f)) (hn : 0 < n)
    (hT : s.flushedAt.length + n ≤ s.enqueued.length) (hcap : s.flushedAt.length + n ≤ R + cap)
    (hall : whole = true → s.flushedAt.length + n = s.enqueued.length) :
    ∃ s', pairStep s .rdma = some s' ∧ PairInv B b cap whole s' := by
  have hB := h.tx.size_pos
  have hle := pos_le hB s.flushedAt.length
  have hroom := h.tx.room
  have hflush := h.tx.flush
  generalize ho : pos B s.flushedAt.length = o at hle hflush
  generalize hb : (if o + n > B then B - o else n) = b1
  have hb1 : o + b1 ≤ B ∧ b1 ≤ n := by rw [← hb]; split <;> omega
  have hcell : ∀ j < b1, (s.flushedAt.length + j) % B = o + j := fun j hj => by
    rw [← ho, add_mod_of_pos hB (by omega)]
  have hw := h.write b1 (fun j => q.buffer (o + j)) hcB (by omega) (by omega) fun hw j hj => by
    rw [← hcell j hj]
    exact (h.mem hw).2.1 _ (by omega) (by omega)
  have hadv := adv_pos (n := s.flushedAt.length) (k := n) hB (by omega)
  have hlen := length_arrive s B b1 fun j => q.buffer (o + j)
  rw [adv, ho] at hadv
  have key : pairStep s .rdma =
      (s.arrive B b1 fun j => q.buffer (o + j)).settle c bytes
        ((if n - b1 > 0 then nflushSecond q n b1
          else nflushPublish (q.setFlushOffset (o + b1)) n).map f) := by
    have hfit := ho ▸ hb1.1
    rw [Pair.arrive, ← copy_eq_put _ _ hB hfit, ← range_map_pos hB hfit, ho]
    simp only [pairStep, htx, nflushWrite, gt_iff_lt, hn, if_true, Rdma.map, rdmaWritten, h.tx.rxAddr, h.rx.self,
      hflush, h.tx.size, ← hb, ProtectedAddress.cells, nflushSecond]
    rfl
  rw [key]
  by_cases h2 : n - b1 > 0
  · rw [if_pos h2]
    refine settle_inv hw hf ?_
    rw [hlen]
    refine Point.second ?_ (by omega) hT hcap hall
    split at hb <;> omega
  · rw [if_neg h2]
    refine settle_inv (hw.advance (o := o + b1) ?_) hf ?_
    · rw [hlen, show b1 = n by omega, ← hadv, if_neg (by omega)]
    · refine Point.publish hn fun hw => ?_
      have := hall hw
      show _ = s.enqueued.length
      omega

omit h in
theorem step_second {b1 : Nat} (h : PairBody B b cap whole s q F₀ P R) (hcB : cap ≤ B) (hf : bytes = [] ∨ ∀ r, f r ≠ 0)
    (htx : s.tx = .running c bytes ((nflushSecond q n b1).map f)) (hF : s.flushedAt.length = F₀ + b1)
    (hlap : pos B F₀ + b1 = B) (hb : b1 < n) (hT : F₀ + n ≤ s.enqueued.length) (hcap : F₀ + n ≤ R + cap)
    (hall : whole = true → F₀ + n = s.enqueued.length) :
    ∃ s', pairStep s .rdma = some s' ∧ PairInv B b cap whole s' := by
  have hB := h.tx.size_pos
  have hroom := h.tx.room
  have hstart := add_mod_of_pos_eq hB hlap
  have hcell : ∀ j < n - b1, (s.flushedAt.length + j) % B = 0 + j := fun j hj => by
    rw [hF, Nat.add_mod, hstart, Nat.zero_add, Nat.mod_mod, Nat.mod_eq_of_lt (by omega), Nat.zero_add]
  have hw := h.write (n - b1) (fun j => q.buffer (0 + j)) hcB (by omega) (by omega)
    fun hw j hj => by
      rw [← hcell j hj]
      exact (h.mem hw).2.1 _ (by omega) (by omega)
  have hlen := length_arrive s B (n - b1) fun j => q.buffer (0 + j)
  have hadv := adv_pos (n := F₀) (k := n) hB (by omega)
  rw [adv, if_pos (by omega)] at hadv
  have key : pairStep s .rdma =
      (s.arrive B (n - b1) fun j => q.buffer (0 + j)).settle c bytes
        ((nflushPublish (q.setFlushOffset (n - b1)) n).map f) := by
    rw [Pair.arrive, hF, ← copy_start_eq_put _ _ hstart (by omega), ← range_map_start hstart (by omega)]
    simp only [pairStep, htx, nflushSecond, Rdma.map, rdmaWritten, h.tx.rxAddr, h.rx.self, if_true,
      ProtectedAddress.cells]
    rfl
  rw [key]
  refine settle_inv (hw.advance (o := n - b1) ?_) hf (Point.publish (by omega) fun hw => ?_)
  · rw [hlen, hF, show F₀ + b1 + (n - b1) = F₀ + n by omega, ← hadv]
    omega
  · have := hall hw
    show _ = s.enqueued.length
    omega

theorem step_publish (hf : bytes = [] ∨ ∀ r, f r ≠ 0)
    (htx : s.tx = .running c bytes ((nflushPublish q n).map f)) (hn : 0 < n)
    (hall : whole = true → s.flushedAt.length = s.enqueued.length) :
    ∃ s', pairStep s .rdma = some s' ∧ PairInv B b cap whole s' := by
  have key : pairStep s .rdma =
      Pair.settle { s with rx := s.rx.setTxOffset q.txOffset } c bytes ((Rdma.done q (n : Int)).map f) := by
    simp [pairStep, htx, nflushPublish, hn, Rdma.map, rdmaWritten, h.tx.rxAddr, h.rx.self, ProtectedAddress.cells]
  rw [key]
  exact settle_inv (h.publish hall) hf .finished

omit h in
/-- The transmitter looks how many bytes are dequeued. -/
theorem PairBody.setRxOffset (h : PairBody B b cap whole s q F₀ P R) :
    PairBody B b cap whole s (q.setRxOffset s.rx.rxOffset) F₀ P s.dequeued.length :=
  { h with
    tx := h.tx.setRxOffset _, seen := Nat.le_refl _, cached := fun _ => h.rx.rx
    held := by have h₁ := h.seen; have h₂ := h.held; omega }

/-- With the padding free, the flush ends less than a lap after the bytes that
were dequeued when the transmitter last looked. -/
theorem PairBody.leavesPad (hw : whole = false) (hcap : cap + rdmaQueuePad = B) {m : Nat}
    (hm : s.flushedAt.length + m ≤ s.enqueued.length) (hok : q.LeavesPad m) : s.flushedAt.length + m ≤ R + cap := by
  have h₁ := h.seen; have h₂ := h.held; have h₃ := h.tx.room; have h₄ := h.rx.published; have h₅ := h.published
  have hB := h.tx.size_pos
  have hpad : 0 < rdmaQueuePad := by decide
  rcases Nat.lt_or_ge s.flushedAt.length R with hlt | hge
  · -- bytes were dequeued that are not flushed
    omega
  · rcases hok with e | e
    · rw [h.tx.flush, h.cached hw] at e
      have := eq_of_pos_eq hB hge (by omega) e.symm
      omega
    · have hroom := rqNbytes_room (q := q) hge (by rw [h.tx.size]; omega)
      rw [h.tx.size, ← h.tx.flush, ← h.cached hw] at hroom
      rw [rqNbytesMaxFlush, hroom] at e
      split at e <;> omega

/-- The bytes of a flush that the condition allows have room. -/
theorem PairBody.flushOk (hcap : whole = false → cap + rdmaQueuePad = B) {m : Nat}
    (hm : s.flushedAt.length + m ≤ s.enqueued.length) (hok : FlushOk whole cap s q m) :
    ∃ R', PairBody B b cap whole s q s.flushedAt.length P R' ∧ s.flushedAt.length + m ≤ R' + cap ∧
      (whole = true → s.flushedAt.length + m = s.enqueued.length) := by
  unfold FlushOk at hok
  split at hok
  · rename_i hw
    obtain ⟨hroom, hall⟩ := hok
    rw [h.tx.toFlush] at hall
    refine ⟨s.dequeued.length, { h with seen := Nat.le_refl _, cached := fun h' => ?_, held := by omega }, hroom,
      fun _ => by omega⟩
    exact absurd (hw.symm.trans h') (by decide)
  · rename_i hw
    have hf := Bool.eq_false_iff.mpr hw
    exact ⟨R, h, h.leavesPad hf (hcap hf) hm hok, fun h' => absurd h' hw⟩

omit h in
theorem TxCall.maxFlush_le (c : TxCall) (q : RdmaQueue) : c.maxFlush q ≤ rqNbytesToFlush q := by
  cases c with
  | enqueue src sz => simp only [maxFlush]; split <;> omega
  | nflush n => exact Nat.min_le_right _ _
  | flush => exact Nat.le_refl _
  | reserve n => exact Nat.zero_le _

theorem step_reread (hcB : whole = true → cap < B) (hpad : whole = false → cap + rdmaQueuePad = B)
    (hf : bytes = [] ∨ ∀ r, f r ≠ 0) (htx : s.tx = .running c bytes ((nflushReread q (c.maxFlush q)).map f))
    (hok : FlushOk whole cap s (q.setRxOffset s.rx.rxOffset) (c.maxFlush q)) :
    ∃ s', pairStep s .rdma = some s' ∧ PairInv B b cap whole s' := by
  have key : pairStep s .rdma =
      s.settle c bytes ((nflushLoop 0 (q.setRxOffset s.rx.rxOffset) (c.maxFlush q) 0).map f) := by
    simp only [pairStep, htx, nflushReread, readRxOffset, Rdma.map, rdmaRead, h.tx.rxAddr, h.rx.self, if_true]
    rfl
  have hle := c.maxFlush_le q
  rw [h.tx.toFlush] at hle
  have hflushed := h.flushed
  obtain ⟨R', h', hroom, hall⟩ := h.setRxOffset.flushOk hpad (by omega) hok
  rw [key, nflushLoop_last]
  refine settle_inv h' hf ?_
  rcases Nat.eq_zero_or_pos (min (c.maxFlush q) (rqNbytesMaxFlush (q.setRxOffset s.rx.rxOffset))) with h0 | h0
  · rw [h0]
    exact .finished
  · refine .first h0 (by omega) (by omega) fun hw => ?_
    have h₁ := h.rx.published; have h₂ := (h.mem hw).1; have h₄ := hcB hw
    have h₅ := h'.seen; have h₆ := hall hw; have h₈ := h.tx.room
    have hroom : rqNbytesMaxFlush (q.setRxOffset s.rx.rxOffset) =
        if s.dequeued.length = s.flushedAt.length then B - rdmaQueuePad
        else B - (s.flushedAt.length - s.dequeued.length) := by
      have := rqNbytes_room (q := q) (n := s.dequeued.length) (m := s.flushedAt.length) (by omega)
        (by rw [h.tx.size]; omega)
      rw [h.tx.size, ← h.tx.flush, ← h.rx.rx] at this
      exact this
    split at hroom <;> omega

theorem step_reserve (hf : bytes = [] ∨ ∀ r, f r ≠ 0)
    (htx : s.tx = .running c bytes ((reserveReread q n).map f)) :
    ∃ s', pairStep s .rdma = some s' ∧ PairInv B b cap whole s' := by
  have key : pairStep s .rdma =
      s.settle c bytes ((rqTryReserveFlushLoop 0 (q.setRxOffset s.rx.rxOffset) n).map f) := by
    simp only [pairStep, htx, reserveReread, readRxOffset, Rdma.map, rdmaRead, h.tx.rxAddr, h.rx.self, if_true]
    rfl
  rw [key]
  refine settle_inv h.setRxOffset hf ?_
  simp only [rqTryReserveFlushLoop, ite_self]
  split <;> exact .finished

theorem loop_point (hpad : whole = false → cap + rdmaQueuePad = B) (hok : c.maxFlush q = 0 ∨ rqNbytesMaxFlush q = 0 ∨
      c.maxFlush q ≤ rqNbytesMaxFlush q ∧ FlushOk whole cap s q (c.maxFlush q)) :
    ∃ R', PairBody B b cap whole s q s.flushedAt.length P R' ∧
      Point B cap whole s.enqueued.length R' c q s.flushedAt.length s.flushedAt.length
        (nflushLoop 1 q (c.maxFlush q) 0) := by
  rcases Nat.eq_zero_or_pos (c.maxFlush q) with h0 | h0
  · rw [h0, nflushLoop_nothing]
    exact ⟨R, h, .finished⟩
  have hle := c.maxFlush_le q
  rw [h.tx.toFlush] at hle
  rcases hok with hok | hok | ⟨hfit, hok⟩
  · omega
  · rw [nflushLoop_none hok h0]
    exact ⟨R, h, .reread h0⟩
  · have hflushed := h.flushed
    obtain ⟨R', h', hroom, hall⟩ := h.flushOk hpad (by omega) hok
    rw [nflushLoop_fits 1 hfit]
    exact ⟨R', h', .first h0 (by omega) hroom hall⟩

omit h in
theorem length_bytes (c : TxCall) (q : RdmaQueue) :
    (c.bytes q).length = match c with
      | .enqueue _ sz => sz
      | _ => 0 := by
  cases c with
  | enqueue src sz =>
    cases src with
    | some p => simp [TxCall.bytes]
    | none =>
      simp only [TxCall.bytes, List.length_append, length_slice]
      split <;> omega
  | _ => rfl

omit h in
theorem enqueue_agree (h : TxOf B b q s.enqueued.length F₀) (hB : B < 2 ^ 31) {src : Option (Nat → Byte)} {sz : Nat}
    (hring : Agree B q.buffer F₀ s.enqueued.length (s.enqueued.getD · 0)) (hsz : sz ≤ rqNbytesEmpty q)
    (hok : (TxCall.enqueue src sz).CopyOk q) :
    Agree B (rqEnqueuedBuffer q src s.enqueued.length sz) F₀ (s.enqueued.length + sz)
      ((s.enqueued ++ (TxCall.enqueue src sz).bytes q).getD · 0) := by
  have h₁ := h.room; have h₂ := h.flushed
  have hsz' := hsz
  rw [h.empty hB] at hsz'
  cases src with
  | some p =>
    have hs := h.size
    subst hs
    exact rqEnqueuedBuffer_agree hring h₂ (by omega) hok hsz (by rw [h.tx]; exact pos_le h.size_pos _)
  | none =>
    have hbytes : (TxCall.enqueue none sz).bytes q = take B q.buffer s.enqueued.length sz := by
      simp only [TxCall.bytes, h.tx, h.size]
      exact slice_append_eq_take q.buffer h.size_pos (by omega) rfl
    intro c hlo hhi
    rw [hbytes]
    by_cases hc : c < s.enqueued.length
    · exact (hring c hlo hc).trans (getD_append_of_lt hc).symm
    · have hj : c - s.enqueued.length < sz := by omega
      simp only [List.getD_eq_getElem?_getD, List.getElem?_append_right (Nat.le_of_not_lt hc), take,
        List.getElem?_map, List.getElem?_range hj, Option.map_some, Option.getD_some, rqEnqueuedBuffer]
      congr 2
      omega

theorem step_enqueue (hB : B < 2 ^ 31)
    {src : Option (Nat → Byte)} {sz : Nat} (hsz : sz ≤ rqNbytesEmpty q)
    (hok : whole = true → (TxCall.enqueue src sz).CopyOk q) :
    ∃ s', s.settle (.enqueue src sz) ((TxCall.enqueue src sz).bytes q) (rqTryEnqueue q src sz) = some s' ∧
      PairInv B b cap whole s' := by
  have h₁ := h.tx.room; have h₂ := h.tx.flushed; have h₃ := h.published
  have hsz' := hsz
  rw [h.tx.empty hB] at hsz'
  have hlen : (s.enqueued ++ (TxCall.enqueue src sz).bytes q).length = s.enqueued.length + sz := by
    rw [List.length_append, length_bytes]
  refine ⟨{ s with
      tx := .idle ((q.setBuffer (rqEnqueuedBuffer q src s.enqueued.length sz)).setTxOffset
        (pos B (s.enqueued.length + sz)))
      enqueued := s.enqueued ++ (TxCall.enqueue src sz).bytes q }, ?_, _, _, P, R, ?_, rfl, rfl⟩
  · rw [rqTryEnqueue_fits src h.tx.txAddr (by rw [h.tx.size]; exact h.tx.size_pos)
      (by rw [h.tx.size]; exact h.tx.tx) hsz (by rw [h.tx.size]; omega), h.tx.size]
    rfl
  · refine ⟨⟨h.tx.paired, h.tx.isTx, h.tx.txAddr, h.tx.rxAddr, h.tx.size, ?_, h.tx.flush, ?_, ?_⟩, h.rx, ?_, h.started,
      ?_, h.seen, h.cached, h.held, h.cells, fun hw => ?_⟩
    · simp only [hlen]; rfl
    · simp only [hlen]; omega
    · simp only [hlen]; omega
    · simp only [hlen]; omega
    · simp only [hlen]; omega
    · obtain ⟨h₄, h₅, h₆⟩ := h.mem hw
      refine ⟨h₄, ?_, h₆.congr fun c _ hc => getD_append_of_lt (by omega)⟩
      simp only [hlen]
      exact enqueue_agree h.tx hB h₅ hsz (hok hw)

theorem step_call (hB : B < 2 ^ 31) (hpad : whole = false → cap + rdmaQueuePad = B) (c : TxCall)
    (hcopy : whole = true → c.CopyOk q) (hok : c.maxFlush q = 0 ∨ rqNbytesMaxFlush q = 0 ∨
      c.maxFlush q ≤ rqNbytesMaxFlush q ∧ FlushOk whole cap s q (c.maxFlush q)) :
    ∃ s', s.settle c (c.bytes q) (c.prog q) = some s' ∧ PairInv B b cap whole s' := by
  obtain ⟨R', h', hp⟩ := loop_point h hpad hok
  cases c with
  | enqueue src sz =>
    by_cases hsz : sz > rqNbytesEmpty q
    · have e : (TxCall.enqueue src sz).prog q =
          (nflushLoop 1 q ((TxCall.enqueue src sz).maxFlush q) 0).map fun r => if r < 0 then -1 else 1 := by
        simp [TxCall.prog, rqTryEnqueue, h.tx.txAddr, hsz, h.tx.flush_eq, TxCall.maxFlush, h.tx.toFlush]
      rw [e]
      exact settle_inv h' (.inr fun r => by split <;> decide) hp
    · exact step_enqueue h hB (Nat.le_of_not_lt hsz) hcopy
  | nflush n =>
    rw [TxCall.maxFlush, h.tx.toFlush, ← h.tx.nflush_eq] at hp
    rw [← Rdma.map_id (TxCall.prog q _)]
    exact settle_inv h' (.inl rfl) hp
  | flush =>
    rw [TxCall.maxFlush, h.tx.toFlush, ← h.tx.flush_eq] at hp
    rw [← Rdma.map_id (TxCall.prog q _)]
    exact settle_inv h' (.inl rfl) hp
  | reserve n =>
    rw [← Rdma.map_id (TxCall.prog q _)]
    refine settle_inv h (.inl rfl) ?_
    simp only [TxCall.prog, rqTryReserveFlush, h.tx.txAddr, ne_eq, not_true_eq_false, if_false]
    rw [rqTryReserveFlushLoop.eq_def]
    simp only [h.tx.paired, Bool.not_true, Bool.false_eq_true, if_false]
    split
    · exact .reserve n
    · exact .finished

end

theorem step_dequeue (hI : PairInv B b cap whole s) (sz : Nat) :
    ∃ s', pairStep s (.dequeue sz) = some s' ∧ PairInv B b cap whole s' := by
  obtain ⟨q, F₀, P, R, h, hth⟩ := hI
  have hB := h.tx.size_pos
  have hg : rqNbytesEnqueued s.rx = gap B (pos B s.dequeued.length) (pos B P) := by
    rw [rqNbytesEnqueued, h.rx.paired, if_pos rfl, rqNbytes_inner, h.rx.size, h.rx.rx, h.rx.tx]
  by_cases hsz : sz ≤ rqNbytesEnqueued s.rx
  · have h₁ := gap_pos_le hB h.rx.published
    have h₂ : sz ≤ B := by
      have := pos_le hB P
      rw [hg] at hsz
      unfold gap at hsz
      split at hsz <;> omega
    have h₃ := h.rx.published
    have hlen : (s.dequeued ++ take B s.rx.buffer s.dequeued.length sz).length = s.dequeued.length + sz := by simp
    refine ⟨⟨s.tx, s.rx.setRxOffset (pos B (s.dequeued.length + sz)), s.enqueued,
      s.dequeued ++ take B s.rx.buffer s.dequeued.length sz, s.flushedAt⟩, ?_, q, F₀, P, R, ?_, ?_⟩
    · simp only [pairStep, rqTryDequeue]
      rw [rqTryPossibleDequeue_fits true true (by rw [h.rx.rxAddr, h.rx.self]) (by rw [h.rx.size]; exact hB)
        (by rw [h.rx.size]; exact h.rx.rx) hsz (by rw [h.rx.size]; exact h₂), h.rx.size]
      rfl
    · refine ⟨h.tx, ⟨h.rx.paired, h.rx.self, h.rx.rxAddr, h.rx.size, ?_, h.rx.tx, ?_⟩, h.published, h.started,
        h.flushed, ?_, h.cached, h.held, h.cells, fun hw => ?_⟩
      · simp only [hlen]; rfl
      · simp only [hlen]; omega
      · simp only [hlen]; have := h.seen; omega
      · obtain ⟨h₄, h₅, h₆⟩ := h.mem hw
        simp only [hlen]
        exact ⟨h₄, h₅, h₆.mono (by omega) (Nat.le_refl _)⟩
    · exact hth
  · refine ⟨s, ?_, q, F₀, P, R, h, hth⟩
    simp only [pairStep, rqTryDequeue, rqTryPossibleDequeue_short true true
      (h.rx.rxAddr.trans h.rx.self.symm) (Nat.lt_of_not_le hsz)]
    rfl

/-- Every step that meets the condition can be taken and keeps the invariant. -/
theorem pairStep_inv (hB : B < 2 ^ 31) (hcB : cap ≤ B) (hcB' : whole = true → cap < B)
    (hpad : whole = false → cap + rdmaQueuePad = B) (s : Pair) (act : PairAct)
    (hI : PairInv B b cap whole s) (hok : pairOk whole cap s act) :
    ∃ s', pairStep s act = some s' ∧ PairInv B b cap whole s' := by
  cases act with
  | dequeue sz => exact step_dequeue hI sz
  | call c =>
    obtain ⟨q, F₀, P, R, h, hth⟩ := hI
    cases htx : s.tx with
    | idle q' =>
      simp only [htx] at hth
      obtain ⟨rfl, rfl⟩ := hth
      simp only [pairOk, htx] at hok
      simp only [pairStep, htx]
      exact step_call h hB hpad c hok.1 hok.2
    | running c' bytes p => exact ⟨s, by simp [pairStep, htx], q, F₀, P, R, h, hth⟩
  | rdma =>
    obtain ⟨q, F₀, P, R, h, hth⟩ := hI
    cases htx : s.tx with
    | idle q' => exact ⟨s, by simp [pairStep, htx], q, F₀, P, R, h, hth⟩
    | running c bytes p =>
      simp only [htx] at hth
      obtain ⟨p', f, rfl, hf, hp⟩ := hth
      generalize hF : s.flushedAt.length = F at hp
      cases hp with
      | finished =>
        refine ⟨s, by simp [pairStep, htx, Rdma.map], q, _, P, R, h, ?_⟩
        simp only [htx]
        exact ⟨_, f, rfl, hf, hF ▸ .finished⟩
      | first hn hT hcap hall =>
        subst hF
        exact step_first h hcB hf htx hn hT hcap hall
      | second hlap hb hT hcap hall => exact step_second h hcB hf htx hF hlap hb hT hcap hall
      | reread hm =>
        subst hF
        simp only [pairOk, htx, nflushReread, readRxOffset, Rdma.map] at hok
        exact step_reread h hcB' hpad hf htx (hok.resolve_left (by omega))
      | publish hn hall =>
        subst hF
        exact step_publish h hf htx hn hall
      | reserve n =>
        subst hF
        exact step_reserve h hf htx

end Step

/-! ## Runs -/

theorem pairInit_inv {a b : Nat} {mem mem' : Nat → Byte} {nbytes lkey rkey lkey' rkey' : BitVec 32}
    {t r : RdmaQueue} (ht : rqAllocateInPlace a mem nbytes lkey rkey = some t)
    (hr : rqAllocateInPlace b mem' nbytes lkey' rkey' = some r) (hpad : rdmaQueuePad < t.bufferSize) (cap : Nat)
    (whole : Bool) : PairInv t.bufferSize b cap whole (pairInit t r) := by
  obtain ⟨hB, -, et⟩ := rqAllocateInPlace_some ht
  obtain ⟨hB', -, er⟩ := rqAllocateInPlace_some hr
  rw [hB', ← hB] at er
  generalize t.bufferSize = B at hpad et er
  subst et er
  refine ⟨_, 0, 0, 0, ⟨⟨rfl, rfl, rfl, rfl, rfl, rfl, rfl, Nat.le_refl _, ?_⟩,
    ⟨rfl, rfl, rfl, rfl, rfl, rfl, Nat.le_refl _⟩, Nat.le_refl _, Nat.le_refl _, Nat.le_refl _, Nat.le_refl _,
    fun _ => rfl, Nat.zero_le _, rfl,
    fun _ => ⟨Nat.le_refl _, Agree.empty (Nat.le_refl _), Agree.empty (Nat.le_refl _)⟩⟩, rfl, rfl⟩
  simp only [pairInit, List.length_nil]
  omega

theorem PairInv.visible {B b cap : Nat} {s : Pair} (hI : PairInv B b cap true s) (hcap : cap < B) : s.Visible := by
  obtain ⟨q, F₀, P, R, h, -⟩ := hI
  have hB := h.tx.size_pos
  obtain ⟨h₁, -, hring⟩ := h.mem rfl
  have h₂ := h.rx.published; have h₃ := h.started; have h₄ := h.held; have h₅ := h.published; have h₆ := h.seen
  have hn : rqNbytesEnqueued s.rx = P - s.dequeued.length := by
    have := h.rx.size
    subst this
    rw [rqNbytesEnqueued, h.rx.paired, if_pos rfl, h.rx.rx, h.rx.tx, rqNbytes_pos h₂ (by omega)]
  have hbytes : rqBytes s.rx (P - s.dequeued.length) =
      take B s.rx.buffer s.dequeued.length (P - s.dequeued.length) := by
    simp only [rqBytes, h.rx.rx, h.rx.size]
    exact slice_append_eq_take s.rx.buffer hB (by omega) rfl
  rw [Pair.Visible, hn, hbytes, hring.take_eq (Nat.le_refl _) (by omega), map_getD_eq _ _ (by omega)]

theorem PairBody.fresh {B b cap : Nat} {whole : Bool} {s : Pair} {F₀ P R n : Nat} (h : PairBody B b cap whole s q F₀ P R)
    (hn : s.flushedAt.length + n ≤ s.dequeued.length + B) :
    ∀ i ∈ (List.range n).map fun j => (s.flushedAt.length + j) % B, i ∉ s.flushedAt.drop s.dequeued.length := by
  have hcells := h.cells
  generalize s.flushedAt.length = F at hcells hn ⊢
  intro i hi hmem
  obtain ⟨j, hj, rfl⟩ := List.mem_map.mp hi
  rw [hcells, ← List.map_drop] at hmem
  obtain ⟨c, hc, e⟩ := List.mem_map.mp hmem
  have hj' := List.mem_range.mp hj
  obtain ⟨k, hk, rfl⟩ := List.mem_drop_iff_getElem.mp hc
  simp only [List.getElem_range] at e
  rw [List.length_range] at hk
  exact mod_ne_of_lt (by omega) (by omega) e

theorem PairInv.noOverwrite {B b : Nat} {s : Pair} (hI : PairInv B b (B - rdmaQueuePad) false s) :
    s.NoOverwrite := by
  obtain ⟨q, F₀, P, R, h, hth⟩ := hI
  have hB := h.tx.size_pos
  have hseen := h.seen
  refine ⟨by rw [h.rx.size]; have := h.held; omega, ?_⟩
  cases htx : s.tx with
  | idle q' => trivial
  | running c bytes p =>
    simp only [htx] at hth
    obtain ⟨p', f, rfl, -, hp⟩ := hth
    generalize hF : s.flushedAt.length = F at hp
    cases hp with
    | finished => trivial
    | first hn hT hcap hall =>
      subst hF
      have hle := pos_le hB s.flushedAt.length
      simp only [nflushWrite, gt_iff_lt, hn, if_true, Rdma.map, ProtectedAddress.cells, h.tx.flush, h.tx.size]
      rw [range_map_pos hB (by split <;> omega)]
      exact h.fresh (by split <;> omega)
    | second hlap hb hT hcap hall =>
      have hroom := h.tx.room
      simp only [nflushSecond, Rdma.map, ProtectedAddress.cells]
      rw [range_map_start (add_mod_of_pos_eq hB hlap) (by omega), ← hF]
      exact h.fresh (by omega)
    | reread hm => trivial
    | publish hn hall => simp [nflushPublish, hn, Rdma.map, ProtectedAddress.cells]
    | reserve n => trivial

instance (s : Pair) : Decidable s.Visible := inferInstanceAs (Decidable (_ = _))

/-- In every run of two new paired queues in which every flush that writes
anything writes all bytes enqueued and leaves the receiver's ring short of
full, and every enqueue is copied right, no call aborts and the receiver sees
the next bytes of the stream. -/
theorem paired_visible {a b : Nat} {mem mem' : Nat → Byte} {nbytes lkey rkey lkey' rkey' : BitVec 32}
    {t r : RdmaQueue} (ht : rqAllocateInPlace a mem nbytes lkey rkey = some t)
    (hr : rqAllocateInPlace b mem' nbytes lkey' rkey' = some r) (hpad : rdmaQueuePad < t.bufferSize)
    (acts : List PairAct) (hok : Run.All pairStep (pairOk true (t.bufferSize - 1)) (pairInit t r) acts) :
    ∃ s, Run.exec pairStep (pairInit t r) acts = some s ∧ s.Visible := by
  obtain ⟨-, hB, -⟩ := rqAllocateInPlace_some ht
  obtain ⟨s, hs, hI⟩ := Run.exec_total (pairStep_inv hB (by omega) (fun _ => by omega) (by simp))
    (pairInit_inv ht hr hpad (t.bufferSize - 1) true) hok
  exact ⟨s, hs, hI.visible (by omega)⟩

theorem paired_visible_two_flushes :
    rdmaQueuePad < (zeroedQueue 4096 12).bufferSize ∧
    ∃ s, Run.exec pairStep (pairInit (zeroedQueue 4096 12) (zeroedQueue 8192 12))
        [.call (.enqueue (some countingBytes) 3), .call .flush, .rdma, .dequeue 1, .rdma, .dequeue 3,
          .call (.enqueue (some countingBytes) 4), .call (.nflush 9), .rdma, .rdma] = some s ∧ s.Visible :=
  ⟨by decide, @paired_visible 4096 8192 (fun _ => 0) (fun _ => 0) 100 0 0 0 0 (zeroedQueue 4096 12) (zeroedQueue 8192 12) rfl rfl
    (by decide) _ (by decide +kernel)⟩

/-- Two bytes are enqueued and one is flushed: the receiver sees two. -/
theorem paired_partial_flush_visible :
    ¬ ∀ (a b : Nat) (mem mem' : Nat → Byte) (nbytes lkey rkey lkey' rkey' : BitVec 32) (t r : RdmaQueue),
      rqAllocateInPlace a mem nbytes lkey rkey = some t → rqAllocateInPlace b mem' nbytes lkey' rkey' = some r →
      rdmaQueuePad < t.bufferSize →
      ∀ acts s, Run.exec pairStep (pairInit t r) acts = some s → s.Visible := by
  intro h
  exact Run.not_forall_exec (by decide +kernel) (h 4096 8192 (fun _ => 0) (fun _ => 0) 100 0 0 0 0
    (zeroedQueue 4096 12) (zeroedQueue 8192 12) rfl rfl (by decide)
    [.call (.enqueue (some countingBytes) 2), .call (.nflush 1), .rdma, .rdma])

instance (s : Pair) : Decidable s.NoOverwrite :=
  match h : s.tx with
  | .running _ _ (.write _ _ dst sz _) =>
    decidable_of_iff (s.flushedAt.length ≤ s.dequeued.length + (s.rx.bufferSize - rdmaQueuePad) ∧
      ∀ i ∈ dst.cells sz, i ∉ s.flushedAt.drop s.dequeued.length) (by simp only [Pair.NoOverwrite, h])
  | .idle _ | .running _ _ (.read ..) | .running _ _ (.done ..) | .running _ _ .abort =>
    decidable_of_iff (s.flushedAt.length ≤ s.dequeued.length + (s.rx.bufferSize - rdmaQueuePad))
      (by simp only [Pair.NoOverwrite, h, and_true])

/-- In every run of two new paired queues in which every flush sees an empty ring
or leaves the padding free, by the offset of the receiver that the transmitter
knows, no call aborts and no flush writes over a byte that is not dequeued. -/
theorem paired_no_overwrite {a b : Nat} {mem mem' : Nat → Byte} {nbytes lkey rkey lkey' rkey' : BitVec 32}
    {t r : RdmaQueue} (ht : rqAllocateInPlace a mem nbytes lkey rkey = some t)
    (hr : rqAllocateInPlace b mem' nbytes lkey' rkey' = some r) (hpad : rdmaQueuePad < t.bufferSize)
    (acts : List PairAct)
    (hok : Run.All pairStep (pairOk false (t.bufferSize - rdmaQueuePad)) (pairInit t r) acts) :
    ∃ s, Run.exec pairStep (pairInit t r) acts = some s ∧ s.NoOverwrite := by
  obtain ⟨-, hB, -⟩ := rqAllocateInPlace_some ht
  obtain ⟨s, hs, hI⟩ := Run.exec_total (pairStep_inv hB (by omega) (by simp) fun _ => by omega)
    (pairInit_inv ht hr hpad (t.bufferSize - rdmaQueuePad) false) hok
  exact ⟨s, hs, hI.noOverwrite⟩

/-- More than a lap: the second flush is partial, and the third behind a
reservation that has looked what is dequeued. -/
theorem paired_no_overwrite_partial_flush :
    rdmaQueuePad < (zeroedQueue 4096 24).bufferSize ∧
    ∃ s, Run.exec pairStep (pairInit (zeroedQueue 4096 24) (zeroedQueue 8192 24))
        [.call (.enqueue (some countingBytes) 10), .call .flush, .rdma, .rdma, .call (.enqueue (some countingBytes) 8),
          .call (.nflush 6), .rdma, .rdma, .dequeue 16, .call (.reserve 20), .rdma,
          .call (.enqueue (some countingBytes) 12), .call .flush, .rdma, .rdma, .rdma] = some s ∧ s.NoOverwrite :=
  ⟨by decide, @paired_no_overwrite 4096 8192 (fun _ => 0) (fun _ => 0) 112 0 0 0 0 (zeroedQueue 4096 24) (zeroedQueue 8192 24) rfl rfl
    (by decide) _ (by decide +kernel)⟩

/-- Flushes fill the ring, padding included; `flush_offset` then is
`rx.offset`, the ring counts as empty, and the next flush is about to write
over a byte that is not dequeued. -/
theorem paired_full_ring_overwritten :
    ¬ ∀ (a b : Nat) (mem mem' : Nat → Byte) (nbytes lkey rkey lkey' rkey' : BitVec 32) (t r : RdmaQueue),
      rqAllocateInPlace a mem nbytes lkey rkey = some t → rqAllocateInPlace b mem' nbytes lkey' rkey' = some r →
      rdmaQueuePad < t.bufferSize →
      ∀ acts s, Run.exec pairStep (pairInit t r) acts = some s → s.NoOverwrite := by
  intro h
  exact Run.not_forall_exec (by decide +kernel) (h 4096 8192 (fun _ => 0) (fun _ => 0) 112 0 0 0 0
    (zeroedQueue 4096 24) (zeroedQueue 8192 24) rfl rfl (by decide)
    [.call (.enqueue (some countingBytes) 16), .call .flush, .rdma, .rdma, .dequeue 8,
      .call (.enqueue (some countingBytes) 16), .call .flush, .rdma, .rdma, .rdma, .rdma, .rdma,
      .call (.enqueue (some countingBytes) 1), .call .flush])

end TasNic
