import TasNic.Rdma.Queue
import TasNic.Lib.Run

/-!
# The unpaired queue

The three offsets are the lazy offsets of three counts: the bytes enqueued, flushed and dequeued so far
(`Unpaired`). The second piece of an enqueue that is split at the end of the ring is read from the wrong
place of the source (`rqLanded`), so a run is only right if that does not matter (`EnqueueOk`).
-/

namespace TasNic

open Circ RdmaQueue

/-- An unpaired queue after `T` bytes were enqueued, `F` of them flushed and
`D` of these dequeued. -/
structure Unpaired (q : RdmaQueue) (T F D : Nat) : Prop where
  unpaired : q.paired = false
  txAddr : q.endpoints.tx.addr = q.self
  rxAddr : q.endpoints.rx.addr = q.self
  pad : rdmaQueuePad < q.bufferSize
  size : q.bufferSize < 2 ^ 31
  tx : q.txOffset = pos q.bufferSize T
  flush : q.flushOffset = pos q.bufferSize F
  rx : q.rxOffset = pos q.bufferSize D
  dequeued : D ≤ F
  flushed : F ≤ T
  room : T + rdmaQueuePad ≤ D + q.bufferSize

theorem rqAllocateInPlace_unpaired {addr : Nat} {mem : Nat → Byte} {nbytes lkey rkey : BitVec 32}
    {q : RdmaQueue} (h : rqAllocateInPlace addr mem nbytes lkey rkey = some q)
    (hpad : rdmaQueuePad < q.bufferSize) : Unpaired q 0 0 0 := by
  obtain ⟨-, hlt, e⟩ := rqAllocateInPlace_some h
  generalize q.bufferSize = B at hpad hlt e
  subst e
  exact ⟨rfl, rfl, rfl, hpad, hlt, rfl, rfl, rfl, Nat.le_refl _, Nat.le_refl _, by simp only; omega⟩

namespace Unpaired

variable {q : RdmaQueue} {T F D : Nat}

variable (h : Unpaired q T F D)

include h

theorem size_pos : 0 < q.bufferSize := by
  have := h.pad
  omega

theorem lap : T < D + q.bufferSize := by
  have := h.room
  simp only [rdmaQueuePad] at this
  omega

theorem toFlush : rqNbytesToFlush q = T - F := by
  have := h.lap; have := h.dequeued
  rw [rqNbytesToFlush, h.flush, h.tx, rqNbytes_pos h.flushed (by omega)]

theorem enqueued : rqNbytesEnqueued q = F - D := by
  have := h.lap; have := h.flushed
  rw [rqNbytesEnqueued, h.unpaired, if_neg (by decide), h.flush, h.rx, rqNbytes_pos h.dequeued (by omega)]

theorem empty : rqNbytesEmpty q = q.bufferSize - rdmaQueuePad - (T - D) := by
  have := h.dequeued; have := h.flushed
  refine rqNbytesEmpty_of_bytes ?_ (by have := h.room; omega) h.size
  rw [h.unpaired, if_neg (by decide), h.rx, h.tx, rqNbytes_pos (by omega) h.lap]

/-- `rq_nflush` moves the flush offset over as many bytes as asked for, of those enqueued. -/
theorem nflush_eq (n : Nat) :
    rqNflush q n = .done (q.setFlushOffset (pos q.bufferSize (F + min n (T - F)))) (min n (T - F) : Nat) := by
  have hlap := h.lap; have hd := h.dequeued
  have hm : (if T - F > n then n else T - F) = min n (T - F) := by split <;> omega
  have ho : (if q.flushOffset + min n (T - F) > q.bufferSize
      then q.flushOffset + min n (T - F) - q.bufferSize else q.flushOffset + min n (T - F)) =
      pos q.bufferSize (F + min n (T - F)) := by
    rw [← adv_pos h.size_pos (by omega), ← h.flush]
    rfl
  simp [rqNflush, h.txAddr, h.toFlush, h.unpaired, hm, ho]

theorem setFlushOffset {k : Nat} (hk : k ≤ T - F) :
    Unpaired (q.setFlushOffset (pos q.bufferSize (F + k))) T (F + k) D := by
  have hd := h.dequeued; have hf := h.flushed
  exact { h with flush := rfl, dequeued := by omega, flushed := by omega }

/-- `rq_nflush`: as many bytes as asked for, of those enqueued. -/
theorem nflush (n : Nat) :
    ∃ q', rqNflush q n = .done q' (min n (T - F) : Nat) ∧ Unpaired q' T (F + min n (T - F)) D ∧
      q'.buffer = q.buffer ∧ q'.bufferSize = q.bufferSize :=
  ⟨_, h.nflush_eq n, h.setFlushOffset (Nat.min_le_right _ _), rfl, rfl⟩

theorem flush_eq :
    rqFlush q = .done (q.setFlushOffset (pos q.bufferSize T)) (T - F : Nat) := by
  have hf := h.flushed
  rw [rqFlush, h.toFlush, h.nflush_eq, Nat.min_self, show F + (T - F) = T by omega]

/-- `rq_flush`: all bytes. -/
theorem flushAll :
    ∃ q', rqFlush q = .done q' (T - F : Nat) ∧ Unpaired q' T T D ∧ q'.buffer = q.buffer ∧
      q'.bufferSize = q.bufferSize := by
  have hf := h.flushed
  have h' := h.setFlushOffset (Nat.le_refl (T - F))
  rw [show F + (T - F) = T by omega] at h'
  exact ⟨_, h.flush_eq, h', rfl, rfl⟩

theorem enqueue_full_eq (src : Option (Nat → Byte)) {sz : Nat}
    (hsz : q.bufferSize - rdmaQueuePad - (T - D) < sz) :
    rqTryEnqueue q src sz = .done (q.setFlushOffset (pos q.bufferSize T)) 1 := by
  have hn : ¬ ((T - F : Nat) : Int) < 0 := by omega
  simp [rqTryEnqueue, h.txAddr, h.empty, hsz, h.flush_eq, Rdma.map]

theorem enqueue_full (src : Option (Nat → Byte)) {sz : Nat}
    (hsz : q.bufferSize - rdmaQueuePad - (T - D) < sz) :
    ∃ q', rqTryEnqueue q src sz = .done q' 1 ∧ Unpaired q' T T D ∧ q'.buffer = q.buffer ∧
      q'.bufferSize = q.bufferSize := by
  have hf := h.flushed
  have h' := h.setFlushOffset (Nat.le_refl (T - F))
  rw [show F + (T - F) = T by omega] at h'
  exact ⟨_, h.enqueue_full_eq src hsz, h', rfl, rfl⟩

theorem enqueue (src : Option (Nat → Byte)) {sz : Nat}
    (hsz : sz ≤ q.bufferSize - rdmaQueuePad - (T - D)) :
    ∃ q', rqTryEnqueue q src sz = .done q' 0 ∧ Unpaired q' (T + sz) F D ∧
      q'.bufferSize = q.bufferSize ∧ q'.buffer = rqEnqueuedBuffer q src T sz := by
  have hroom := h.room; have hd := h.dequeued; have hf := h.flushed
  refine ⟨_, rqTryEnqueue_fits src h.txAddr h.size_pos h.tx (by rw [h.empty]; exact hsz) (by omega), ?_, rfl, rfl⟩
  exact { h with tx := rfl, flushed := by omega, room := by simp only [setTxOffset, setBuffer]; omega }

theorem possibleDequeue (buffer dequeue : Bool) {sz : Nat} (hsz : sz ≤ F - D) :
    ∃ q', rqTryPossibleDequeue q buffer sz dequeue =
        some ⟨q', 0, if buffer then take q.bufferSize q.buffer D sz else []⟩ ∧
      Unpaired q' T F (if dequeue then D + sz else D) ∧ q'.buffer = q.buffer ∧
      q'.bufferSize = q.bufferSize := by
  have hroom := h.room; have hd := h.dequeued; have hf := h.flushed
  refine ⟨_, rqTryPossibleDequeue_fits buffer dequeue h.rxAddr h.size_pos h.rx (by rw [h.enqueued]; exact hsz)
    (by omega), ?_, ?_, ?_⟩
  · cases dequeue
    · exact h
    · exact { h with
        rx := rfl, dequeued := by simp only [if_true]; omega, room := by simp only [setRxOffset, if_true]; omega }
  · cases dequeue <;> rfl
  · cases dequeue <;> rfl

theorem peek (buffer : Bool) {sz : Nat} (hsz : sz ≤ F - D) :
    rqTryPeek q buffer sz = some ⟨q, 0, if buffer then take q.bufferSize q.buffer D sz else []⟩ := by
  have hlap := h.lap; have hf := h.flushed
  exact rqTryPossibleDequeue_fits buffer false h.rxAddr h.size_pos h.rx (by rw [h.enqueued]; exact hsz) (by omega)

theorem possibleDequeue_short (buffer dequeue : Bool) {sz : Nat} (hsz : F - D < sz) :
    rqTryPossibleDequeue q buffer sz dequeue = some ⟨q, 1, []⟩ := by
  exact rqTryPossibleDequeue_short buffer dequeue h.rxAddr (by rw [h.enqueued]; exact hsz)

end Unpaired

/-! ## Runs -/

/-- A call on an unpaired queue; `src` is the memory at `to_enqueue`. -/
inductive UnpairedOp where
  | enqueue (src : Nat → Byte) (sz : Nat)
  | nflush (toFlush : Nat)
  | flush
  | peek (buffer : Bool) (sz : Nat)
  | dequeue (sz : Nat)

/-- A queue with the bytes passed to its successful enqueues and those
returned by its successful dequeues. -/
structure UnpairedRun where
  queue : RdmaQueue
  enqueued : List Byte
  dequeued : List Byte

/-- One call; `none` if it aborts. -/
def unpairedStep (s : UnpairedRun) : UnpairedOp → Option UnpairedRun
  | .enqueue src sz => match rqTryEnqueue s.queue (some src) sz with
    | .done q rv => some ⟨q, if rv = 0 then s.enqueued ++ slice src 0 sz else s.enqueued, s.dequeued⟩
    | _ => none
  | .nflush n => match rqNflush s.queue n with
    | .done q _ => some { s with queue := q }
    | _ => none
  | .flush => match rqFlush s.queue with
    | .done q _ => some { s with queue := q }
    | _ => none
  | .peek buffer sz => (rqTryPeek s.queue buffer sz).map fun d => { s with queue := d.queue }
  | .dequeue sz => (rqTryDequeue s.queue true sz).map fun d =>
      ⟨d.queue, s.enqueued, if d.rv = 0 then s.dequeued ++ d.out else s.dequeued⟩

/-- `EnqueueOk` for the enqueues among the calls. -/
def unpairedOk (s : UnpairedRun) : UnpairedOp → Prop
  | .enqueue src sz => EnqueueOk s.queue src sz
  | _ => True

instance (s : UnpairedRun) : ∀ op, Decidable (unpairedOk s op)
  | .enqueue src sz => inferInstanceAs (Decidable (EnqueueOk s.queue src sz))
  | .nflush _ | .flush | .peek .. | .dequeue _ => isTrue trivial

/-- The invariant of runs: the ring holds the bytes enqueued and not yet
dequeued, and what was dequeued are the first bytes enqueued. -/
structure UnpairedInv (s : UnpairedRun) : Prop where
  counts : ∃ F, Unpaired s.queue s.enqueued.length F s.dequeued.length
  ring : Agree s.queue.bufferSize s.queue.buffer s.dequeued.length s.enqueued.length
    fun c => s.enqueued.getD c 0
  dequeued : s.dequeued = s.enqueued.take s.dequeued.length

theorem unpairedStep_inv (s : UnpairedRun) (op : UnpairedOp) (hI : UnpairedInv s) (hok : unpairedOk s op) :
    ∃ s', unpairedStep s op = some s' ∧ UnpairedInv s' := by
  obtain ⟨⟨F, h⟩, hring, hdeq⟩ := hI
  cases op with
  | enqueue src sz =>
    by_cases hsz : sz ≤ s.queue.bufferSize - rdmaQueuePad - (s.enqueued.length - s.dequeued.length)
    · obtain ⟨q', e, h', hs, hb⟩ := h.enqueue (some src) hsz
      have hlen : (s.enqueued ++ slice src 0 sz).length = s.enqueued.length + sz := by simp
      refine ⟨⟨q', s.enqueued ++ slice src 0 sz, s.dequeued⟩, by simp [unpairedStep, e], ⟨F, ?_⟩, ?_, ?_⟩
      · rw [hlen]; exact h'
      · have hd := h.dequeued; have hf := h.flushed; have hroom := h.room
        simp only [hlen, hs, hb]
        exact rqEnqueuedBuffer_agree hring (by omega) (by omega) hok (by rw [h.empty]; exact hsz)
          (by rw [h.tx]; exact pos_le h.size_pos _)
      · have hd := h.dequeued; have hf := h.flushed
        simp only
        rw [List.take_append_of_le_length (by omega)]
        exact hdeq
    · obtain ⟨q', e, h', hb, hs⟩ := h.enqueue_full (some src) (Nat.lt_of_not_le hsz)
      exact ⟨⟨q', s.enqueued, s.dequeued⟩, by simp [unpairedStep, e], ⟨_, h'⟩, by rw [hb, hs]; exact hring, hdeq⟩
  | nflush n =>
    obtain ⟨q', e, h', hb, hs⟩ := h.nflush n
    exact ⟨{ s with queue := q' }, by simp [unpairedStep, e], ⟨_, h'⟩, by rw [hb, hs]; exact hring, hdeq⟩
  | flush =>
    obtain ⟨q', e, h', hb, hs⟩ := h.flushAll
    exact ⟨{ s with queue := q' }, by simp [unpairedStep, e], ⟨_, h'⟩, by rw [hb, hs]; exact hring, hdeq⟩
  | peek buffer sz =>
    by_cases hsz : sz ≤ F - s.dequeued.length
    · obtain ⟨q', e, h', hb, hs⟩ := h.possibleDequeue buffer false hsz
      exact ⟨{ s with queue := q' }, by simp [unpairedStep, rqTryPeek, e], ⟨_, h'⟩, by rw [hb, hs]; exact hring, hdeq⟩
    · have e := h.possibleDequeue_short buffer false (Nat.lt_of_not_le hsz)
      exact ⟨{ s with queue := s.queue }, by simp [unpairedStep, rqTryPeek, e], ⟨F, h⟩, hring, hdeq⟩
  | dequeue sz =>
    by_cases hsz : sz ≤ F - s.dequeued.length
    · obtain ⟨q', e, h', hb, hs⟩ := h.possibleDequeue true true hsz
      have hd := h.dequeued; have hf := h.flushed
      have hlen : (s.dequeued ++ take s.queue.bufferSize s.queue.buffer s.dequeued.length sz).length =
          s.dequeued.length + sz := by simp
      refine ⟨⟨q', s.enqueued, s.dequeued ++ take s.queue.bufferSize s.queue.buffer s.dequeued.length sz⟩,
        by simp [unpairedStep, rqTryDequeue, e], ⟨F, ?_⟩, ?_, ?_⟩
      · rw [hlen]; exact h'
      · simp only [hlen, hb, hs]
        exact hring.mono (by omega) (Nat.le_refl _)
      · rw [hlen, hring.take_eq (Nat.le_refl _) (by omega), map_getD_eq _ _ (by omega), List.take_add, ← hdeq]
    · have e := h.possibleDequeue_short true true (Nat.lt_of_not_le hsz)
      exact ⟨⟨s.queue, s.enqueued, s.dequeued⟩, by simp [unpairedStep, rqTryDequeue, e], ⟨F, h⟩, hring, hdeq⟩

def unpairedInit (q : RdmaQueue) : UnpairedRun := ⟨q, [], []⟩

/-- In every run on a new queue whose enqueues are copied right, no call
aborts and the bytes dequeued are a prefix of the bytes enqueued. -/
theorem unpaired_dequeued_fifo {addr : Nat} {mem : Nat → Byte} {nbytes lkey rkey : BitVec 32}
    {q : RdmaQueue} (hq : rqAllocateInPlace addr mem nbytes lkey rkey = some q)
    (hpad : rdmaQueuePad < q.bufferSize) (ops : List UnpairedOp)
    (hok : Run.All unpairedStep unpairedOk (unpairedInit q) ops) :
    ∃ s, Run.exec unpairedStep (unpairedInit q) ops = some s ∧ s.dequeued <+: s.enqueued := by
  have hI : UnpairedInv (unpairedInit q) :=
    ⟨⟨0, rqAllocateInPlace_unpaired hq hpad⟩, Agree.empty (Nat.le_refl _), rfl⟩
  obtain ⟨s, hs, hI'⟩ := Run.exec_total unpairedStep_inv hI hok
  exact ⟨s, hs, hI'.dequeued ▸ List.take_prefix _ _⟩

theorem unpaired_dequeued_fifo_halves :
    rdmaQueuePad < (zeroedQueue 4096 12).bufferSize ∧
    ∃ s, Run.exec unpairedStep (unpairedInit (zeroedQueue 4096 12))
        [.enqueue countingBytes 4, .flush, .dequeue 4, .enqueue countingBytes 4, .flush, .dequeue 4,
          .enqueue countingBytes 2, .flush, .dequeue 2, .enqueue (fun j => countingBytes (j % 2)) 4,
          .flush, .dequeue 3] = some s ∧ s.dequeued <+: s.enqueued :=
  ⟨by decide, @unpaired_dequeued_fifo 4096 (fun _ => 0) 100 0 0 (zeroedQueue 4096 12) rfl (by decide) _ (by decide)⟩

/-- Three bytes enqueued at offset 10 of a 12-byte ring: the second piece is
the middle byte again, and 1, 2, 2 is dequeued. -/
theorem unpaired_split_enqueue_corrupts :
    ¬ ∀ (addr : Nat) (mem : Nat → Byte) (nbytes lkey rkey : BitVec 32) (q : RdmaQueue),
      rqAllocateInPlace addr mem nbytes lkey rkey = some q → rdmaQueuePad < q.bufferSize →
      ∀ ops s, Run.exec unpairedStep (unpairedInit q) ops = some s → s.dequeued <+: s.enqueued := by
  intro h
  exact Run.not_forall_exec (by decide +kernel) (h 4096 (fun _ => 0) 100 0 0 (zeroedQueue 4096 12) rfl (by decide)
    [.enqueue countingBytes 4, .flush, .dequeue 4, .enqueue countingBytes 4, .flush, .dequeue 4,
      .enqueue countingBytes 2, .flush, .dequeue 2, .enqueue countingBytes 3, .flush, .dequeue 3])

end TasNic
