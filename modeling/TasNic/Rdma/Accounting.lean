import TasNic.Rdma.Unpaired

/-!
# Accounting of the unpaired queue

What a queue in shared memory counts, against three counts of its history: the bytes
enqueued, flushed and dequeued so far (`Counts`). `Counts.call` says what each call is to do
to the counts and what it is to return. `queueCall_refines` is the step lemma, that a call
on the queue does the same; `unpaired_accounting` is the result for runs.
-/

namespace TasNic

open Circ RdmaQueue

/-- A call on a queue. `src` is the memory at `to_enqueue`, or `none` for `NULL`; `buffer` is
whether there is a buffer to copy bytes to. -/
inductive QueueCall where
  | enqueue (src : Option (Nat → Byte)) (sz : Nat)
  | nflush (toFlush : Nat)
  | peek (buffer : Bool) (sz : Nat)
  | dequeue (buffer : Bool) (sz : Nat)

/-- The queue and the return value; `none` if the call aborts. An unpaired queue posts no
RDMA operation. -/
def queueCall (q : RdmaQueue) : QueueCall → Option (RdmaQueue × Int)
  | .enqueue src sz => match rqTryEnqueue q src sz with
    | .done q rv => some (q, rv)
    | _ => none
  | .nflush n => match rqNflush q n with
    | .done q rv => some (q, rv)
    | _ => none
  | .peek buffer sz => (rqTryPeek q buffer sz).map fun d => (d.queue, d.rv)
  | .dequeue buffer sz => (rqTryDequeue q buffer sz).map fun d => (d.queue, d.rv)

/-! ## The counts -/

/-- The bytes enqueued, flushed and dequeued so far. -/
structure Counts where
  enqueued : Nat
  flushed : Nat
  dequeued : Nat
deriving DecidableEq

namespace Counts

/-- Enqueued and not flushed. -/
def pending (c : Counts) : Nat := c.enqueued - c.flushed

/-- Flushed and not dequeued. -/
def ready (c : Counts) : Nat := c.flushed - c.dequeued

/-- What is left of `B` bytes, less the padding. -/
def free (B : Nat) (c : Counts) : Nat := B - rdmaQueuePad - (c.enqueued - c.dequeued)

/-- What a call is to do: an enqueue succeeds if it fits, and otherwise flushes all that is
pending; a flush takes what is pending; a peek and a dequeue succeed if enough is ready. -/
def call (B : Nat) (c : Counts) : QueueCall → Counts × Int
  | .enqueue _ sz =>
    if sz ≤ c.free B then ({ c with enqueued := c.enqueued + sz }, 0) else ({ c with flushed := c.enqueued }, 1)
  | .nflush n => ({ c with flushed := c.flushed + min n c.pending }, (min n c.pending : Nat))
  | .peek _ sz => (c, if sz ≤ c.ready then 0 else 1)
  | .dequeue _ sz => if sz ≤ c.ready then ({ c with dequeued := c.dequeued + sz }, 0) else (c, 1)

end Counts

/-- The queue counts what the history says, in a buffer of `B` bytes. -/
structure Accounted (B : Nat) (q : RdmaQueue) (c : Counts) : Prop where
  size : q.bufferSize = B
  offsets : q.txOffset ≤ B ∧ q.flushOffset ≤ B ∧ q.rxOffset ≤ B
  order : c.dequeued ≤ c.flushed ∧ c.flushed ≤ c.enqueued
  ready : rqNbytesEnqueued q = c.ready
  pending : rqNbytesToFlush q = c.pending
  free : rqNbytesEmpty q = c.free B
  total : rqNbytesEnqueued q + rqNbytesToFlush q + rqNbytesEmpty q + rdmaQueuePad = B

theorem Unpaired.accounted {q : RdmaQueue} {c : Counts} (h : Unpaired q c.enqueued c.flushed c.dequeued) :
    Accounted q.bufferSize q c := by
  have h₁ := h.dequeued; have h₂ := h.flushed; have h₃ := h.room
  refine ⟨rfl, ⟨?_, ?_, ?_⟩, ⟨h₁, h₂⟩, h.enqueued, h.toFlush, h.empty, ?_⟩
  · rw [h.tx]; exact pos_le h.size_pos _
  · rw [h.flush]; exact pos_le h.size_pos _
  · rw [h.rx]; exact pos_le h.size_pos _
  · rw [h.enqueued, h.toFlush, h.empty]
    omega

/-- What calls that have nothing to do with it leave as it is: an enqueue that does not fit
moves only the flush offset, a peek and a dequeue that fails move nothing. -/
def QueueCall.Frame (q q' : RdmaQueue) (rv : Int) : QueueCall → Prop
  | .enqueue _ _ => rv ≠ 0 → q' = q.setFlushOffset q'.flushOffset ∧ rqNbytesToFlush q' = 0
  | .nflush _ => q' = q.setFlushOffset q'.flushOffset
  | .peek _ _ => q' = q
  | .dequeue _ _ => rv ≠ 0 → q' = q

theorem queueCall_refines {q : RdmaQueue} {c : Counts} (h : Unpaired q c.enqueued c.flushed c.dequeued)
    (call : QueueCall) :
    ∃ q', queueCall q call = some (q', (c.call q.bufferSize call).2) ∧ q'.bufferSize = q.bufferSize ∧
      Unpaired q' (c.call q.bufferSize call).1.enqueued (c.call q.bufferSize call).1.flushed
        (c.call q.bufferSize call).1.dequeued ∧
      call.Frame q q' (c.call q.bufferSize call).2 := by
  cases call with
  | enqueue src sz =>
    by_cases hsz : sz ≤ c.free q.bufferSize
    · obtain ⟨q', e, h', hs, -⟩ := h.enqueue src hsz
      refine ⟨q', ?_, hs, ?_, ?_⟩
      · simp [queueCall, e, Counts.call, if_pos hsz]
      · simpa only [Counts.call, if_pos hsz] using h'
      · intro hrv
        simp only [Counts.call, if_pos hsz] at hrv
        exact absurd rfl hrv
    · have e := h.enqueue_full_eq src (Nat.lt_of_not_le hsz)
      have hf := h.flushed
      have h' := h.setFlushOffset (Nat.le_refl (c.enqueued - c.flushed))
      rw [show c.flushed + (c.enqueued - c.flushed) = c.enqueued by omega] at h'
      refine ⟨q.setFlushOffset (pos q.bufferSize c.enqueued), ?_, rfl, ?_, fun _ => ⟨rfl, ?_⟩⟩
      · simp [queueCall, e, Counts.call, if_neg hsz]
      · simpa only [Counts.call, if_neg hsz] using h'
      · rw [h'.toFlush, Nat.sub_self]
  | nflush n =>
    refine ⟨q.setFlushOffset (pos q.bufferSize (c.flushed + min n (c.enqueued - c.flushed))), ?_, rfl,
      h.setFlushOffset (Nat.min_le_right n _), rfl⟩
    simp [queueCall, h.nflush_eq, Counts.call, Counts.pending]
  | peek buffer sz =>
    refine ⟨q, ?_, rfl, h, rfl⟩
    by_cases hsz : sz ≤ c.ready
    · simp [queueCall, h.peek buffer hsz, Counts.call, if_pos hsz]
    · have e := h.possibleDequeue_short buffer false (Nat.lt_of_not_le hsz)
      simp [queueCall, rqTryPeek, e, Counts.call, if_neg hsz]
  | dequeue buffer sz =>
    by_cases hsz : sz ≤ c.ready
    · obtain ⟨q', e, h', -, hs⟩ := h.possibleDequeue buffer true hsz
      refine ⟨q', ?_, hs, ?_, ?_⟩
      · simp [queueCall, rqTryDequeue, e, Counts.call, if_pos hsz]
      · simpa only [Counts.call, if_pos hsz, if_true] using h'
      · intro hrv
        simp only [Counts.call, if_pos hsz] at hrv
        exact absurd rfl hrv
    · have e := h.possibleDequeue_short buffer true (Nat.lt_of_not_le hsz)
      refine ⟨q, ?_, rfl, ?_, fun _ => rfl⟩
      · simp [queueCall, rqTryDequeue, e, Counts.call, if_neg hsz]
      · simpa only [Counts.call, if_neg hsz] using h

/-! ## Runs -/

/-- A call that returned, with the queue and the counts before and after it. -/
structure QueueEvent where
  call : QueueCall
  before : RdmaQueue
  counts : Counts
  after : RdmaQueue
  rv : Int

/-- A queue with the counts of its history, and the calls made. -/
structure AccRun where
  queue : RdmaQueue
  counts : Counts
  events : List QueueEvent

def accStep (B : Nat) (s : AccRun) (call : QueueCall) : Option AccRun :=
  (queueCall s.queue call).map fun r =>
    ⟨r.1, (s.counts.call B call).1, s.events ++ [⟨call, s.queue, s.counts, r.1, r.2⟩]⟩

def accInit (q : RdmaQueue) : AccRun := ⟨q, ⟨0, 0, 0⟩, []⟩

/-- The call returned what it is to return, and left alone what it is to leave alone. -/
structure QueueEvent.Right (B : Nat) (e : QueueEvent) : Prop where
  before : Accounted B e.before e.counts
  returned : e.rv = (e.counts.call B e.call).2
  frame : e.call.Frame e.before e.after e.rv

structure AccInv (B : Nat) (s : AccRun) : Prop where
  size : s.queue.bufferSize = B
  queue : Unpaired s.queue s.counts.enqueued s.counts.flushed s.counts.dequeued
  events : ∀ e ∈ s.events, e.Right B

theorem AccInv.accounted {B : Nat} {s : AccRun} (h : AccInv B s) : Accounted B s.queue s.counts :=
  h.size ▸ h.queue.accounted

theorem accStep_inv {B : Nat} (s : AccRun) (call : QueueCall) (h : AccInv B s) :
    ∃ s', accStep B s call = some s' ∧ AccInv B s' := by
  obtain ⟨q', e, hsize, hq, hframe⟩ := queueCall_refines h.queue call
  rw [h.size] at e hsize hq hframe
  refine ⟨_, by rw [accStep, e]; rfl, hsize, hq, fun ev hev => ?_⟩
  rcases List.mem_append.mp hev with hev | hev
  · exact h.events ev hev
  · obtain rfl := List.mem_singleton.mp hev
    exact ⟨h.accounted, rfl, hframe⟩

/-- In every run on a new queue no call aborts, the queue counts what the history says, and
every call returned what it is to return. -/
theorem unpaired_accounting {addr : Nat} {mem : Nat → Byte} {nbytes lkey rkey : BitVec 32} {q : RdmaQueue}
    (hq : rqAllocateInPlace addr mem nbytes lkey rkey = some q) (hpad : rdmaQueuePad < q.bufferSize)
    (calls : List QueueCall) :
    ∃ s, Run.exec (accStep q.bufferSize) (accInit q) calls = some s ∧ Accounted q.bufferSize s.queue s.counts ∧
      ∀ e ∈ s.events, e.Right q.bufferSize := by
  have hI : AccInv q.bufferSize (accInit q) :=
    ⟨rfl, rqAllocateInPlace_unpaired hq hpad, fun e he => absurd he List.not_mem_nil⟩
  obtain ⟨s, hs, hI'⟩ := Run.exec_total (fun s call h _ => accStep_inv s call h) hI (Run.All.of_forall fun _ _ => trivial)
  exact ⟨s, hs, hI'.accounted, hI'.events⟩

/-- A ring of 12 bytes, twice around: an enqueue that does not fit, a flush of more than
there is, and a dequeue of more than is flushed among the calls. -/
theorem unpaired_accounting_around :
    rdmaQueuePad < (zeroedQueue 4096 12).bufferSize ∧
    ∃ s, Run.exec (accStep 12) (accInit (zeroedQueue 4096 12))
        [.enqueue none 3, .nflush 2, .dequeue true 3, .peek true 2, .dequeue true 2, .enqueue none 4,
          .dequeue false 3, .enqueue none 3, .nflush 100, .dequeue false 3] = some s ∧
      Accounted 12 s.queue s.counts ∧ ∀ e ∈ s.events, e.Right 12 :=
  ⟨by decide, @unpaired_accounting 4096 (fun _ => 0) 100 0 0 (zeroedQueue 4096 12) rfl (by decide) _⟩

end TasNic
