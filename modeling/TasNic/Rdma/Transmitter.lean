import TasNic.Rdma.Unpaired
import TasNic.Rdma.Paired

/-!
# The transmitter's side of a queue

`TxSide q T F`: of a queue, in shared memory or paired, `T` bytes were enqueued and `F` of them
flushed. A call of the transmitter that returns does to the counts what its return value says,
whatever the RDMA operations return.
-/

namespace TasNic

open Circ RdmaQueue

theorem Rdma.eval_map_some {α β : Type} {p : Rdma α} {f : α → β} {env env' : Nat → Int × Nat} {q : RdmaQueue} {b : β}
    (h : (p.map f).eval env = some (q, b, env')) : ∃ a, p.eval env = some (q, a, env') ∧ f a = b := by
  induction p generalizing env with
  | done q₁ a =>
    cases h
    exact ⟨a, rfl, rfl⟩
  | abort => cases h
  | write q₁ src dst sz k ih => exact ih _ h
  | read q₁ dst src sz k ih => exact ih _ _ h

/-- `T` bytes were enqueued and `F` flushed. -/
inductive TxSide (q : RdmaQueue) (T F : Nat) : Prop where
  | unpaired (D : Nat) (h : Unpaired q T F D)
  | paired (B b : Nat) (h : TxOf B b q T F) (size : B < 2 ^ 31)

/-- A new transmit queue, in shared memory or paired with a receiver. -/
def NewTxQueue (q : RdmaQueue) : Prop :=
  ∃ addr mem nbytes lkey rkey q₀, rqAllocateInPlace addr mem nbytes lkey rkey = some q₀ ∧
    rdmaQueuePad < q₀.bufferSize ∧ (q = q₀ ∨ ∃ rx, q = (rqPairReceiver q₀ rx 0).1)

theorem newTxQueue_zeroed (addr : Nat) : NewTxQueue (zeroedQueue addr 100) :=
  ⟨addr, fun _ => 0, rdmaQueueHdr + 100, 0, 0, _, rfl, show rdmaQueuePad < 100 by decide, .inl rfl⟩

theorem NewTxQueue.txSide {q : RdmaQueue} (h : NewTxQueue q) : TxSide q 0 0 := by
  obtain ⟨addr, mem, nbytes, lkey, rkey, q₀, hq, hpad, rfl | ⟨rx, rfl⟩⟩ := h
  · exact .unpaired 0 (rqAllocateInPlace_unpaired hq hpad)
  · have hu := rqAllocateInPlace_unpaired hq hpad
    exact .paired q₀.bufferSize rx.addr
      ⟨rfl, rfl, hu.txAddr, rfl, rfl, hu.tx, hu.flush, Nat.le_refl _, by omega⟩ hu.size

/-! ## Reservations -/

/-- A queue before and after a call that may have read the receiver's offset again. -/
def Reread (q q' : RdmaQueue) : Prop := q' = q ∨ q.paired = true ∧ ∃ o, q' = q.setRxOffset o

section reread

variable {q q' : RdmaQueue} {n : Nat} {r : Int} {env env' : Nat → Int × Nat}

theorem reserveLoop_cases (left : Nat) (he : (rqTryReserveFlushLoop left q n).eval env = some (q', r, env')) :
    Reread q q' ∧ (r = 1 → (rqNbytesToFlush q' + n) % 2 ^ 64 ≤ rqNbytesMaxFlush q') := by
  induction left generalizing q env with
  | zero =>
    rw [rqTryReserveFlushLoop.eq_def] at he
    dsimp only at he
    split at he
    · rw [ite_self] at he
      cases he
      exact ⟨.inl rfl, fun hr => absurd hr (by decide)⟩
    · rename_i hroom
      cases he
      exact ⟨.inl rfl, fun _ => Nat.le_of_not_lt hroom⟩
  | succ left ih =>
    rw [rqTryReserveFlushLoop.eq_def] at he
    dsimp only at he
    split at he
    · split at he
      · cases he
        exact ⟨.inl rfl, fun hr => absurd hr (by decide)⟩
      · rename_i hp
        rw [Bool.not_eq_true, Bool.not_eq_false'] at hp
        simp only [readRxOffset, Rdma.eval] at he
        split at he
        · cases he
          exact ⟨.inr ⟨hp, _, rfl⟩, fun hr => absurd hr (by decide)⟩
        · obtain ⟨rfl | ⟨-, o, rfl⟩, hroom⟩ := ih he
          · exact ⟨.inr ⟨hp, _, rfl⟩, hroom⟩
          · exact ⟨.inr ⟨hp, o, rfl⟩, hroom⟩
    · rename_i hroom
      cases he
      exact ⟨.inl rfl, fun _ => Nat.le_of_not_lt hroom⟩

theorem rqTryReserveFlush_cases (he : (rqTryReserveFlush q n).eval env = some (q', r, env')) :
    Reread q q' ∧ (r = 1 → (rqNbytesToFlush q' + n) % 2 ^ 64 ≤ rqNbytesMaxFlush q') := by
  unfold rqTryReserveFlush at he
  split at he
  · cases he
  · exact reserveLoop_cases 1 he

/-- `rq_nbytes_can_reserve` returns 0, or the room behind the bytes to flush, or fails. -/
theorem rqNbytesCanReserve_cases (he : (rqNbytesCanReserve q).eval env = some (q', r, env')) :
    Reread q q' ∧ ((n : Int) ≤ r → n = 0 ∧ q.paired = true ∨ rqNbytesToFlush q' + n ≤ rqNbytesMaxFlush q') ∧
      ((env 0).1 = 0 → 0 ≤ r) := by
  simp only [rqNbytesCanReserve] at he
  split at he
  · cases he
  · split at he
    · split at he
      · cases he
      · cases he
        exact ⟨.inl rfl, fun hn => .inr (by omega), fun _ => by omega⟩
    · rename_i hp
      rw [Bool.not_eq_true, Bool.not_eq_false'] at hp
      split at he
      · simp only [readRxOffset, Rdma.eval] at he
        split at he
        · rename_i hrc
          cases he
          exact ⟨.inr ⟨hp, _, rfl⟩, fun hn => by omega, fun h0 => absurd h0 hrc⟩
        · cases he
          exact ⟨.inr ⟨hp, _, rfl⟩, fun hn => .inl ⟨by omega, hp⟩, fun _ => Int.le_refl 0⟩
      · cases he
        exact ⟨.inl rfl, fun hn => .inr (by omega), fun _ => by omega⟩

end reread

/-! ## The counts -/

namespace TxSide

variable {q q' : RdmaQueue} {T F n : Nat} {env env' : Nat → Int × Nat}

variable (h : TxSide q T F)

include h

theorem flushed : F ≤ T := by
  cases h with
  | unpaired D h => exact h.flushed
  | paired B b h _ => exact h.flushed

theorem toFlush : rqNbytesToFlush q = T - F := by
  cases h with
  | unpaired D h => exact h.toFlush
  | paired B b h _ => exact h.toFlush

theorem bound : T - F < 2 ^ 31 := by
  cases h with
  | unpaired D h =>
    have := h.lap; have := h.dequeued; have := h.size
    omega
  | paired B b h hB =>
    have := h.room
    simp only [rdmaQueuePad] at this
    omega

theorem txAddr : q.endpoints.tx.addr = q.self := by
  cases h with
  | unpaired D h => exact h.txAddr
  | paired B b h _ => exact h.txAddr

theorem reread (hr : Reread q q') : TxSide q' T F := by
  obtain rfl | ⟨hp, o, rfl⟩ := hr
  · exact h
  · cases h with
    | unpaired D h => exact absurd (hp.symm.trans h.unpaired) (by decide)
    | paired B b h hB => exact .paired B b (h.setRxOffset o) hB

theorem canReserve {r : Int} (he : (rqNbytesCanReserve q).eval env = some (q', r, env')) :
    TxSide q' T F := h.reread (rqNbytesCanReserve_cases (n := 0) he).1

theorem enqueue_fits (src : Option (Nat → Byte)) {sz : Nat} (hfit : sz ≤ rqNbytesEmpty q) :
    ∃ q', rqTryEnqueue q src sz = .done q' 0 ∧ TxSide q' (T + sz) F ∧ q'.paired = q.paired ∧
      q'.bufferSize = q.bufferSize ∧ rqNbytesMaxFlush q' = rqNbytesMaxFlush q ∧
      rqNbytesEmpty q' = rqNbytesEmpty q - sz := by
  cases h with
  | unpaired D h =>
    have he := h.empty
    have hroom := h.room; have hd := h.dequeued; have hf := h.flushed
    have h' : Unpaired ((q.setBuffer (rqEnqueuedBuffer q src T sz)).setTxOffset (Circ.pos q.bufferSize (T + sz)))
        (T + sz) F D := { h with tx := rfl, flushed := by omega, room := by simp only [setTxOffset, setBuffer]; omega }
    refine ⟨_, rqTryEnqueue_fits src h.txAddr h.size_pos h.tx hfit (by omega), .unpaired D h', rfl, rfl, rfl, ?_⟩
    rw [h'.empty, he]
    change q.bufferSize - _ - _ = _
    omega
  | paired B b h hB =>
    have he := h.empty hB
    have hroom := h.room; have hle := h.flushed; have hpos := h.size_pos
    have hsize := h.size
    subst hsize
    have h' : TxOf q.bufferSize b ((q.setBuffer (rqEnqueuedBuffer q src T sz)).setTxOffset (Circ.pos q.bufferSize (T + sz)))
        (T + sz) F := { h with tx := rfl, flushed := by omega, room := by omega }
    refine ⟨_, rqTryEnqueue_fits src h.txAddr hpos h.tx hfit (by omega), .paired _ b h' hB, rfl, rfl, rfl, ?_⟩
    rw [h'.empty hB, he]
    omega

theorem enqueue_full {src : Option (Nat → Byte)} {sz : Nat} {r : Int} (hsz : ¬ sz ≤ rqNbytesEmpty q)
    (he : (rqTryEnqueue q src sz).eval env = some (q', r, env')) :
    ∃ a, (rqFlush q).eval env = some (q', a, env') ∧ (if a < 0 then -1 else 1) = r := by
  simp only [rqTryEnqueue, h.txAddr, ne_eq, not_true_eq_false, if_false, Nat.lt_of_not_le hsz, gt_iff_lt, if_true] at he
  exact Rdma.eval_map_some he

theorem enqueue {src : Option (Nat → Byte)} {sz : Nat}
    (he : (rqTryEnqueue q src sz).eval env = some (q', 0, env')) : TxSide q' (T + sz) F := by
  by_cases hsz : sz ≤ rqNbytesEmpty q
  · obtain ⟨q₁, e, h', -⟩ := h.enqueue_fits src hsz
    rw [e] at he
    cases he
    exact h'
  · obtain ⟨a, -, ha⟩ := h.enqueue_full hsz he
    split at ha <;> cases ha

end TxSide

/-! ## Flushing a paired queue -/

namespace TxOf

variable {B b T F n m : Nat} {q q' : RdmaQueue} {env env' : Nat → Int × Nat} {r : Int} {k : RdmaQueue → Rdma Int}

/-- The writes of a pass, if they do not fail, bring `flush_offset` forward. -/
theorem nflushWrite (h : TxOf B b q T F) (he : (nflushWrite q n k).eval env = some (q', r, env')) (hr : 0 ≤ r) :
    ∃ q₁ env₁, (k q₁).eval env₁ = some (q', r, env') ∧ (F + n ≤ T → TxOf B b q₁ T (F + n)) := by
  have hB := h.size_pos; have hroom := h.room
  rw [TasNic.nflushWrite] at he
  split at he
  · simp only [Rdma.eval] at he
    generalize hb : (if q.flushOffset + n > q.bufferSize then q.bufferSize - q.flushOffset else n) = b1 at he
    have hnext : F + n ≤ T → TxOf B b (q.setFlushOffset (if 0 < n - b1 then n - b1 else q.flushOffset + b1)) T (F + n) := by
      intro hn
      rw [h.size, h.flush] at hb
      refine h.setFlushOffset ?_ hn
      rw [h.flush, split_eq_adv (pos_le hB F) hb, adv_pos hB (by omega)]
    split at he
    · cases he
      omega
    · split at he
      · rename_i h2
        simp only [Rdma.eval] at he
        split at he
        · cases he
          omega
        · rw [if_pos h2] at hnext
          exact ⟨_, _, he, hnext⟩
      · rename_i h2
        rw [if_neg h2] at hnext
        exact ⟨_, _, he, hnext⟩
  · obtain rfl : n = 0 := by omega
    exact ⟨q, env, he, fun _ => h⟩

theorem nflushPublish {total : Nat} (he : (nflushPublish q total).eval env = some (q', r, env')) : q' = q ∧ r = (total : Nat) := by
  rw [TasNic.nflushPublish] at he
  split at he <;> cases he <;> exact ⟨rfl, rfl⟩

theorem nflushLoop_zero {total : Nat} (h : TxOf B b q T F) (he : (nflushLoop 0 q m total).eval env = some (q', r, env'))
    (hr : 0 ≤ r) : ∃ n, r = (total + n : Nat) ∧ (F + n ≤ T → TxOf B b q' T (F + n)) := by
  rw [nflushLoop.eq_def] at he
  obtain ⟨q₁, env₁, he, h₁⟩ := h.nflushWrite he hr
  simp only [ite_self] at he
  obtain ⟨rfl, rfl⟩ := nflushPublish he
  exact ⟨_, rfl, h₁⟩

theorem nflushLoop_one (h : TxOf B b q T F) (hm : F + m ≤ T) (he : (nflushLoop 1 q m 0).eval env = some (q', r, env'))
    (hr : 0 ≤ r) : ∃ n, r = (n : Nat) ∧ (F + n ≤ T → TxOf B b q' T (F + n)) := by
  rw [nflushLoop.eq_def] at he
  obtain ⟨q₁, env₁, he, h₁⟩ := h.nflushWrite he hr
  generalize hn : (if m > rqNbytesMaxFlush q then rqNbytesMaxFlush q else m) = n at he h₁
  have hle : n ≤ m := by rw [← hn]; split <;> omega
  simp only [Nat.zero_add] at he
  split at he
  · obtain ⟨rfl, rfl⟩ := nflushPublish he
    exact ⟨n, rfl, h₁⟩
  · simp only [readRxOffset, Rdma.eval] at he
    split at he
    · cases he
      omega
    · obtain ⟨n', rfl, h'⟩ := ((h₁ (by omega)).setRxOffset _).nflushLoop_zero he hr
      exact ⟨n + n', rfl, fun hn' => by rw [← Nat.add_assoc]; exact h' (by omega)⟩

end TxOf

/-- `rq_nflush`, if it flushes no more bytes than there are. -/
theorem TxSide.nflush {q q' : RdmaQueue} {T F n : Nat} {env env' : Nat → Int × Nat} {r : Int} (h : TxSide q T F)
    (he : (rqNflush q n).eval env = some (q', r, env')) (hr : 0 ≤ r) :
    ∃ m, r = (m : Nat) ∧ (F + m ≤ T → TxSide q' T (F + m)) := by
  cases h with
  | unpaired D h =>
    obtain ⟨q₁, e, h', -⟩ := h.nflush n
    rw [e] at he
    cases he
    exact ⟨_, rfl, fun _ => .unpaired D h'⟩
  | paired B b h hB =>
    have hle := h.flushed
    rw [h.nflush_eq] at he
    obtain ⟨m, e, h'⟩ := h.nflushLoop_one (by omega) he hr
    exact ⟨m, e, fun hm => .paired B b (h' hm) hB⟩

theorem TxSide.dequeue {q : RdmaQueue} {T F n : Nat} {buffer : Bool} {d : Dequeued} (h : TxSide q T F)
    (hd : rqTryDequeue q buffer n = some d) : TxSide d.queue T F := by
  cases h with
  | unpaired D h =>
    by_cases hn : n ≤ F - D
    · obtain ⟨q', e, h', -⟩ := h.possibleDequeue buffer true hn
      rw [rqTryDequeue, e] at hd
      cases hd
      exact .unpaired _ h'
    · rw [rqTryDequeue, h.possibleDequeue_short buffer true (by omega)] at hd
      cases hd
      exact .unpaired D h
  | paired B b h hB =>
    have hset : ∀ o, TxSide (q.setRxOffset o) T F := fun o => .paired B b (h.setRxOffset o) hB
    simp only [rqTryDequeue, rqTryPossibleDequeue, if_true] at hd
    split at hd
    · cases hd
    · split at hd
      · cases hd
        exact .paired B b h hB
      · generalize (if q.rxOffset + n > q.bufferSize then q.bufferSize - q.rxOffset else n) = b1 at hd
        split at hd
        · cases hd
          exact hset _
        · split at hd
          · cases hd
            exact hset _
          · cases hd

end TasNic
