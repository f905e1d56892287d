import TasNic.Rdma.Transmitter

/-!
# Flush accounting

What `rq_nflush` has flushed when it returns, in every state a transmitter's calls can lead to. A flush
of `m` bytes goes up to the cached offset of the receiver, reads the offset again if that was not
enough, and then starts from `m` bytes once more. What it flushes is right if it sees no room or enough
room at first, or if the receiver has made no more room since than what is left (`PassesFit`), and if no
operation returns a positive number, by which nothing is written and which `rq_nflush` takes for success.
-/

namespace TasNic

open Circ RdmaQueue List

/-! ## What is written -/

/-- The cells of the receiver's buffer a program writes to, and the bytes, in order. Only a write
that returns 0 is done: `rdma_write` returns -1, or the error number of `ibv_post_send`. -/
def Rdma.written {α : Type} : Rdma α → (Nat → Int × Nat) → List (Nat × Byte)
  | done _ _, _ => []
  | abort, _ => []
  | write q src dst sz k, env =>
    (match src.field, dst.field, (env 0).1 with
      | .buffer o, .buffer d, 0 => (List.range sz).map fun j => (d + j, q.buffer (o + j))
      | _, _, _ => []) ++ (k (env 0).1).written fun i => env (i + 1)
  | read q _ _ _ k, env => (k (env 0).1 (q.setRxOffset (env 0).2)).written fun i => env (i + 1)

/-- No RDMA operation returns an error number. -/
def NoErrno (env : Nat → Int × Nat) : Prop := ∀ i, (env i).1 ≤ 0

/-- The cells of the ring from the count `F` on, with their bytes. -/
def ringCells (B : Nat) (m : Nat → Byte) (F n : Nat) : List (Nat × Byte) :=
  (List.range n).map fun j => ((F + j) % B, m ((F + j) % B))

theorem ringCells_add (B : Nat) (m : Nat → Byte) (F a b : Nat) :
    ringCells B m F (a + b) = ringCells B m F a ++ ringCells B m (F + a) b := by
  simp [ringCells, range_add, Nat.add_assoc]

theorem map_range_eq_ringCells {B o F n : Nat} (m : Nat → Byte) (ho : o % B = F % B) (hn : o + n ≤ B) :
    (range n).map (fun j => (o + j, m (o + j))) = ringCells B m F n := by
  refine map_congr_left fun j hj => ?_
  have hj := mem_range.mp hj
  rw [Nat.add_mod F, ← ho, ← Nat.add_mod, Nat.mod_eq_of_lt (by omega)]

/-- The RDMA writes of a flush of `n` bytes. -/
def nflushWrites (q : RdmaQueue) (n : Nat) : Nat :=
  if n = 0 then 0 else if q.flushOffset + n > q.bufferSize then 2 else 1

/-- The room a flush sees after it has gone up to the cached offset of the receiver and read
it again. -/
def secondRoom (q : RdmaQueue) (env : Nat → Int × Nat) : Nat :=
  let can := rqNbytesMaxFlush q
  rqNbytesMaxFlush ((q.setFlushOffset (adv q.bufferSize q.flushOffset can)).setRxOffset
    (env (nflushWrites q can)).2)

/-- A flush of `m` bytes sees no room, or enough room, or then no more room than for what is
left. -/
def PassesFit (q : RdmaQueue) (m : Nat) (env : Nat → Int × Nat) : Prop :=
  q.paired = true → rqNbytesMaxFlush q = 0 ∨ m ≤ rqNbytesMaxFlush q ∨
    secondRoom q env ≤ m - rqNbytesMaxFlush q
deriving Decidable

/-! ## The passes -/

def nflushAgain (q : RdmaQueue) (m total : Nat) : Rdma Int :=
  readRxOffset q fun rc q => if rc ≠ 0 then .done q (-1) else nflushLoop 0 q m total

theorem nflushLoop_stale {q : RdmaQueue} {m : Nat} (h : rqNbytesMaxFlush q < m) :
    nflushLoop 1 q m 0 = nflushWrite q (rqNbytesMaxFlush q) (nflushAgain · m (rqNbytesMaxFlush q)) := by
  have hne : ¬ rqNbytesMaxFlush q = m := by omega
  rw [nflushLoop.eq_def]
  simp [h, hne, nflushAgain]

namespace TxOf

variable {B b T F n m : Nat} {q q' : RdmaQueue} {env env' : Nat → Int × Nat} {r : Int}

theorem nflushWrite_cases (h : TxOf B b q T F) (hn : F + n ≤ T) (k : RdmaQueue → Rdma Int) (env : Nat → Int × Nat) :
    (∃ env', (TasNic.nflushWrite q n k).eval env = some (q, -1, env')) ∨
    ((TasNic.nflushWrite q n k).eval env =
        (k (q.setFlushOffset (pos B (F + n)))).eval (fun i => env (i + nflushWrites q n)) ∧
      (NoErrno env → (TasNic.nflushWrite q n k).written env = ringCells B q.buffer F n ++
        (k (q.setFlushOffset (pos B (F + n)))).written fun i => env (i + nflushWrites q n))) := by
  have hB := h.size_pos; have hroom := h.room; have hle := pos_le hB F
  rw [TasNic.nflushWrite]
  split
  · have hne : ¬ n = 0 := by omega
    simp only [nflushWrites, if_neg hne, h.size, h.flush]
    generalize hb : (if pos B F + n > B then B - pos B F else n) = b1
    have hnext := split_eq_adv hle hb
    rw [adv_pos hB (by omega)] at hnext
    have hcells : (range b1).map (fun j => (pos B F + j, q.buffer (pos B F + j))) = ringCells B q.buffer F b1 :=
      map_range_eq_ringCells q.buffer (pos_mod hB F) (by rw [← hb]; split <;> omega)
    simp only [Rdma.eval, Rdma.written]
    by_cases hrc : (env 0).1 < 0
    · simp only [hrc, if_true, Rdma.eval]
      exact .inl ⟨_, rfl⟩
    · by_cases h2 : n - b1 > 0
      · have hlap : pos B F + n > B := by
          by_contra hc
          rw [if_neg hc] at hb
          omega
        have hcells' : (range (n - b1)).map (fun j => (0 + j, q.buffer (0 + j))) =
            ringCells B q.buffer (F + b1) (n - b1) := by
          refine map_range_eq_ringCells q.buffer ?_ (by omega)
          rw [Nat.add_mod F, ← pos_mod hB F, ← Nat.add_mod, ← hb, if_pos hlap, Nat.add_sub_cancel' hle, Nat.mod_self,
            Nat.zero_mod]
        rw [if_pos h2] at hnext
        simp only [if_neg hrc, if_pos h2, if_pos hlap, ← hnext, Rdma.eval, Rdma.written]
        by_cases hrc' : (env (0 + 1)).1 < 0
        · simp only [if_pos hrc', Rdma.eval]
          exact .inl ⟨_, rfl⟩
        · simp only [if_neg hrc']
          refine .inr ⟨trivial, fun hno => ?_⟩
          have h0 : (env 0).1 = 0 := by have := hno 0; omega
          have h1 : (env (0 + 1)).1 = 0 := by have := hno (0 + 1); omega
          simp only [h0, h1, hcells, hcells']
          rw [← append_assoc, ← ringCells_add, show b1 + (n - b1) = n by omega]
      · have hlap : ¬ pos B F + n > B := by
          intro hc
          rw [if_pos hc] at hb
          omega
        have hb1 : b1 = n := by rw [← hb, if_neg hlap]
        rw [if_neg h2] at hnext
        simp only [if_neg hrc, if_neg h2, if_neg hlap, hnext]
        refine .inr ⟨trivial, fun hno => ?_⟩
        have h0 : (env 0).1 = 0 := by have := hno 0; omega
        simp only [h0]
        rw [hcells, hb1]
  · obtain rfl : n = 0 := by omega
    rw [Nat.add_zero, ← h.flush]
    exact .inr ⟨rfl, fun _ => rfl⟩

/-- A flush goes from `q` to `q'` and returns `r`, after `total` bytes before: `k` more bytes
are flushed and, unless it failed, they are counted and those that `p` writes. -/
def Passed (B b T F : Nat) (q q' : RdmaQueue) (total k : Nat) (r : Int) (p : Rdma Int) (env : Nat → Int × Nat) : Prop :=
  TxOf B b q' T (F + k) ∧ q'.buffer = q.buffer ∧
    (0 ≤ r → r = (total + k : Nat) ∧ (NoErrno env → p.written env = ringCells B q.buffer F k))

theorem nflushPublish_eval (q : RdmaQueue) (total : Nat) (env : Nat → Int × Nat) :
    (∃ env', (TasNic.nflushPublish q total).eval env = some (q, (total : Int), env')) ∧
      (TasNic.nflushPublish q total).written env = [] := by
  unfold TasNic.nflushPublish
  split
  · exact ⟨⟨_, rfl⟩, rfl⟩
  · exact ⟨⟨_, rfl⟩, rfl⟩

theorem passed_publish {total : Nat} (h : TxOf B b q T F) (hn : F + n ≤ T)
    (he : (TasNic.nflushWrite q n (TasNic.nflushPublish · (total + n))).eval env = some (q', r, env')) :
    ∃ k ≤ n, Passed B b T F q q' total k r (TasNic.nflushWrite q n (TasNic.nflushPublish · (total + n))) env := by
  rcases h.nflushWrite_cases hn (TasNic.nflushPublish · (total + n)) env with ⟨env₁, e⟩ | ⟨e, ew⟩
  · rw [e] at he
    cases he
    exact ⟨0, Nat.zero_le _, h, rfl, fun hr => by omega⟩
  · obtain ⟨⟨env₂, e₂⟩, ew₂⟩ := nflushPublish_eval (q.setFlushOffset (pos B (F + n))) (total + n)
      fun i => env (i + nflushWrites q n)
    rw [e, e₂] at he
    cases he
    refine ⟨n, Nat.le_refl _, h.setFlushOffset rfl hn, rfl, fun _ => ⟨rfl, fun hno => ?_⟩⟩
    rw [ew hno, ew₂, append_nil]

theorem passed_last {total : Nat} (h : TxOf B b q T F) (hm : F + min m (rqNbytesMaxFlush q) ≤ T)
    (he : (nflushLoop 0 q m total).eval env = some (q', r, env')) :
    ∃ k ≤ min m (rqNbytesMaxFlush q), Passed B b T F q q' total k r (nflushLoop 0 q m total) env := by
  have e : (if m > rqNbytesMaxFlush q then rqNbytesMaxFlush q else m) = min m (rqNbytesMaxFlush q) := by
    split <;> omega
  have hloop : nflushLoop 0 q m total = TasNic.nflushWrite q (min m (rqNbytesMaxFlush q))
      (TasNic.nflushPublish · (total + min m (rqNbytesMaxFlush q))) := by
    rw [nflushLoop.eq_def]
    simp [e]
  rw [hloop] at he ⊢
  exact h.passed_publish hm he

theorem passed_again {total : Nat} (h : TxOf B b q T F)
    (hm : F + min m (rqNbytesMaxFlush (q.setRxOffset (env 0).2)) ≤ T)
    (he : (nflushAgain q m total).eval env = some (q', r, env')) :
    ∃ k ≤ min m (rqNbytesMaxFlush (q.setRxOffset (env 0).2)),
      Passed B b T F q q' total k r (nflushAgain q m total) env := by
  have hset := h.setRxOffset (env 0).2
  simp only [nflushAgain, readRxOffset, Rdma.eval, Passed, Rdma.written] at he ⊢
  by_cases hrc : (env 0).1 = 0
  · simp only [hrc, ne_eq, not_true_eq_false, if_false] at he ⊢
    obtain ⟨k, hk, hq, hbuf, hr⟩ := hset.passed_last hm he
    exact ⟨k, hk, hq, hbuf, fun h0 => (hr h0).imp id fun hw hno => hw fun i => hno (i + 1)⟩
  · simp only [hrc, ne_eq, not_false_eq_true, if_true, Rdma.eval, Option.some.injEq, Prod.mk.injEq] at he
    obtain ⟨rfl, rfl, -⟩ := he
    exact ⟨0, Nat.zero_le _, hset, rfl, fun hr => by omega⟩

theorem passed (h : TxOf B b q T F) (hm : F + m ≤ T) (hfit : PassesFit q m env)
    (he : (nflushLoop 1 q m 0).eval env = some (q', r, env')) :
    ∃ k ≤ m, Passed B b T F q q' 0 k r (nflushLoop 1 q m 0) env := by
  by_cases hall : m ≤ rqNbytesMaxFlush q
  · rw [nflushLoop_fits 1 hall] at he ⊢
    have hpub : (TasNic.nflushPublish · m) = (TasNic.nflushPublish · (0 + m)) := by rw [Nat.zero_add]
    rw [hpub] at he ⊢
    exact h.passed_publish hm he
  · -- the first pass goes up to the cached offset
    have hroom := h.room
    have hcan : F + rqNbytesMaxFlush q ≤ T := by omega
    rw [nflushLoop_stale (Nat.lt_of_not_le hall)] at he ⊢
    rcases h.nflushWrite_cases hcan (nflushAgain · m (rqNbytesMaxFlush q)) env with ⟨env₁, e⟩ | ⟨e, ew⟩
    · rw [e] at he
      cases he
      exact ⟨0, Nat.zero_le _, h, rfl, fun hr => by omega⟩
    · rw [e] at he
      have h₁ := h.setFlushOffset rfl hcan
      have hsecond : rqNbytesMaxFlush q + min m (rqNbytesMaxFlush
          ((q.setFlushOffset (pos B (F + rqNbytesMaxFlush q))).setRxOffset
            (env (0 + nflushWrites q (rqNbytesMaxFlush q))).2)) ≤ m := by
        rcases hfit h.paired with h0 | hm' | hs
        · rw [h0]
          omega
        · exact absurd hm' hall
        · rw [secondRoom, h.size, h.flush, adv_pos h.size_pos (by omega)] at hs
          rw [Nat.zero_add]
          omega
      obtain ⟨k, hk, hq, hbuf, hr⟩ := h₁.passed_again (by omega) he
      refine ⟨rqNbytesMaxFlush q + k, by omega, by rw [← Nat.add_assoc]; exact hq, hbuf, fun h0 => ?_⟩
      obtain ⟨hr, hw⟩ := hr h0
      refine ⟨by rw [hr, Nat.zero_add], fun hno => ?_⟩
      rw [ew hno, hw fun i => hno _, ringCells_add]
      rfl

end TxOf

/-! ## Calls of the transmitter -/

/-- A call of the transmitter with the results of its RDMA operations, or of the receiver of a
queue in shared memory. -/
inductive TxOp where
  | call (c : TxCall) (env : Nat → Int × Nat)
  | canReserve (env : Nat → Int × Nat)
  | dequeue (buffer : Bool) (sz : Nat)

/-- The queue after a call; `none` if it aborts. -/
def txStep (q : RdmaQueue) : TxOp → Option RdmaQueue
  | .call c env => ((c.prog q).eval env).map (·.1)
  | .canReserve env => ((rqNbytesCanReserve q).eval env).map (·.1)
  | .dequeue buffer sz => (rqTryDequeue q buffer sz).map (·.queue)

/-- `PassesFit` for the calls that flush. -/
def txOk (q : RdmaQueue) : TxOp → Prop
  | .call c env => PassesFit q (c.maxFlush q) env
  | .canReserve _ | .dequeue _ _ => True

instance (q : RdmaQueue) : ∀ op, Decidable (txOk q op)
  | .call c env => inferInstanceAs (Decidable (PassesFit q (c.maxFlush q) env))
  | .canReserve _ | .dequeue _ _ => isTrue trivial

namespace TxSide

variable {q q' : RdmaQueue} {T F n : Nat} {env env' : Nat → Int × Nat} {r : Int}

theorem size_pos (h : TxSide q T F) : 0 < q.bufferSize := by
  cases h with
  | unpaired D h => exact h.size_pos
  | paired B b h _ => rw [h.size]; exact h.size_pos

theorem txOffset_eq (h : TxSide q T F) : q.txOffset = pos q.bufferSize T := by
  cases h with
  | unpaired D h => exact h.tx
  | paired B b h _ => rw [h.size]; exact h.tx

theorem flushOffset_eq (h : TxSide q T F) : q.flushOffset = pos q.bufferSize F := by
  cases h with
  | unpaired D h => exact h.flush
  | paired B b h _ => rw [h.size]; exact h.flush

theorem lap (h : TxSide q T F) : T - F ≤ q.bufferSize := by
  cases h with
  | unpaired D h =>
    have := h.lap; have := h.dequeued
    omega
  | paired B b h _ =>
    have := h.room; have := h.size
    omega

/-- `rq_nflush` from the count `F` on: `k` bytes are flushed, and it returns their number or
fails. -/
theorem nflush_fits (h : TxSide q T F) (hfit : PassesFit q (min n (T - F)) env)
    (he : (rqNflush q n).eval env = some (q', r, env')) :
    ∃ k ≤ min n (T - F), TxSide q' T (F + k) ∧ q'.bufferSize = q.bufferSize ∧ q'.buffer = q.buffer ∧
      (q.paired = false → rqNbytesEnqueued q' = rqNbytesEnqueued q + k) ∧ (0 ≤ r → r = (k : Nat) ∧
        (q.paired = true → NoErrno env → (rqNflush q n).written env = ringCells q.bufferSize q.buffer F k)) := by
  cases h with
  | unpaired D h =>
    rw [h.nflush_eq] at he
    cases he
    have h' := h.setFlushOffset (Nat.min_le_right n (T - F))
    have hd := h.dequeued
    refine ⟨_, Nat.le_refl _, .unpaired D h', rfl, rfl, fun _ => ?_, fun _ => ⟨rfl, fun hp => ?_⟩⟩
    · rw [h'.enqueued, h.enqueued]
      omega
    · exact absurd (hp.symm.trans h.unpaired) (by decide)
  | paired B b h hB =>
    have hle := h.flushed
    rw [h.nflush_eq] at he ⊢
    obtain ⟨k, hk, hq, hbuf, hr⟩ := h.passed (by omega) hfit he
    refine ⟨k, hk, .paired B b hq hB, hq.size.trans h.size.symm, hbuf, fun hp => ?_, fun h0 => ?_⟩
    · exact absurd (h.paired.symm.trans hp) (by decide)
    · obtain ⟨hr, hw⟩ := hr h0
      exact ⟨by rw [hr, Nat.zero_add], fun _ hno => by rw [h.size]; exact hw hno⟩

theorem flush_fits (h : TxSide q T F) (hfit : PassesFit q (T - F) env)
    (he : (rqFlush q).eval env = some (q', r, env')) : ∃ F', TxSide q' T F' := by
  rw [rqFlush, h.toFlush] at he
  obtain ⟨k, -, hq, -⟩ := h.nflush_fits (by rw [Nat.min_self]; exact hfit) he
  exact ⟨_, hq⟩

end TxSide

/-- Every call keeps the transmitter's side in order. -/
theorem txStep_txSide (q : RdmaQueue) (op : TxOp) (q' : RdmaQueue) (h : ∃ T F, TxSide q T F) (hok : txOk q op)
    (hs : txStep q op = some q') : ∃ T F, TxSide q' T F := by
  obtain ⟨T, F, h⟩ := h
  cases op with
  | call c env =>
    obtain ⟨⟨q₁, r, env'⟩, he, rfl⟩ := Option.map_eq_some_iff.mp hs
    simp only [txOk] at hok
    cases c with
    | enqueue src sz =>
      by_cases hsz : sz ≤ rqNbytesEmpty q
      · obtain ⟨q₂, e, h', -⟩ := h.enqueue_fits src hsz
        rw [TxCall.prog, e] at he
        cases he
        exact ⟨_, _, h'⟩
      · obtain ⟨a, he', -⟩ := h.enqueue_full hsz he
        rw [TxCall.maxFlush, if_pos (Nat.lt_of_not_le hsz), h.toFlush] at hok
        exact ⟨T, h.flush_fits hok he'⟩
    | nflush n =>
      rw [TxCall.maxFlush, h.toFlush] at hok
      obtain ⟨k, -, hq, -⟩ := h.nflush_fits hok he
      exact ⟨T, _, hq⟩
    | flush =>
      rw [TxCall.maxFlush, h.toFlush] at hok
      exact ⟨T, h.flush_fits hok he⟩
    | reserve n => exact ⟨T, F, h.reread (rqTryReserveFlush_cases he).1⟩
  | canReserve env =>
    obtain ⟨⟨q₁, r, env'⟩, he, rfl⟩ := Option.map_eq_some_iff.mp hs
    exact ⟨T, F, h.canReserve he⟩
  | dequeue buffer sz =>
    obtain ⟨d, hd, rfl⟩ := Option.map_eq_some_iff.mp hs
    exact ⟨T, F, h.dequeue hd⟩

theorem txRun_txSide {q₀ q : RdmaQueue} (hnew : NewTxQueue q₀) {ops : List TxOp} (hok : Run.All txStep txOk q₀ ops)
    (hrun : Run.exec txStep q₀ ops = some q) : ∃ T F, TxSide q T F :=
  Run.exec_inv txStep_txSide ⟨0, 0, hnew.txSide⟩ hok hrun

/-! ## The result -/

/-- A flush of up to `n` bytes that returns `r` has flushed `r` bytes of those that were to be
flushed. It has written them to the receiver, if that has a queue of its own, and the receiver
of a queue in shared memory finds them there. -/
structure FlushedExactly (q q' : RdmaQueue) (n : Nat) (r : Int) (w : List (Nat × Byte)) : Prop where
  bounded : r ≤ min n (rqNbytesToFlush q)
  left : (rqNbytesToFlush q' : Int) + r = rqNbytesToFlush q
  advanced : q'.flushOffset = adv q.bufferSize q.flushOffset r.toNat
  same : q'.txOffset = q.txOffset ∧ q'.buffer = q.buffer
  written : q.paired = true → w = (List.range r.toNat).map fun j =>
    ((q.flushOffset + j) % q.bufferSize, q.buffer ((q.flushOffset + j) % q.bufferSize))
  shared : q.paired = false → (rqNbytesEnqueued q' : Int) = rqNbytesEnqueued q + r

theorem flush_accounting {q₀ q q' : RdmaQueue} (hnew : NewTxQueue q₀) {ops : List TxOp}
    (hok : Run.All txStep txOk q₀ ops) (hrun : Run.exec txStep q₀ ops = some q) {n : Nat} {env env' : Nat → Int × Nat}
    (hfit : PassesFit q (min n (rqNbytesToFlush q)) env) (hno : q.paired = true → NoErrno env) {r : Int}
    (he : (rqNflush q n).eval env = some (q', r, env')) (hr : 0 ≤ r) :
    FlushedExactly q q' n r ((rqNflush q n).written env) := by
  obtain ⟨T, F, h⟩ := txRun_txSide hnew hok hrun
  rw [h.toFlush] at hfit
  obtain ⟨k, hk, h', hsize, hbuf, hshared, hret⟩ := h.nflush_fits hfit he
  obtain ⟨rfl, hw⟩ := hret hr
  have hlap := h.lap
  refine ⟨?_, ?_, ?_, ⟨?_, hbuf⟩, fun hp => ?_, fun hp => ?_⟩
  · rw [h.toFlush]
    exact Int.ofNat_le.mpr hk
  · rw [h.toFlush, h'.toFlush]
    omega
  · rw [h'.flushOffset_eq, h.flushOffset_eq, hsize, Int.toNat_natCast, adv_pos h.size_pos (by omega)]
  · rw [h'.txOffset_eq, h.txOffset_eq, hsize]
  · rw [hw hp (hno hp), ringCells, Int.toNat_natCast]
    refine map_congr_left fun j _ => ?_
    rw [h.flushOffset_eq, Nat.add_mod (pos _ F), pos_mod h.size_pos, ← Nat.add_mod]
  · rw [hshared hp, Int.natCast_add]

/-- A new queue of 24 bytes, paired with a receiver. -/
def pairedQueue : RdmaQueue := (rqPairReceiver (zeroedQueue 4096 24) ⟨8192, 0, 0, 0⟩ 0).1

theorem newTxQueue_paired : NewTxQueue pairedQueue :=
  ⟨4096, fun _ => 0, rdmaQueueHdr + 24, 0, 0, zeroedQueue 4096 24, rfl, by decide, .inr ⟨_, rfl⟩⟩

/-- RDMA operations that succeed and read `o` for the receiver's offset. -/
def receiverAt (o : Nat) : Nat → Int × Nat := fun _ => (0, o)

/-- 16 bytes are flushed, and 12 more enqueued, which lie around the end of the ring. -/
def flushedThenEnqueued : List TxOp :=
  [.call (.enqueue (some countingBytes) 16) (receiverAt 0), .call .flush (receiverAt 0),
    .call (.enqueue (some countingBytes) 12) (receiverAt 0)]

/-- The receiver has taken 4 bytes: the two passes flush 8 and 4 bytes. -/
theorem flush_accounting_two_passes :
    ∃ q q' env', Run.exec txStep pairedQueue flushedThenEnqueued = some q ∧
      (rqNflush q 12).eval (receiverAt 4) = some (q', 12, env') ∧
      FlushedExactly q q' 12 12 ((rqNflush q 12).written (receiverAt 4)) := by
  obtain ⟨q, hq, hfit, ⟨q', _, env'⟩, he, rfl⟩ : ∃ q, Run.exec txStep pairedQueue flushedThenEnqueued = some q ∧
      PassesFit q (min 12 (rqNbytesToFlush q)) (receiverAt 4) ∧
      ∃ x, (rqNflush q 12).eval (receiverAt 4) = some x ∧ x.2.1 = 12 := by decide +kernel
  exact ⟨q, q', env', hq, he, flush_accounting newTxQueue_paired (by decide +kernel) hq hfit
    (fun _ _ => Int.le_refl 0) he (by decide)⟩

/-- The receiver has taken all 16 bytes: the second pass flushes the 12 bytes asked for again
after the 8 of the first pass, and `flush_offset` overtakes `tx.offset`. -/
theorem flush_counts_first_pass_again :
    ¬ ∀ (q₀ q q' : RdmaQueue) (ops : List TxOp) (n : Nat) (env env' : Nat → Int × Nat) (r : Int),
      NewTxQueue q₀ → Run.exec txStep q₀ ops = some q → (rqNflush q n).eval env = some (q', r, env') → 0 ≤ r →
      FlushedExactly q q' n r ((rqNflush q n).written env) := by
  intro h
  obtain ⟨q, hq, ⟨q', _, env'⟩, he, rfl⟩ : ∃ q, Run.exec txStep pairedQueue flushedThenEnqueued = some q ∧
      ∃ x, (rqNflush q 12).eval (receiverAt 16) = some x ∧ x.2.1 = 20 := by decide +kernel
  have hbounded := (h _ q q' flushedThenEnqueued 12 _ env' 20 newTxQueue_paired hq he (by decide)).bounded
  omega

end TasNic
