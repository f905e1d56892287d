import TasNic.Fast.QmanRate

/-!
# The order of queues with a rate

`poll_skiplist` takes the first queue of the skip list for as long as its time stamp is not later than the virtual time that
may be reached, and puts it back with a later one. The virtual time follows the queues taken, so that
they come in the order of their time stamps, seen from where the virtual time was at the start
(`OrderInv.take`), and what is left at the end is later (`poll_skiplist_in_order`).
-/

namespace TasNic

open Serial List

/-- The queue that a turn of `poll_skiplist` takes, as it is then. -/
def takenQueue (s : PollState) : Option (Nat × QmanQueue) := (s.t.skip.head 0).map fun idx => (idx, s.t.queues idx)

/-- The queues that a call of `poll_skiplist` takes. -/
def skiplistTaken (t : QmanThread) (ts : BitVec 32) (num : Nat) : List (Nat × QmanQueue) :=
  (Run.visited (skiplistTurn (t.tsVirtual + (ts - t.tsReal)) num) (pollTurns num) ⟨t, []⟩).filterMap takenQueue

/-- What is reported of a queue taken: it was let to send at its time stamp, if it had bytes. -/
def firedOf (x : Nat × QmanQueue) : List Fired :=
  if x.2.avail = 0 then [] else [⟨x.1, (fireBytes x.2).setWidth 16, x.2.nextTs⟩]

/-- A poll from `t` up to `maxVts` took these queues and came to `s`. Times are seen from the virtual time at the start.
The queues with bytes are in the lists at the end, and those not taken are as they were. -/
structure InOrder (t : QmanThread) (maxVts : BitVec 32) (num : Nat) (taken : List (Nat × QmanQueue)) (s : PollState) : Prop where
  fires : s.out = taken.flatMap firedOf
  atMost : s.out.length ≤ num
  sorted : taken.Pairwise fun a b => t.ahead a.2.nextTs ≤ t.ahead b.2.nextTs
  due : ∀ x ∈ taken, t.ahead x.2.nextTs ≤ t.ahead maxVts
  left : s.out.length = num ∨ ∀ i, (s.t.queues i).inSkiplist = true → t.ahead maxVts < t.ahead (s.t.queues i).nextTs
  reached : t.ahead s.t.tsVirtual ≤ t.ahead maxVts
  listed : ∃ S N, QmanInv s.t S N none
  kept : ∀ i, i ∉ taken.map Prod.fst → s.t.queues i = t.queues i

/-- The loop has taken these queues, up to the virtual time of `s`. -/
structure OrderInv (t : QmanThread) (maxVts : BitVec 32) (num : Nat) (taken : List (Nat × QmanQueue)) (s : PollState) : Prop where
  fires : s.out = taken.flatMap firedOf
  atMost : s.out.length ≤ num
  sorted : taken.Pairwise fun a b => t.ahead a.2.nextTs ≤ t.ahead b.2.nextTs
  past : ∀ x ∈ taken, t.ahead x.2.nextTs ≤ t.ahead s.t.tsVirtual
  clock : t.ahead s.t.tsVirtual + s.t.ahead maxVts = t.ahead maxVts
  kept : ∀ i, i ∉ taken.map Prod.fst → s.t.queues i = t.queues i

section Order

variable {t : QmanThread} {S : Nat → List Nat} {N : List Nat} {maxVts ts : BitVec 32} {num : Nat}
  {taken : List (Nat × QmanQueue)} {s s' : PollState}

section

variable (h : OrderInv t maxVts num taken s)

include h

theorem OrderInv.take {idx : Nat} (hnum : s.out.length < num)
    (hle : s.t.key idx ≤ s.t.ahead maxVts) (hs : Served s s' idx (s.t.queues idx).nextTs) :
    OrderInv t maxVts num (taken ++ [(idx, s.t.queues idx)]) s' := by
  obtain ⟨hv, hclock⟩ := clock_advance h.clock hle
  have hsame : t.ahead (s.t.queues idx).nextTs = t.ahead s.t.tsVirtual + s.t.key idx := hv
  have hpast : ∀ x ∈ taken, t.ahead x.2.nextTs ≤ t.ahead (s.t.queues idx).nextTs := by
    intro x hx
    have := h.past x hx
    omega
  refine ⟨?_, ?_, ?_, ?_, ?_, fun i hi => ?_⟩
  · rw [hs.out, h.fires, flatMap_append, flatMap_singleton, firedOf]
  · rw [hs.out, length_append]
    split
    · exact Nat.le_of_lt hnum
    · exact hnum
  · refine pairwise_append.mpr ⟨h.sorted, pairwise_singleton .., fun x hx y hy => ?_⟩
    rw [mem_singleton.mp hy]
    exact hpast x hx
  · intro x hx
    rw [hs.tsVirtual]
    rcases mem_append.mp hx with hx | hx
    · exact hpast x hx
    · rw [mem_singleton.mp hx]
  · rw [QmanThread.ahead, QmanThread.ahead, hs.tsVirtual]
    exact hclock
  · rw [map_append, mem_append, not_or, map_singleton, mem_singleton] at hi
    rw [hs.queues, Function.update_of_ne hi.2]
    exact h.kept i hi.1

theorem OrderInv.advance {v : BitVec 32} (hle : s.t.ahead v ≤ s.t.ahead maxVts)
    (hout : s'.out = s.out) (hv : s'.t.tsVirtual = v) (hq : s'.t.queues = s.t.queues) :
    OrderInv t maxVts num taken s' := by
  obtain ⟨hadd, hclock⟩ := clock_advance h.clock hle
  refine ⟨hout.trans h.fires, hout ▸ h.atMost, h.sorted, fun x hx => ?_, ?_, hq ▸ h.kept⟩
  · have hpast := h.past x hx
    have hsame : t.ahead s'.t.tsVirtual = t.ahead s.t.tsVirtual + s.t.ahead v := hv ▸ hadd
    omega
  · rw [QmanThread.ahead, QmanThread.ahead, hv]
    exact hclock

theorem OrderInv.later (hmax : t.ahead maxVts < 2 ^ 31) {i : Nat}
    (hnear : s.t.key i < 2 ^ 31) (hlt : s.t.ahead maxVts < s.t.key i) : t.ahead maxVts < t.ahead (s.t.queues i).nextTs := by
  have hclock := h.clock
  have hsum : t.ahead s.t.tsVirtual + s.t.key i < 2 ^ 32 := by omega
  have hadd : t.ahead (s.t.queues i).nextTs = t.ahead s.t.tsVirtual + s.t.key i := toNat_sub_add_sub hsum
  omega

theorem OrderInv.ahead_lt (hmax : t.ahead maxVts < 2 ^ 31) : s.t.ahead maxVts < 2 ^ 31 := by
  have hclock := h.clock
  omega

end

theorem skiplistLoop_in_order (h : QmanInv t S N none) (hmax : t.ahead maxVts < 2 ^ 31) (num : Nat) :
    ∃ s S' N', Run.loop (skiplistTurn maxVts num) (pollTurns num) ⟨t, []⟩ = some s ∧ QmanInv s.t S' N' none ∧
      OrderInv t maxVts num
        ((Run.visited (skiplistTurn maxVts num) (pollTurns num) ⟨t, []⟩).filterMap takenQueue) s ∧
      (s.out.length = num ∨ ∀ i ∈ S' 0, t.ahead maxVts < t.ahead (s.t.queues i).nextTs) := by
  -- the invariant of the loop, and what holds at its end
  let I (past : List PollState) (s : PollState) (n : Nat) := ∃ S N, QmanInv s.t S N none ∧
    OrderInv t maxVts num (past.filterMap takenQueue) s ∧ n = pollRank num s (S 0)
  let J (past : List PollState) (s : PollState) := ∃ S N, QmanInv s.t S N none ∧
    OrderInv t maxVts num (past.filterMap takenQueue) s ∧
    (s.out.length = num ∨ ∀ i ∈ S 0, t.ahead maxVts < t.ahead (s.t.queues i).nextTs)
  have hstart : OrderInv t maxVts num [] ⟨t, []⟩ := by
    refine ⟨rfl, Nat.zero_le _, List.Pairwise.nil, fun _ hx => absurd hx not_mem_nil, ?_, fun _ _ => rfl⟩
    rw [ahead_tsVirtual, Nat.zero_add]
  have hlen := (h.linked.length_le h.marked).1
  have hloop : ∃ s, Run.loop (skiplistTurn maxVts num) (pollTurns num) ⟨t, []⟩ = some s ∧
      J (Run.visited (skiplistTurn maxVts num) (pollTurns num) ⟨t, []⟩) s := by
    refine Run.loop_total_visited (I := I) (J := J) (p := []) (fun past s n hI => ?_) ⟨S, N, h, hstart, rfl⟩ (pollRank_turns hlen)
    obtain ⟨S, N, h, ho, rfl⟩ := hI
    rcases skiplistTurn_inv h (ho.ahead_lt hmax) with
      ⟨hnum, e⟩ | ⟨hlt, hnum, e⟩ | ⟨s', S', N', idx, e, h', hnum, hhead, hi, hfirst, hle, hs, hp⟩
    · exact .inr ⟨s, e, S, N, h, ho, .inl (Nat.le_antisymm ho.atMost hnum)⟩
    · exact .inr ⟨_, e, S, N, h.advance fun i hi => Nat.le_of_lt (hlt i hi), ho.advance (Nat.le_refl _) rfl rfl rfl,
        .inr fun i hi => ho.later hmax (h.timed.near i hi) (hlt i hi)⟩
    · refine .inl ⟨s', _, e, ⟨S', N', h', ?_, rfl⟩, pollRank_lt hnum (h'.linked.length_le h'.marked).1 hp⟩
      rw [filterMap_append, filterMap_cons, takenQueue, hhead, Option.map_some, filterMap_nil]
      exact ho.take hnum hle hs
  obtain ⟨s, e, S', N', hJ⟩ := hloop
  exact ⟨s, S', N', e, hJ⟩

end Order

/-- `poll_skiplist` ends, and lets queues send in the order of their time stamps: those that it takes and that have bytes, none later
than the virtual time that may be reached. No queue that is not later is left, unless as many were let to send as asked for.
The lists still hold every queue with bytes, and the poll has changed only queues that it took. -/
theorem poll_skiplist_in_order {t : QmanThread} {S : Nat → List Nat} {N : List Nat} (h : QmanInv t S N none) {ts : BitVec 32}
    (hts : (ts - t.tsReal).toNat < 2 ^ 31) (num : Nat) :
    ∃ s, pollSkiplist t ts num = some s ∧ InOrder t (t.tsVirtual + (ts - t.tsReal)) num (skiplistTaken t ts num) s := by
  have hmax : t.ahead (t.tsVirtual + (ts - t.tsReal)) < 2 ^ 31 := by
    rw [QmanThread.ahead, BitVec.add_comm, BitVec.add_sub_cancel]
    exact hts
  rw [skiplistTaken, pollSkiplist]
  generalize t.tsVirtual + (ts - t.tsReal) = maxVts at hmax ⊢
  obtain ⟨s, S', N', e, h', ho, hleft⟩ := skiplistLoop_in_order h hmax num
  rw [e, Option.map_some]
  refine ⟨_, rfl, ?_⟩
  -- the virtual time at the end, whichever way it is set
  generalize hv : (if s.out.length = num then limitVts s.t maxVts else s.t.tsVirtual) = v
  have hle : s.t.ahead v ≤ s.t.ahead maxVts ∧ ∀ i ∈ S' 0, s.t.ahead v ≤ s.t.key i := by
    rw [← hv]
    split
    · exact limitVts_le h' (ho.ahead_lt hmax)
    · rw [ahead_tsVirtual]
      exact ⟨Nat.zero_le _, fun _ _ => Nat.zero_le _⟩
  have hend : OrderInv t maxVts num _ ⟨{ s.t with tsVirtual := v, tsReal := ts }, s.out⟩ := ho.advance hle.1 rfl rfl rfl
  have hreached : t.ahead v ≤ t.ahead maxVts := Nat.le.intro hend.clock
  refine ⟨hend.fires, hend.atMost, hend.sorted, fun x hx => Nat.le_trans (hend.past x hx) hreached, ?_, hreached,
    ⟨S', N', (h'.advance hle.2).relabel ts s.t.nolimitFirst⟩, hend.kept⟩
  exact hleft.imp_right fun hlater i hi => hlater i ((h'.marked.inSkip i).mpr hi)

/-- Two queues with rates, one of which is let to send twice. -/
def orderOps : List QmanOp :=
  [.set ⟨0, 6000, 2896, 1448, qmanSetRate ||| qmanSetMaxchunk ||| qmanSetAvail⟩,
    .set ⟨1, 12000, 5000, 1448, qmanSetRate ||| qmanSetMaxchunk ||| qmanSetAvail⟩]

theorem poll_skiplist_in_order_two : ∃ t, Run.exec qmanStep (qmanThreadInit 0 (fun _ => 8) true) orderOps = some t ∧
    ∃ s, pollSkiplist t 1000000 3 = some s ∧
      InOrder t (t.tsVirtual + (1000000 - t.tsReal)) 3 (skiplistTaken t 1000000 3) s := by
  have hok : Run.All qmanStep qmanOk (qmanThreadInit 0 (fun _ => 8) true) orderOps := by decide +kernel
  have hstep : ∀ t op t', (∃ S N, QmanInv t S N none) → qmanOk t op → qmanStep t op = some t' → ∃ S N, QmanInv t' S N none := by
    rintro t op t' ⟨S, N, h⟩ hop e
    obtain ⟨t'', S', N', e', h'⟩ := qmanStep_inv h hop
    cases e.symm.trans e'
    exact ⟨S', N', h'⟩
  obtain ⟨t, e, hreal⟩ : ∃ t, Run.exec qmanStep (qmanThreadInit 0 (fun _ => 8) true) orderOps = some t ∧
      (1000000 - t.tsReal).toNat < 2 ^ 31 := by decide +kernel
  obtain ⟨S, N, h⟩ := Run.exec_inv (I := fun t => ∃ S N, QmanInv t S N none) hstep
    ⟨_, _, qmanThreadInit_inv 0 (fun _ => 8) true⟩ hok e
  exact ⟨t, e, poll_skiplist_in_order h hreal 3⟩

end TasNic
