import TasNic.Fast.Qman
import TasNic.Lib.RoundRobin
import Mathlib.Data.List.Perm.Subperm

/-!
# The lists of the queue manager

The invariant of the queue manager (`QmanInv`). Time stamps are compared relative to the virtual
time, `t.key i` ahead of it. Those in the skip list are less than `2³¹` ahead, because a queue is
put there with at most the time its `max_chunk` takes at its rate (`queueClampTs_ahead`), and the
virtual time does not pass any of them.
-/

namespace TasNic

open Function SkipList IdxList Serial List Option QmanThread

/-! ## Time stamps -/

theorem relTime_apart (cur ts : BitVec 32) : Apart 32 cur.toNat ts.toNat (relTime cur ts) := by
  unfold relTime Apart
  dsimp only
  split_ifs <;> omega

theorem relTime_near {cur ts : BitVec 32} (h : (ts - cur).toNat < 2 ^ 31) : relTime cur ts = (ts - cur).toNat := by
  have h₁ := toNat_sub_cases ts cur
  obtain ⟨h₂, h₃⟩ := relTime_apart cur ts
  omega

theorem relTime_far {cur ts : BitVec 32} (h : 2 ^ 31 ≤ (ts - cur).toNat) : relTime cur ts < 0 ∨ relTime cur ts = 2 ^ 31 := by
  have h₁ := toNat_sub_cases ts cur
  obtain ⟨h₂, h₃⟩ := relTime_apart cur ts
  omega

theorem relTime_self (cur : BitVec 32) : relTime cur cur = 0 := by
  rw [relTime_near (by simp)]
  simp

/-- How far ahead of the virtual time a time stamp is. -/
def QmanThread.ahead (t : QmanThread) (ts : BitVec 32) : Nat := (ts - t.tsVirtual).toNat

/-- How far ahead of the virtual time a queue's time stamp is. -/
def QmanThread.key (t : QmanThread) (i : Nat) : Nat := t.ahead (t.queues i).nextTs

variable {t : QmanThread} {q : QmanQueue} {idx : Nat} {S : Nat → List Nat} {N : List Nat}

theorem lessthaneq_near {a b : BitVec 32} (ha : t.ahead a < 2 ^ 31) (hb : t.ahead b < 2 ^ 31) :
    t.lessthaneq a b = decide (t.ahead a ≤ t.ahead b) := by
  rw [lessthaneq, relTime_near ha, relTime_near hb, decide_eq_decide]
  exact Int.ofNat_le

/-- The time some bytes take at the rate of a queue. -/
def QmanQueue.cost (q : QmanQueue) (bytes : Nat) : Nat := bytes * 8 * 1000000 / q.rate.toNat

theorem ahead_queueNewTs (t : QmanThread) (q : QmanQueue) {bytes : BitVec 32} (h : q.cost bytes.toNat < 2 ^ 32) :
    t.ahead (queueNewTs t q bytes) = q.cost bytes.toNat := by
  have hv := ofNat_toNat t.tsVirtual
  rw [ahead, queueNewTs, BitVec.ofNat_add, hv, BitVec.add_comm, BitVec.add_sub_cancel]
  exact toNat_ofNat_of_lt h

/-- The rate of a queue with bytes to send is high enough for its `max_chunk` to
take less than `2³¹`. -/
def RateOk (q : QmanQueue) : Prop := q.avail ≠ 0 → q.rate ≠ 0 → q.cost q.maxChunk.toNat < 2 ^ 31
deriving Decidable

theorem RateOk.congr {q' : QmanQueue} (h : RateOk q) (hr : q'.rate = q.rate) (hm : q'.maxChunk = q.maxChunk)
    (ha : q'.avail ≠ 0 → q.avail ≠ 0) : RateOk q' := by
  intro ha' hr'
  rw [QmanQueue.cost, hr, hm]
  exact h (ha ha') (hr ▸ hr')

/-- A queue is put into the skip list with its own time stamp if it is near,
but at most the time `max_chunk` takes. -/
theorem queueClampTs_ahead (h : q.cost q.maxChunk.toNat < 2 ^ 31) :
    t.ahead (queueClampTs t q) ≤ q.cost q.maxChunk.toNat ∧
      (t.ahead q.nextTs < 2 ^ 31 → t.ahead (queueClampTs t q) = min (t.ahead q.nextTs) (q.cost q.maxChunk.toNat)) := by
  have hm : (q.maxChunk.setWidth 32).toNat = q.maxChunk.toNat := toNat_setWidth32 _
  have hmax : t.ahead (queueNewTs t q (q.maxChunk.setWidth 32)) = q.cost q.maxChunk.toNat := by
    rw [ahead_queueNewTs _ _ (by rw [hm]; omega), hm]
  have hself : t.ahead t.tsVirtual = 0 := by simp [ahead]
  simp only [queueClampTs]
  by_cases hnear : t.ahead q.nextTs < 2 ^ 31
  · rw [lessthaneq_near hnear (by omega), lessthaneq_near hnear (by omega), hself, hmax]
    split
    · rename_i h₁
      rw [hself]
      rw [decide_eq_true_eq] at h₁
      omega
    split
    · rename_i h₁ h₂
      rw [hmax]
      simp only [Bool.not_eq_true', decide_eq_false_iff_not] at h₂
      omega
    · rename_i h₁ h₂
      simp only [Bool.not_eq_true', decide_eq_false_iff_not, Decidable.not_not] at h₂
      omega
  · refine ⟨?_, fun h' => absurd h' hnear⟩
    have hfar := relTime_far (Nat.le_of_not_lt hnear)
    have hmaxr : relTime t.tsVirtual (queueNewTs t q (q.maxChunk.setWidth 32)) = q.cost q.maxChunk.toNat := by
      rw [relTime_near (show t.ahead _ < _ by omega)]
      exact congrArg _ hmax
    simp only [lessthaneq, relTime_self, hmaxr]
    split
    · rw [hself]
      exact Nat.zero_le _
    split
    · omega
    · rename_i h₁ h₂
      simp only [Bool.not_eq_true', decide_eq_false_iff_not, Decidable.not_not, decide_eq_true_eq] at h₁ h₂
      omega

/-! ## The invariant -/

/-- The levels `S` of the skip list, and the no-limit list `N`. -/
structure Linked (t : QmanThread) (S : Nat → List Nat) (N : List Nat) : Prop where
  rep : Rep skiplistLevels t.skip S
  nolimit : Chain (t.skip.next 0) t.nolimitHeadIdx N
  tail : t.nolimitTailIdx = N.getLast?

/-- Flags say which of the lists `A` and `N` a queue is in, and one with bytes
to send is in one of them, but for `hole`. -/
structure Marked (queues : Nat → QmanQueue) (A N : List Nat) (hole : Option Nat) : Prop where
  inSkip : ∀ i, i ∈ A ↔ (queues i).inSkiplist = true
  inNo : ∀ i, i ∈ N ↔ (queues i).inNolimitl = true
  disjoint : ∀ i ∈ A, i ∉ N
  active : ∀ i, hole ≠ some i → (queues i).avail ≠ 0 → i ∈ A ∨ i ∈ N
  bound : ∀ i, i ∈ A ∨ i ∈ N → i < numQmqueues
  rates : ∀ i, RateOk (queues i)

/-- The time stamps of the queues in `A` are near, and in order. -/
structure Timed (t : QmanThread) (A : List Nat) : Prop where
  near : ∀ i ∈ A, t.key i < 2 ^ 31
  sorted : A.Pairwise fun i j => t.key i ≤ t.key j

structure QmanInv (t : QmanThread) (S : Nat → List Nat) (N : List Nat) (hole : Option Nat) : Prop where
  linked : Linked t S N
  marked : Marked t.queues (S 0) N hole
  timed : Timed t (S 0)

section Parts

variable {t t' : QmanThread} {queues : Nat → QmanQueue} {S : Nat → List Nat} {A A' N N' : List Nat}
  {hole hole' : Option Nat} {idx : Nat} {q : QmanQueue}

theorem Marked.update (h : Marked queues A N hole) (hh : ∀ i, i ≠ idx → hole ≠ some i)
    (hA : ∀ i, i ≠ idx → (i ∈ A' ↔ i ∈ A)) (hN : ∀ i, i ≠ idx → (i ∈ N' ↔ i ∈ N))
    (hs : idx ∈ A' ↔ q.inSkiplist = true) (hn : idx ∈ N' ↔ q.inNolimitl = true) (hd : idx ∈ A' → idx ∉ N')
    (ha : hole' ≠ some idx → q.avail ≠ 0 → idx ∈ A' ∨ idx ∈ N') (hb : idx ∈ A' ∨ idx ∈ N' → idx < numQmqueues)
    (hr : RateOk q) : Marked (Function.update queues idx q) A' N' hole' := by
  refine ⟨fun i => ?_, fun i => ?_, fun i => ?_, fun i => ?_, fun i => ?_, fun i => ?_⟩ <;> by_cases he : i = idx
  · rw [he, update_self, hs]
  · rw [update_of_ne he, hA i he, h.inSkip]
  · rw [he, update_self, hn]
  · rw [update_of_ne he, hN i he, h.inNo]
  · rw [he]
    exact hd
  · rw [hA i he, hN i he]
    exact h.disjoint i
  · rw [he, update_self]
    exact ha
  · rw [update_of_ne he, hA i he, hN i he]
    exact fun _ => h.active i (hh i he)
  · rw [he]
    exact hb
  · rw [hA i he, hN i he]
    exact h.bound i
  · rw [he, update_self]
    exact hr
  · rw [update_of_ne he]
    exact h.rates i

theorem Marked.close (h : Marked queues A N (some idx)) (ha : (queues idx).avail ≠ 0 → idx ∈ A ∨ idx ∈ N) :
    Marked queues A N none := by
  refine { h with active := fun i _ hi => ?_ }
  by_cases he : i = idx
  · subst he
    exact ha hi
  · exact h.active i (by simpa using Ne.symm he) hi

theorem Marked.flags_false (h : Marked queues A N hole) (hA : idx ∉ A) (hN : idx ∉ N) :
    (queues idx).inSkiplist = false ∧ (queues idx).inNolimitl = false := by
  rw [h.inSkip, Bool.not_eq_true] at hA
  rw [h.inNo, Bool.not_eq_true] at hN
  exact ⟨hA, hN⟩

theorem Timed.congr (h : Timed t A) (hk : ∀ i ∈ A, t'.key i = t.key i) : Timed t' A :=
  ⟨fun i hi => hk i hi ▸ h.near i hi, h.sorted.imp_of_mem fun hi hj hle => by rwa [hk _ hi, hk _ hj]⟩

theorem QmanThread.key_of_ne {i : Nat} (h : i ≠ idx) (hq : t'.queues = Function.update t.queues idx q)
    (hv : t'.tsVirtual = t.tsVirtual) : t'.key i = t.key i := by
  simp [key, ahead, hq, hv, update_of_ne h]

theorem Linked.length_le (h : Linked t S N) (hm : Marked queues (S 0) N hole) :
    (S 0).length ≤ numQmqueues ∧ N.length ≤ numQmqueues := by
  have hle : ∀ l : List Nat, l.Nodup → (∀ i ∈ l, i < numQmqueues) → l.length ≤ numQmqueues := by
    intro l hl hb
    have := (List.Nodup.subperm hl fun i hi => mem_range.mpr (hb i hi)).length_le
    rwa [length_range] at this
  exact ⟨hle _ (h.rep.chain 0 (by decide)).nodup fun i hi => hm.bound i (.inl hi),
    hle _ h.nolimit.nodup fun i hi => hm.bound i (.inr hi)⟩

theorem Linked.append_nolimit (h : Linked t S N) (hm : ∀ i ∈ S 0, i ∉ N) (hS : idx ∉ S 0) (hN : idx ∉ N)
    (hq : (t.queues idx).inSkiplist = false ∧ (t.queues idx).inNolimitl = false) :
    ∃ t', queueActivateNolimit t idx = some t' ∧ Linked t' S (N ++ [idx]) ∧
      t'.queues = Function.update t.queues idx { t.queues idx with inNolimitl := true } ∧
      t'.tsVirtual = t.tsVirtual ∧ t'.tsReal = t.tsReal := by
  -- links of queues that are not in the skip list do not matter to it
  have hskip : ∀ n : Nat → Option Nat, (∀ i ∈ S 0, n i = t.skip.next 0 i) →
      Rep skiplistLevels { t.skip with next := Function.update t.skip.next 0 n } S := by
    intro n hn
    refine h.rep.congr (fun l hl i hi => ?_) fun _ _ => rfl
    by_cases hl0 : l = 0
    · subst hl0
      simp only [update_self]
      exact hn i hi
    · simp [update_of_ne hl0]
  simp only [queueActivateNolimit, hq.1, hq.2, Bool.or_self, Bool.false_eq_true, if_false, setQueue, h.tail]
  rcases eq_nil_or_concat N with rfl | ⟨M, p, rfl⟩
  · refine ⟨_, rfl, ⟨hskip _ fun i hi => ?_, ?_, rfl⟩, rfl, rfl, rfl⟩
    · exact update_of_ne (ne_of_mem_of_not_mem hi hS) ..
    · simp [Links.setNext]
  · rw [concat_eq_append] at h hN hm ⊢
    have hc := h.nolimit.insert_after hN
    rw [h.nolimit.after] at hc
    simp only [getLast?_concat, Links.setNext, update_self, update_idem]
    refine ⟨_, rfl, ⟨hskip _ fun i hi => ?_, ?_, ?_⟩, rfl, rfl, rfl⟩
    · have hip : i ≠ p := fun e => hm i hi (by simp [e])
      rw [update_of_ne hip, update_of_ne (ne_of_mem_of_not_mem hi hS)]
    · simpa using hc
    · simp

variable {before : Nat → Bool}

theorem Linked.insert_skiplist (h : Linked t S N) (hm : ∀ i ∈ S 0, i ∉ N) (hS : idx ∉ S 0) (hN : idx ∉ N)
    (hf : Front before (S 0)) {pred : Nat → Option Nat} (hp : ∀ l < skiplistLevels, pred l = ((S l).filter before).getLast?)
    (level : Nat) (hskip : t'.skip = link pred idx level skiplistLevels t.skip)
    (hhead : t'.nolimitHeadIdx = t.nolimitHeadIdx) (htail : t'.nolimitTailIdx = t.nolimitTailIdx) :
    Linked t' (fun l => if level < l then S l else insertAt before idx (S l)) N := by
  refine ⟨?_, ?_, htail.trans h.tail⟩
  · rw [hskip]
    exact h.rep.link hf hS hp
  · rw [hskip, hhead]
    exact h.nolimit.congr fun i hi =>
      link_next_of_not_mem h.rep hp (fun hiS => hm i hiS hi) (ne_of_mem_of_not_mem hi hN)

theorem Timed.front (h : Timed t A) {k : Nat} (hb : ∀ i ∈ A, before i = decide (t.key i ≤ k)) :
    Front before A :=
  h.sorted.imp_of_mem fun {a b} ha hb' hle hbb => by
    rw [hb b hb', decide_eq_true_eq] at hbb
    rw [hb a ha, decide_eq_true_eq]
    omega

theorem Timed.insertAt (h : Timed t A) (hA : idx ∉ A) (hq : t'.queues = Function.update t.queues idx q)
    (hv : t'.tsVirtual = t.tsVirtual) (hk : t'.key idx < 2 ^ 31) (hb : ∀ i ∈ A, before i = decide (t.key i ≤ t'.key idx)) :
    Timed t' (SkipList.insertAt before idx A) := by
  have hkey : ∀ i ∈ A, t'.key i = t.key i := fun i hi => key_of_ne (ne_of_mem_of_not_mem hi hA) hq hv
  have h' := h.congr hkey
  refine ⟨fun i hi => ?_, pairwise_insertAt h'.sorted (h.front hb) (fun a ha hba => ?_) fun a ha hba => ?_⟩
  · rcases mem_insertAt.mp hi with rfl | hi
    · exact hk
    · exact h'.near i hi
  · rw [hb a ha, decide_eq_true_eq] at hba
    rwa [hkey a ha]
  · rw [hb a ha, decide_eq_false_iff_not] at hba
    rw [hkey a ha]
    omega

theorem Timed.advance (h : Timed t A) {v : BitVec 32} (hv : ∀ i ∈ A, t.ahead v ≤ t.key i) (htv : t'.tsVirtual = v)
    (hts : ∀ i ∈ A, (t'.queues i).nextTs = (t.queues i).nextTs) :
    Timed t' A ∧ ∀ i ∈ A, t'.key i = t.key i - t.ahead v := by
  have hkey : ∀ i ∈ A, t'.key i = t.key i - t.ahead v := by
    intro i hi
    have e : (t.queues i).nextTs - v = (t.queues i).nextTs - t.tsVirtual - (v - t.tsVirtual) := by grind
    rw [key, ahead, hts i hi, htv, e]
    exact toNat_sub_of_le (hv i hi)
  refine ⟨⟨fun i hi => ?_, h.sorted.imp_of_mem fun hi hj hle => ?_⟩, hkey⟩
  · have := h.near i hi
    rw [hkey i hi]
    omega
  · rw [hkey _ hi, hkey _ hj]
    omega

end Parts

/-! ## Activating -/

/-- The queue `queue_activate` leaves. -/
def activatedQueue (t : QmanThread) (q : QmanQueue) : QmanQueue :=
  if q.rate = 0 then { q with inNolimitl := true } else { q with nextTs := queueClampTs t q, inSkiplist := true }

/-- What `queue_activate_skiplist` does once it has found the place. -/
theorem queueActivateSkiplist_eq {ts : BitVec 32} {pred : Nat → Option Nat}
    (hf : (t.queues idx).inSkiplist = false ∧ (t.queues idx).inNolimitl = false) (hts : queueClampTs t (t.queues idx) = ts)
    (hp : preds t.skip (fun i => t.lessthaneq (update t.queues idx { t.queues idx with nextTs := ts } i).nextTs ts)
      (numQmqueues + 1) skiplistLevels none = some pred) :
    queueActivateSkiplist t idx = some
      { t with
        queues := update t.queues idx { t.queues idx with nextTs := ts, inSkiplist := true }
        rng := fun n => t.rng (n + 1)
        skip := link pred idx (queueLevel (t.rng 0)) skiplistLevels t.skip } := by
  unfold queueActivateSkiplist
  rw [if_neg (by simp [hf.1, hf.2]), hts]
  simp only [setQueue, update_idem]
  have hp' : preds t.skip (fun i => lessthaneq
      { t with queues := update t.queues idx { t.queues idx with nextTs := ts } }
      (update t.queues idx { t.queues idx with nextTs := ts } i).nextTs ts) (numQmqueues + 1) skiplistLevels none =
    some pred := hp
  rw [hp']

namespace QmanInv

variable {t : QmanThread} {S : Nat → List Nat} {N : List Nat} {idx : Nat}

theorem activateNolimit (h : QmanInv t S N (some idx)) (hS : idx ∉ S 0) (hN : idx ∉ N) (hidx : idx < numQmqueues) :
    ∃ t', queueActivateNolimit t idx = some t' ∧ QmanInv t' S (N ++ [idx]) none ∧
      t'.queues = update t.queues idx { t.queues idx with inNolimitl := true } ∧
      t'.tsVirtual = t.tsVirtual ∧ t'.tsReal = t.tsReal := by
  have hflags := h.marked.flags_false hS hN
  obtain ⟨t', e, hl, hq, hv, hr⟩ := h.linked.append_nolimit h.marked.disjoint hS hN hflags
  refine ⟨t', e, ⟨hl, ?_, h.timed.congr fun i hi => key_of_ne (ne_of_mem_of_not_mem hi hS) hq hv⟩, hq, hv, hr⟩
  rw [hq]
  refine h.marked.update (fun i hi e => hi (some.inj e).symm) (fun _ _ => Iff.rfl) (fun i hi => ?_) ?_ ?_ ?_ ?_
    (fun _ => hidx) ((h.marked.rates idx).congr rfl rfl id)
  · simp [hi]
  · simp [hS, hflags.1]
  · simp
  · exact fun h' => absurd h' hS
  · simp

theorem activateSkiplist (h : QmanInv t S N (some idx)) (hS : idx ∉ S 0) (hN : idx ∉ N) (hidx : idx < numQmqueues)
    (ha : (t.queues idx).avail ≠ 0) (hr : (t.queues idx).rate ≠ 0) :
    ∃ t' S', queueActivateSkiplist t idx = some t' ∧ QmanInv t' S' N none ∧
      t'.queues = update t.queues idx { t.queues idx with nextTs := queueClampTs t (t.queues idx), inSkiplist := true } ∧
      t'.tsVirtual = t.tsVirtual ∧ t'.tsReal = t.tsReal := by
  have hflags := h.marked.flags_false hS hN
  have hcost := h.marked.rates idx ha hr
  have hclamp := (queueClampTs_ahead (t := t) hcost).1
  generalize hts : queueClampTs t (t.queues idx) = ts at hclamp
  generalize hbefore :
    (fun i => t.lessthaneq (update t.queues idx { t.queues idx with nextTs := ts } i).nextTs ts) = before
  have hnear : t.ahead ts < 2 ^ 31 := Nat.lt_of_le_of_lt hclamp hcost
  have hb : ∀ i ∈ S 0, before i = decide (t.key i ≤ t.ahead ts) := by
    intro i hi
    rw [← hbefore]
    simp only [update_of_ne (ne_of_mem_of_not_mem hi hS)]
    exact lessthaneq_near (h.timed.near i hi) hnear
  have hfront := h.timed.front hb
  obtain ⟨pred, hpreds, hpred⟩ := h.linked.rep.preds_eq hfront
    (Nat.lt_add_one_of_le (h.linked.length_le h.marked).1)
  have e := queueActivateSkiplist_eq hflags hts (hbefore ▸ hpreds)
  generalize htt : ({ t with
      queues := update t.queues idx { t.queues idx with nextTs := ts, inSkiplist := true }
      rng := fun n => t.rng (n + 1)
      skip := link pred idx (queueLevel (t.rng 0)) skiplistLevels t.skip } : QmanThread) = t' at e
  have hq : t'.queues = update t.queues idx { t.queues idx with nextTs := ts, inSkiplist := true } := htt ▸ rfl
  have hv : t'.tsVirtual = t.tsVirtual := htt ▸ rfl
  have hkey : t'.key idx = t.ahead ts := by
    simp only [key, ahead, hq, hv, update_self]
  have hlinked := h.linked.insert_skiplist h.marked.disjoint hS hN hfront hpred (queueLevel (t.rng 0))
    (show t'.skip = _ from htt ▸ rfl) (htt ▸ rfl) (htt ▸ rfl)
  generalize hS' : (fun l => if queueLevel (t.rng 0) < l then S l else insertAt before idx (S l)) = S' at hlinked
  have hS0 : S' 0 = insertAt before idx (S 0) := by
    rw [← hS']
    exact if_neg (Nat.not_lt_zero _)
  refine ⟨t', S', e, ⟨hlinked, ?_, ?_⟩, hq, hv, htt ▸ rfl⟩ <;> rw [hS0]
  · rw [hq]
    refine h.marked.update (fun i hi e => hi (some.inj e).symm) (fun i hi => ?_) (fun _ _ => Iff.rfl) ?_ ?_ ?_ ?_
      (fun _ => hidx) ((h.marked.rates idx).congr rfl rfl id)
    · simp [hi]
    · simp
    · simp [hN, hflags.2]
    · exact fun _ => hN
    · simp
  · exact h.timed.insertAt hS hq hv (hkey ▸ hnear) (hkey ▸ hb)

theorem activate (h : QmanInv t S N (some idx)) (hS : idx ∉ S 0) (hN : idx ∉ N) (hidx : idx < numQmqueues)
    (ha : (t.queues idx).avail ≠ 0) :
    ∃ t' S' N', queueActivate t idx = some t' ∧ QmanInv t' S' N' none ∧
      t'.queues = update t.queues idx (activatedQueue t (t.queues idx)) ∧
      t'.tsVirtual = t.tsVirtual ∧ t'.tsReal = t.tsReal ∧ ((t.queues idx).rate = 0 → S' = S ∧ N' = N ++ [idx]) := by
  by_cases hr : (t.queues idx).rate = 0
  · obtain ⟨t', e, h', hq, hv, hr'⟩ := h.activateNolimit hS hN hidx
    exact ⟨t', S, _, by rw [queueActivate, if_pos hr, e], h', by rw [hq, activatedQueue, if_pos hr], hv, hr',
      fun _ => ⟨rfl, rfl⟩⟩
  · obtain ⟨t', S', e, h', hq, hv, hr'⟩ := h.activateSkiplist hS hN hidx ha hr
    exact ⟨t', S', N, by rw [queueActivate, if_neg hr, e], h', by rw [hq, activatedQueue, if_neg hr], hv, hr',
      fun h0 => absurd h0 hr⟩

theorem setQueue {hole : Option Nat} {q : QmanQueue} (h : QmanInv t S N hole) (hh : ∀ i, i ≠ idx → hole ≠ some i)
    (hs : q.inSkiplist = (t.queues idx).inSkiplist) (hn : q.inNolimitl = (t.queues idx).inNolimitl)
    (ht : idx ∈ S 0 → q.nextTs = (t.queues idx).nextTs) (hr : RateOk q) :
    QmanInv (t.setQueue idx q) S N (some idx) := by
  refine ⟨⟨h.linked.rep, h.linked.nolimit, h.linked.tail⟩, ?_, h.timed.congr fun i hi => ?_⟩
  · exact h.marked.update hh (fun _ _ => Iff.rfl) (fun _ _ => Iff.rfl) (hs ▸ h.marked.inSkip idx)
      (hn ▸ h.marked.inNo idx) (h.marked.disjoint idx) (fun he => absurd rfl he) (h.marked.bound idx) hr
  · by_cases he : i = idx
    · subst he
      simp [key, setQueue, ahead, ht hi]
    · exact key_of_ne he rfl rfl

end QmanInv

/-! ## Changing a queue -/

/-- What setting queue `idx` does to the queues: its fields change, and if it is in
no list and has bytes to send, it is activated. -/
def SetQueue (t : QmanThread) (idx : Nat) (c : QmanSet) (queues : Nat → QmanQueue) : Prop :=
  queues = update t.queues idx (qmanUpdate (t.queues idx) c) ∨
    queues = update t.queues idx (activatedQueue t (qmanUpdate (t.queues idx) c)) ∧
      (qmanUpdate (t.queues idx) c).avail ≠ 0 ∧ (t.queues idx).inSkiplist = false

/-- `set_impl` leaves a queue that is in a list where it is; one without a rate joins the no-limit list at its end. -/
theorem setImpl_inv {c : QmanSet} (h : QmanInv t S N none) (hidx : idx < numQmqueues)
    (hr : RateOk (qmanUpdate (t.queues idx) c)) :
    ∃ t' S' N', setImpl t idx c = some t' ∧ QmanInv t' S' N' none ∧ t'.tsVirtual = t.tsVirtual ∧
      t'.tsReal = t.tsReal ∧ SetQueue t idx c t'.queues ∧
      ((qmanUpdate (t.queues idx) c).rate = 0 → S' = S ∧ RoundRobin.Step N none N') := by
  have h₁ : QmanInv (t.setQueue idx (qmanUpdate (t.queues idx) c)) S N (some idx) :=
    h.setQueue (by simp) rfl rfl (fun _ => rfl) hr
  have hq : (t.setQueue idx (qmanUpdate (t.queues idx) c)).queues idx = qmanUpdate (t.queues idx) c := update_self ..
  simp only [setImpl]
  split
  · rename_i hc
    obtain ⟨-, ha, hs, hn⟩ := hc
    have hS : idx ∉ S 0 := by simp [h₁.marked.inSkip, hq, hs]
    have hN : idx ∉ N := by simp [h₁.marked.inNo, hq, hn]
    obtain ⟨t', S', N', e, h', hq', hv, hr', hjoin⟩ := h₁.activate hS hN hidx (by rwa [hq])
    refine ⟨t', S', N', e, h', hv, hr', .inr ⟨?_, ha, hs⟩, fun h0 => ?_⟩
    · rw [hq', hq, setQueue, update_idem]
      rfl
    · obtain ⟨hS', rfl⟩ := hjoin (by rwa [hq])
      exact ⟨hS', .join hN⟩
  · rename_i hc
    refine ⟨_, S, N, rfl, ⟨⟨h₁.linked.rep, h₁.linked.nolimit, h₁.linked.tail⟩, h₁.marked.close fun ha => ?_, h₁.timed⟩,
      rfl, rfl, .inl rfl, fun _ => ⟨rfl, .stay N⟩⟩
    rw [hq] at ha
    rw [h.marked.inSkip, h.marked.inNo]
    by_contra hno
    simp only [not_or, Bool.not_eq_true] at hno
    -- not in a list, so without bytes before, and given none
    have ha' : (t.queues idx).avail = 0 := by
      by_contra ha'
      have := h.marked.active idx (by simp) ha'
      simp [h.marked.inSkip, h.marked.inNo, hno] at this
    refine hc ⟨?_, ha, hno.1, hno.2⟩
    by_contra hflags
    rw [not_or] at hflags
    exact ha (by rw [qmanUpdate, if_neg hflags.1, if_neg hflags.2, ha'])

/-! ## Polling -/

def QmanQueue.out (q : QmanQueue) : QmanQueue := { q with inSkiplist := false, inNolimitl := false }

theorem QmanQueue.out_eq (h : q.inSkiplist = false ∧ q.inNolimitl = false) : q.out = q := by
  obtain ⟨_, _, _, _, _, _⟩ := q
  obtain ⟨rfl, rfl⟩ := h
  rfl

/-- The queue a poll leaves: out of its list, and back in one if it has more
bytes than it was let to send. -/
def servedQueue (t : QmanThread) (q : QmanQueue) : QmanQueue :=
  if q.avail = 0 then q.out
  else if (firedQueue t q.out).avail ≠ 0 then activatedQueue t (firedQueue t q.out)
  else firedQueue t q.out

/-- A turn of a poll took queue `idx`, at virtual time `v`. -/
structure Served (s s' : PollState) (idx : Nat) (v : BitVec 32) : Prop where
  queues : s'.t.queues = update s.t.queues idx (servedQueue { s.t with tsVirtual := v } (s.t.queues idx))
  tsVirtual : s'.t.tsVirtual = v
  tsReal : s'.t.tsReal = s.t.tsReal
  out : s'.out = s.out ++
    if (s.t.queues idx).avail = 0 then [] else [⟨idx, (fireBytes (s.t.queues idx)).setWidth 16, v⟩]

theorem Served.of_pop {s s' : PollState} {v : BitVec 32} {b b' : Bool} (h : Served { s with t := t } s' idx v)
    (hr : t.tsReal = s.t.tsReal)
    (hq : t.queues = update s.t.queues idx { s.t.queues idx with inSkiplist := b, inNolimitl := b' }) :
    Served s s' idx v := by
  obtain ⟨h₁, h₂, h₃, h₄⟩ := h
  simp only [hq, update_self, update_idem] at h₁ h₄
  exact ⟨h₁, h₂, h₃.trans hr, h₄⟩

section Poll

variable {s : PollState} {t : QmanThread} {S : Nat → List Nat} {N : List Nat} {idx num : Nat}

theorem pollFire_inv (h : QmanInv s.t S N (some idx)) (hS : idx ∉ S 0) (hN : idx ∉ N) (hidx : idx < numQmqueues) :
    ∃ s' S' N', pollFire s idx = some s' ∧ QmanInv s'.t S' N' none ∧ Served s s' idx s.t.tsVirtual ∧
      ((s.t.queues idx).rate = 0 →
        S' = S ∧ RoundRobin.Step (idx :: N) (if (s.t.queues idx).avail = 0 then none else some idx) N') ∧
      (s'.out.length = s.out.length + 1 ∨ s'.out.length = s.out.length ∧ S' = S ∧ N' = N) := by
  have hflags := h.marked.flags_false hS hN
  have hqout := QmanQueue.out_eq hflags
  by_cases ha : (s.t.queues idx).avail = 0
  · refine ⟨s, S, N, by simp [pollFire, ha], ⟨h.linked, h.marked.close fun h' => absurd ha h', h.timed⟩,
      ⟨?_, rfl, rfl, by simp [ha]⟩, fun _ => ?_, .inr ⟨rfl, rfl, rfl⟩⟩
    · rw [servedQueue, if_pos ha, hqout, update_eq_self]
    · rw [if_pos ha]
      exact ⟨rfl, .leave idx N⟩
  have h₁ : QmanInv (s.t.setQueue idx (firedQueue s.t (s.t.queues idx))) S N (some idx) :=
    h.setQueue (fun i hi e => hi (some.inj e).symm) rfl rfl (fun hi => absurd hi hS)
      ((h.marked.rates idx).congr rfl rfl fun _ => ha)
  have hq : (s.t.setQueue idx (firedQueue s.t (s.t.queues idx))).queues idx = firedQueue s.t (s.t.queues idx) :=
    update_self ..
  rw [pollFire, if_pos ha, queueFire, if_neg ha]
  by_cases hmore : (firedQueue s.t (s.t.queues idx)).avail ≠ 0
  · obtain ⟨t', S', N', e, h', hq', hv, hr, hjoin⟩ := h₁.activate hS hN hidx (by rwa [hq])
    refine ⟨⟨t', s.out ++ [⟨idx, (fireBytes (s.t.queues idx)).setWidth 16, s.t.tsVirtual⟩]⟩, S', N', ?_, h',
      ⟨?_, hv, hr, by rw [if_neg ha]⟩, fun h0 => ?_, .inl (by simp)⟩
    · rw [if_pos hmore, e]
      rfl
    · rw [hq', hq, servedQueue, if_neg ha, hqout, if_pos hmore, setQueue, update_idem]
      rfl
    · obtain ⟨hS', rfl⟩ := hjoin (by rw [hq]; exact h0)
      rw [if_neg ha]
      exact ⟨hS', .again idx N⟩
  · refine ⟨⟨_, s.out ++ [⟨idx, (fireBytes (s.t.queues idx)).setWidth 16, s.t.tsVirtual⟩]⟩, S, N, ?_,
      ⟨h₁.linked, h₁.marked.close fun h' => absurd (hq ▸ h') hmore, h₁.timed⟩, ⟨?_, rfl, rfl, by rw [if_neg ha]⟩,
      fun _ => ?_, .inl (by simp)⟩
    · rw [if_neg hmore]
      rfl
    · rw [servedQueue, if_neg ha, hqout, if_neg hmore]
    · rw [if_neg ha]
      exact ⟨rfl, .last idx N⟩

theorem nolimitPop_inv (h : QmanInv t S (idx :: N) none) :
    idx ∉ S 0 ∧ idx ∉ N ∧ idx < numQmqueues ∧ QmanInv (nolimitPop t idx) S N (some idx) := by
  obtain ⟨hl, hm, ht⟩ := h
  have hS : idx ∉ S 0 := fun hi => hm.disjoint idx hi (mem_cons_self ..)
  have hN : idx ∉ N := (nodup_cons.mp hl.nolimit.nodup).1
  refine ⟨hS, hN, hm.bound idx (.inr (mem_cons_self ..)), ⟨hl.rep, hl.nolimit.2, ?_⟩, ?_, ht.congr fun i hi => ?_⟩
  · have hnext := hl.nolimit.2
    simp only [nolimitPop, hl.tail]
    cases N with
    | nil =>
      rw [if_pos (chain_nil.mp hnext)]
      rfl
    | cons a N =>
      rw [if_neg (by simp [hnext.1]), getLast?_cons_cons]
  · refine hm.update (by simp) (fun _ _ => Iff.rfl) (fun i hi => ?_) (hm.inSkip idx) ?_ (fun hi => absurd hi hS)
      (fun he => absurd rfl he) (fun hi => absurd hi (by simp [hS, hN])) ((hm.rates idx).congr rfl rfl id)
    · simp [hi]
    · simp [hN]
  · exact key_of_ne (ne_of_mem_of_not_mem hi hS) rfl rfl

theorem skiplistPop_inv {T : List Nat} (h : QmanInv t S N none) (hST : S 0 = idx :: T) :
    ∃ S', S' 0 = T ∧ idx ∉ T ∧ idx ∉ N ∧ idx < numQmqueues ∧ QmanInv (skiplistPop t idx) S' N (some idx) := by
  obtain ⟨hl, hm, ht⟩ := h
  have hrep := hl.rep.unlink hST
  have hnd := (hl.rep.chain 0 (by decide)).nodup
  rw [hST] at hm ht hnd
  have hT : idx ∉ T := (nodup_cons.mp hnd).1
  have hN : idx ∉ N := hm.disjoint idx (mem_cons_self ..)
  have hS' : (S 0).filter (· != idx) = T := by
    rw [hST, filter_cons_of_neg (by simp), filter_eq_self]
    intro i hi
    simpa using ne_of_mem_of_not_mem hi hT
  refine ⟨fun l => (S l).filter (· != idx), hS', hT, hN, hm.bound idx (.inl (mem_cons_self ..)),
    ⟨hrep, ?_, hl.tail⟩, ?_, ?_⟩
  · exact hl.nolimit.congr fun i _ => by rw [skiplistPop, unlink_next]
  · rw [hS']
    refine hm.update (by simp) (fun i hi => ?_) (fun _ _ => Iff.rfl) ?_ (hm.inNo idx) (fun hi => absurd hi hT)
      (fun he => absurd rfl he) (fun hi => absurd hi (by simp [hT, hN])) ((hm.rates idx).congr rfl rfl id)
    · simp [hi]
    · simp [hT]
  · rw [hS']
    have ht' : Timed t T := ⟨fun i hi => ht.near i (mem_cons_of_mem _ hi), (pairwise_cons.mp ht.sorted).2⟩
    refine (ht'.advance (v := (t.queues idx).nextTs) (pairwise_cons.mp ht.sorted).1 rfl fun i hi => ?_).1
    simp [skiplistPop, setQueue, update_of_ne (ne_of_mem_of_not_mem hi hT)]

/-- A turn of `poll_nolimit` ends the loop, or takes a queue of the list. -/
theorem nolimitTurn_inv (h : QmanInv s.t S N none) :
    nolimitTurn num s = some (false, s) ∨
      ∃ s' S' N' idx, nolimitTurn num s = some (true, s') ∧ QmanInv s'.t S' N' none ∧ s.out.length < num ∧
        s.t.nolimitHeadIdx = some idx ∧ idx ∈ N ∧ Served s s' idx s.t.tsVirtual ∧
        ((s.t.queues idx).rate = 0 →
          S' = S ∧ RoundRobin.Step N (if (s.t.queues idx).avail = 0 then none else some idx) N') ∧
        (s'.out.length = s.out.length + 1 ∨ s'.out.length = s.out.length ∧ N'.length < N.length) := by
  unfold nolimitTurn
  by_cases hnum : s.out.length < num
  · rw [if_pos hnum]
    cases N with
    | nil =>
      rw [chain_nil.mp h.linked.nolimit]
      exact .inl rfl
    | cons idx N =>
      obtain ⟨hS, hN, hidx, h₁⟩ := nolimitPop_inv h
      obtain ⟨s', S', N', e, h', hserved, hstep, hp⟩ := pollFire_inv (s := ⟨nolimitPop s.t idx, s.out⟩) h₁ hS hN hidx
      have hpop : (nolimitPop s.t idx).queues idx = { s.t.queues idx with inNolimitl := false } := update_self ..
      rw [hpop] at hstep
      rw [h.linked.nolimit.1]
      simp only [e, map_some]
      refine .inr ⟨s', S', N', idx, rfl, h', hnum, rfl, mem_cons_self .., hserved.of_pop rfl rfl, hstep, hp.imp_right ?_⟩
      rintro ⟨ho, -, rfl⟩
      exact ⟨ho, by simp⟩
  · rw [if_neg hnum]
    exact .inl rfl

theorem QmanInv.advance {v : BitVec 32} (h : QmanInv t S N none) (hv : ∀ i ∈ S 0, t.ahead v ≤ t.key i) :
    QmanInv { t with tsVirtual := v } S N none := by
  have ht : Timed { t with tsVirtual := v } (S 0) ∧ _ := h.timed.advance hv rfl fun _ _ => rfl
  exact ⟨⟨h.linked.rep, h.linked.nolimit, h.linked.tail⟩, h.marked, ht.1⟩

theorem QmanInv.relabel (h : QmanInv t S N none) (ts : BitVec 32) (b : Bool) :
    QmanInv { t with tsReal := ts, nolimitFirst := b } S N none :=
  ⟨⟨h.linked.rep, h.linked.nolimit, h.linked.tail⟩, h.marked, h.timed.congr fun _ _ => rfl⟩

variable {maxVts : BitVec 32}

theorem ahead_served {s s' : PollState} {v : BitVec 32} (h : Served s s' idx v) (hle : s.t.ahead v ≤ s.t.ahead maxVts) :
    s'.t.ahead maxVts = s.t.ahead maxVts - s.t.ahead v := by
  have e : maxVts - v = maxVts - s.t.tsVirtual - (v - s.t.tsVirtual) := by grind
  rw [ahead, h.tsVirtual, e]
  exact toNat_sub_of_le hle

theorem QmanInv.head_le {T : List Nat} (h : QmanInv t S N none) (hS : S 0 = idx :: T) :
    t.skip.head 0 = some idx ∧ idx ∈ S 0 ∧ ∀ i ∈ S 0, t.key idx ≤ t.key i := by
  have hc := h.linked.rep.chain 0 (by decide)
  have hs := h.timed.sorted
  rw [hS] at hc hs ⊢
  refine ⟨hc.1, mem_cons_self .., fun i hi => ?_⟩
  rcases mem_cons.mp hi with rfl | hi
  · exact Nat.le_refl _
  · exact (pairwise_cons.mp hs).1 i hi

/-- A turn of `poll_skiplist` ends the loop, or takes the first queue. -/
theorem skiplistTurn_inv (h : QmanInv s.t S N none) (hmax : s.t.ahead maxVts < 2 ^ 31) :
    num ≤ s.out.length ∧ skiplistTurn maxVts num s = some (false, s) ∨
    ((∀ i ∈ S 0, s.t.ahead maxVts < s.t.key i) ∧ s.out.length < num ∧
      skiplistTurn maxVts num s = some (false, { s with t := { s.t with tsVirtual := maxVts } })) ∨
    ∃ s' S' N' idx, skiplistTurn maxVts num s = some (true, s') ∧ QmanInv s'.t S' N' none ∧ s.out.length < num ∧
      s.t.skip.head 0 = some idx ∧ idx ∈ S 0 ∧ (∀ i ∈ S 0, s.t.key idx ≤ s.t.key i) ∧ s.t.key idx ≤ s.t.ahead maxVts ∧
      Served s s' idx (s.t.queues idx).nextTs ∧
      (s'.out.length = s.out.length + 1 ∨ s'.out.length = s.out.length ∧ (S' 0).length < (S 0).length) := by
  unfold skiplistTurn
  by_cases hnum : s.out.length < num
  · rw [if_pos hnum]
    cases hS : S 0 with
    | nil =>
      have hc := h.linked.rep.chain 0 (by decide)
      rw [hS] at hc
      rw [chain_nil.mp hc]
      exact .inr (.inl ⟨by simp, hnum, rfl⟩)
    | cons idx T =>
      obtain ⟨hhead, hmem, hfirst⟩ := h.head_le hS
      have hle : s.t.lessthaneq (s.t.queues idx).nextTs maxVts = decide (s.t.key idx ≤ s.t.ahead maxVts) :=
        lessthaneq_near (h.timed.near idx hmem) hmax
      have hflag := (h.marked.inSkip idx).mp hmem
      simp only [hhead, hle, hflag, Bool.true_eq_false, if_false]
      by_cases hk : s.t.key idx ≤ s.t.ahead maxVts
      · obtain ⟨S₁, hS₁, hT, hN, hidx, h₁⟩ := skiplistPop_inv h hS
        obtain ⟨s', S', N', e, h', hserved, -, hp⟩ :=
          pollFire_inv (s := ⟨skiplistPop s.t idx, s.out⟩) h₁ (hS₁ ▸ hT) hN hidx
        simp only [hk, decide_true, Bool.not_true, Bool.false_eq_true, if_false, e, map_some]
        refine .inr (.inr ⟨s', S', N', idx, rfl, h', hnum, rfl, hS ▸ hmem, hS ▸ hfirst, hk, hserved.of_pop rfl rfl,
          hp.imp_right ?_⟩)
        rintro ⟨ho, rfl, -⟩
        exact ⟨ho, by simp [hS₁]⟩
      · simp only [hk, decide_false, Bool.not_false, if_true]
        refine .inr (.inl ⟨fun i hi => ?_, hnum, trivial⟩)
        have := hfirst i (hS ▸ hi)
        omega
  · rw [if_neg hnum]
    exact .inl ⟨Nat.le_of_not_lt hnum, rfl⟩

theorem limitVts_le (h : QmanInv t S N none) (hmax : t.ahead maxVts < 2 ^ 31) :
    t.ahead (limitVts t maxVts) ≤ t.ahead maxVts ∧ ∀ i ∈ S 0, t.ahead (limitVts t maxVts) ≤ t.key i := by
  unfold limitVts
  cases hS : S 0 with
  | nil =>
    have hc := h.linked.rep.chain 0 (by decide)
    rw [hS] at hc
    rw [chain_nil.mp hc]
    exact ⟨Nat.le_refl _, by simp⟩
  | cons idx T =>
    obtain ⟨hhead, hmem, hfirst⟩ := h.head_le hS
    have hle : t.lessthaneq (t.queues idx).nextTs maxVts = decide (t.key idx ≤ t.ahead maxVts) :=
      lessthaneq_near (h.timed.near idx hmem) hmax
    rw [hS] at hfirst
    simp only [hhead, hle, decide_eq_true_eq]
    split
    · rename_i hk
      exact ⟨hk, hfirst⟩
    · refine ⟨Nat.le_refl _, fun i hi => ?_⟩
      have := hfirst i hi
      omega

end Poll

/-! ## Whole polls

What a poll keeps is stated for any property `P` of the queues, the virtual
time and the queues let to send so far that taking a queue and moving the
virtual time on keep. -/

/-- The turns of a poll up to virtual time `maxVts` keep `P`. -/
structure PollKeeps (maxVts : BitVec 32) (P : (Nat → QmanQueue) → BitVec 32 → List Fired → Prop) : Prop where
  nolimit : ∀ {s s' : PollState} {S N idx}, QmanInv s.t S N none → idx ∈ N → Served s s' idx s.t.tsVirtual →
    P s.t.queues s.t.tsVirtual s.out → P s'.t.queues s'.t.tsVirtual s'.out
  skiplist : ∀ {s s' : PollState} {S N idx}, QmanInv s.t S N none → idx ∈ S 0 →
    (∀ i ∈ S 0, s.t.key idx ≤ s.t.key i) → s.t.key idx ≤ s.t.ahead maxVts → Served s s' idx (s.t.queues idx).nextTs →
    P s.t.queues s.t.tsVirtual s.out → P s'.t.queues s'.t.tsVirtual s'.out
  advance : ∀ {t : QmanThread} {S N v out}, QmanInv t S N none → (∀ i ∈ S 0, t.ahead v ≤ t.key i) →
    t.ahead v ≤ t.ahead maxVts → P t.queues t.tsVirtual out → P t.queues v out

section Polls

variable {P : (Nat → QmanQueue) → BitVec 32 → List Fired → Prop} {t : QmanThread} {S : Nat → List Nat} {N : List Nat}
  {maxVts : BitVec 32}

theorem Served.behind {s s' : PollState} {idx : Nat} {v : BitVec 32} (h : Served s s' idx v) (out : List Fired) :
    Served { s with out := out ++ s.out } { s' with out := out ++ s'.out } idx v :=
  ⟨h.queues, h.tsVirtual, h.tsReal, by rw [h.out, append_assoc]⟩

theorem PollKeeps.behind (h : PollKeeps maxVts P) (out : List Fired) :
    PollKeeps maxVts fun queues v out' => P queues v (out ++ out') where
  nolimit {s _ _ _ _} hinv hi hs := h.nolimit (s := ⟨s.t, out ++ s.out⟩) hinv hi (hs.behind out)
  skiplist {s _ _ _ _} hinv hi hf hle hs := h.skiplist (s := ⟨s.t, out ++ s.out⟩) hinv hi hf hle (hs.behind out)
  advance hinv hv hle := h.advance hinv hv hle

/-- The rank of the loops: letting a queue send counts as much as emptying the
list. -/
def pollRank (num : Nat) (s : PollState) (l : List Nat) : Nat := (num - s.out.length) * (numQmqueues + 1) + l.length

theorem pollRank_lt {num : Nat} {s s' : PollState} {l l' : List Nat} (hnum : s.out.length < num)
    (hl : l'.length ≤ numQmqueues)
    (h : s'.out.length = s.out.length + 1 ∨ s'.out.length = s.out.length ∧ l'.length < l.length) :
    pollRank num s' l' < pollRank num s l := by
  simp only [pollRank, numQmqueues] at hl ⊢
  omega

theorem pollRank_turns {num : Nat} {l : List Nat} (hl : l.length ≤ numQmqueues) :
    pollRank num ⟨t, []⟩ l < pollTurns num := by
  simp only [pollRank, pollTurns, length_nil, numQmqueues] at hl ⊢
  omega

theorem pollNolimit_inv (hk : PollKeeps maxVts P) (h : QmanInv t S N none) (hP : P t.queues t.tsVirtual []) (num : Nat) :
    ∃ s S' N', pollNolimit t num = some s ∧ QmanInv s.t S' N' none ∧ P s.t.queues s.t.tsVirtual s.out ∧
      s.t.tsVirtual = t.tsVirtual ∧ s.t.tsReal = t.tsReal := by
  -- the invariant of the loop
  let I (s : PollState) (n : Nat) := ∃ S N, QmanInv s.t S N none ∧ P s.t.queues s.t.tsVirtual s.out ∧
    s.t.tsVirtual = t.tsVirtual ∧ s.t.tsReal = t.tsReal ∧ n = pollRank num s N
  have hlen := (h.linked.length_le h.marked).2
  have hloop : ∃ s, pollNolimit t num = some s ∧ ∃ n, I s n := by
    refine Run.loop_total (I := I) (fun s n hI => ?_) ⟨S, N, h, hP, rfl, rfl, rfl⟩ (pollRank_turns hlen)
    obtain ⟨S, N, h, hP, hv, hr, rfl⟩ := id hI
    rcases nolimitTurn_inv h with e | ⟨s', S', N', idx, e, h', hnum, -, hi, hs, -, hp⟩
    · exact .inr ⟨s, e, _, hI⟩
    · refine .inl ⟨s', _, e, ⟨S', N', h', hk.nolimit h hi hs hP, hs.tsVirtual.trans hv, hs.tsReal.trans hr, rfl⟩, ?_⟩
      exact pollRank_lt hnum (h'.linked.length_le h'.marked).2 hp
  obtain ⟨s, e, n, S', N', h', hP', hv, hr, -⟩ := hloop
  exact ⟨s, S', N', e, h', hP', hv, hr⟩

theorem pollSkiplist_inv {ts : BitVec 32} (hmaxVts : maxVts = t.tsVirtual + (ts - t.tsReal)) (hk : PollKeeps maxVts P)
    (h : QmanInv t S N none) (hts : (ts - t.tsReal).toNat < 2 ^ 31) (hP : P t.queues t.tsVirtual []) (num : Nat) :
    ∃ s S' N', pollSkiplist t ts num = some s ∧ QmanInv s.t S' N' none ∧ P s.t.queues s.t.tsVirtual s.out ∧
      s.t.tsReal = ts := by
  let I (s : PollState) (n : Nat) := ∃ S N, QmanInv s.t S N none ∧ P s.t.queues s.t.tsVirtual s.out ∧
    s.t.ahead maxVts < 2 ^ 31 ∧ n = pollRank num s (S 0)
  let J (s : PollState) := ∃ S N, QmanInv s.t S N none ∧ P s.t.queues s.t.tsVirtual s.out ∧
    (s.out.length = num → s.t.ahead maxVts < 2 ^ 31)
  have hmax : t.ahead maxVts < 2 ^ 31 := by
    rw [hmaxVts, ahead, BitVec.add_comm, BitVec.add_sub_cancel]
    exact hts
  have hlen := (h.linked.length_le h.marked).1
  have hloop : ∃ s, Run.loop (skiplistTurn maxVts num) (pollTurns num) ⟨t, []⟩ = some s ∧ J s := by
    refine Run.loop_total (I := I) (fun s n hI => ?_) ⟨S, N, h, hP, hmax, rfl⟩ (pollRank_turns hlen)
    obtain ⟨S, N, h, hP, hmax, rfl⟩ := hI
    rcases skiplistTurn_inv h hmax with ⟨-, e⟩ | ⟨hlt, hnum, e⟩ | ⟨s', S', N', idx, e, h', hnum, -, hi, hfirst, hle, hs, hp⟩
    · exact .inr ⟨s, e, S, N, h, hP, fun _ => hmax⟩
    · have hall : ∀ i ∈ S 0, s.t.ahead maxVts ≤ s.t.key i := fun i hi => Nat.le_of_lt (hlt i hi)
      have hP' := hk.advance h hall (Nat.le_refl _) hP
      refine .inr ⟨_, e, S, N, h.advance hall, hP', fun hout => ?_⟩
      exact absurd hout (Nat.ne_of_lt hnum)
    · refine .inl ⟨s', _, e, ⟨S', N', h', hk.skiplist h hi hfirst hle hs hP, ?_, rfl⟩, ?_⟩
      · rw [ahead_served hs hle]
        omega
      · exact pollRank_lt hnum (h'.linked.length_le h'.marked).1 hp
  obtain ⟨s, e, S', N', h', hP', hlim⟩ := hloop
  simp only [pollSkiplist, ← hmaxVts, e, map_some]
  split
  · rename_i hout
    have hle := limitVts_le h' (hlim hout)
    have hP'' := hk.advance h' hle.2 hle.1 hP'
    exact ⟨_, S', N', rfl, (h'.advance hle.2).relabel ts s.t.nolimitFirst, hP'', rfl⟩
  · exact ⟨_, S', N', rfl, h'.relabel ts s.t.nolimitFirst, hP', rfl⟩

/-- `qman_poll` ends, and keeps what its turns keep. -/
theorem qmanPoll_inv {ts : BitVec 32} (hk : PollKeeps (t.tsVirtual + (ts - t.tsReal)) P) (h : QmanInv t S N none)
    (hts : (ts - t.tsReal).toNat < 2 ^ 31) (hP : P t.queues t.tsVirtual []) (num : Nat) :
    ∃ s S' N', qmanPoll t num ts = some s ∧ QmanInv s.t S' N' none ∧ P s.t.queues s.t.tsVirtual s.out ∧
      s.t.tsReal = ts := by
  cases hf : t.nolimitFirst with
  | true =>
    obtain ⟨s₁, S₁, N₁, e₁, h₁, hP₁, hv, hr⟩ := pollNolimit_inv hk h hP num
    obtain ⟨s₂, S₂, N₂, e₂, h₂, hP₂, hr₂⟩ := pollSkiplist_inv (by rw [hv, hr]) (hk.behind s₁.out) h₁ (by rwa [hr])
      (by rwa [append_nil]) (num - s₁.out.length)
    refine ⟨⟨_, s₁.out ++ s₂.out⟩, S₂, N₂, ?_, h₂.relabel s₂.t.tsReal (!s₂.t.nolimitFirst), hP₂, hr₂⟩
    rw [qmanPoll, if_pos hf, e₁, bind_some, e₂]
    rfl
  | false =>
    obtain ⟨s₁, S₁, N₁, e₁, h₁, hP₁, hr⟩ := pollSkiplist_inv rfl hk h hts hP num
    obtain ⟨s₂, S₂, N₂, e₂, h₂, hP₂, hv₂, hr₂⟩ := pollNolimit_inv (hk.behind s₁.out) h₁ (by rwa [append_nil])
      (num - s₁.out.length)
    refine ⟨⟨_, s₁.out ++ s₂.out⟩, S₂, N₂, ?_, h₂.relabel s₂.t.tsReal (!s₂.t.nolimitFirst), hP₂, hr₂.trans hr⟩
    rw [qmanPoll, if_neg (by simp [hf]), e₁, bind_some, e₂]
    rfl

end Polls

/-! ## Runs -/

/-- What the calls have to meet: a queue with bytes to send is left with a rate
that is high enough, and the clock moves by less than half its range. -/
def qmanOk (t : QmanThread) : QmanOp → Prop
  | .set c => c.id.toNat < numQmqueues → RateOk (qmanUpdate (t.queues c.id.toNat) c)
  | .poll _ ts => (ts - t.tsReal).toNat < 2 ^ 31

instance (t : QmanThread) : ∀ op, Decidable (qmanOk t op)
  | .set _ => inferInstanceAs (Decidable (_ → _))
  | .poll _ _ => inferInstanceAs (Decidable (_ < _))

/-- The lists of the queue manager as a reader of the code expects them: `S l` is
level `l` of the skip list, `N` the no-limit list. -/
structure WellFormed (t : QmanThread) (S : Nat → List Nat) (N : List Nat) : Prop where
  levels : ∀ l < skiplistLevels, Chain (t.skip.next l) (t.skip.head l) (S l) ∧ (S l).Nodup
  sub : ∀ l, l + 1 < skiplistLevels → (S (l + 1)).Sublist (S l)
  nolimit : Chain (t.skip.next 0) t.nolimitHeadIdx N ∧ t.nolimitTailIdx = N.getLast? ∧ N.Nodup
  flags : ∀ i, (i ∈ S 0 ↔ (t.queues i).inSkiplist = true) ∧ (i ∈ N ↔ (t.queues i).inNolimitl = true)
  atMostOne : ∀ i, ¬ (i ∈ S 0 ∧ i ∈ N)
  active : ∀ i, (t.queues i).avail ≠ 0 → i ∈ S 0 ∨ i ∈ N
  sorted : (S 0).Pairwise fun i j =>
    relTime t.tsVirtual (t.queues i).nextTs ≤ relTime t.tsVirtual (t.queues j).nextTs

theorem QmanInv.wellFormed (h : QmanInv t S N none) :
    WellFormed t S N where
  levels l hl := ⟨h.linked.rep.chain l hl, (h.linked.rep.chain l hl).nodup⟩
  sub := h.linked.rep.sub
  nolimit := ⟨h.linked.nolimit, h.linked.tail, h.linked.nolimit.nodup⟩
  flags i := ⟨h.marked.inSkip i, h.marked.inNo i⟩
  atMostOne i hi := h.marked.disjoint i hi.1 hi.2
  active i := h.marked.active i (by simp)
  sorted := h.timed.sorted.imp_of_mem fun {i j} hi hj hle => by
    rw [relTime_near (h.timed.near i hi), relTime_near (h.timed.near j hj)]
    exact Int.ofNat_le.mpr hle

theorem qmanThreadInit_inv (ts : BitVec 32) (rng : Nat → BitVec 32) (nolimitFirst : Bool) :
    QmanInv (qmanThreadInit ts rng nolimitFirst) (fun _ => []) [] none where
  linked := ⟨⟨fun _ _ => rfl, fun _ _ => List.Sublist.refl _⟩, rfl, rfl⟩
  marked := by constructor <;> simp [qmanThreadInit, RateOk]
  timed := ⟨by simp, List.Pairwise.nil⟩

theorem qmanSet_inv {c : QmanSet} (h : QmanInv t S N none)
    (hr : c.id.toNat < numQmqueues → RateOk (qmanUpdate (t.queues c.id.toNat) c)) :
    ∃ t' r S' N', qmanSet t c = some (t', r) ∧ QmanInv t' S' N' none ∧ t'.tsVirtual = t.tsVirtual ∧
      t'.tsReal = t.tsReal ∧
      (t'.queues = t.queues ∧ numQmqueues ≤ c.id.toNat ∨ c.id.toNat < numQmqueues ∧ SetQueue t c.id.toNat c t'.queues) ∧
      ((qmanUpdate (t.queues c.id.toNat) c).rate = 0 → S' = S ∧ RoundRobin.Step N none N') := by
  unfold qmanSet
  split
  · rename_i hid
    exact ⟨t, -1, S, N, rfl, h, rfl, rfl, .inl ⟨rfl, hid⟩, fun _ => ⟨rfl, .stay N⟩⟩
  · rename_i hid
    have hid := Nat.lt_of_not_ge hid
    obtain ⟨t', S', N', e, h', hv, hr, hq, hstep⟩ := setImpl_inv (c := c) h hid (hr hid)
    exact ⟨t', 0, S', N', by rw [e]; rfl, h', hv, hr, .inr ⟨hid, hq⟩, hstep⟩

theorem qmanStep_inv {op : QmanOp} (h : QmanInv t S N none) (hok : qmanOk t op) :
    ∃ t' S' N', qmanStep t op = some t' ∧ QmanInv t' S' N' none := by
  cases op with
  | set c =>
    obtain ⟨t', r, S', N', e, h', -⟩ := qmanSet_inv h hok
    exact ⟨t', S', N', by rw [qmanStep, e]; rfl, h'⟩
  | poll num ts =>
    obtain ⟨s, S', N', e, h', -⟩ := qmanPoll_inv (P := fun _ _ _ => True) ⟨fun _ _ _ => id, fun _ _ _ _ _ => id,
      fun _ _ _ => id⟩ h hok trivial num
    exact ⟨s.t, S', N', by rw [qmanStep, e]; rfl, h'⟩

/-- No call of the queue manager fails or does not end, and its lists are in
order after each of them, for all random numbers. -/
theorem qman_structure {ts : BitVec 32} {rng : Nat → BitVec 32} {nolimitFirst : Bool} {ops : List QmanOp}
    (hok : Run.All qmanStep qmanOk (qmanThreadInit ts rng nolimitFirst) ops) :
    ∃ t, Run.exec qmanStep (qmanThreadInit ts rng nolimitFirst) ops = some t ∧ ∃ S N, WellFormed t S N := by
  obtain ⟨t, e, S, N, h⟩ := Run.exec_total (I := fun t => ∃ S N, QmanInv t S N none) (fun t op hI hop => by
    obtain ⟨S, N, h⟩ := hI
    obtain ⟨t', S', N', e, h'⟩ := qmanStep_inv h hop
    exact ⟨t', e, S', N', h'⟩) ⟨_, _, qmanThreadInit_inv ts rng nolimitFirst⟩ hok
  exact ⟨t, e, S, N, h.wellFormed⟩

/-- A queue with a rate and one without are served, and the second gets a rate
while it is in the no-limit list. -/
def mixedOps : List QmanOp :=
  [.set ⟨0, 6, 2896, 1448, qmanSetRate ||| qmanSetMaxchunk ||| qmanSetAvail⟩,
    .set ⟨1, 0, 300, 64, qmanSetRate ||| qmanSetMaxchunk ||| qmanSetAvail⟩,
    .poll 4 1,
    .set ⟨1, 12, 0, 0, qmanSetRate⟩,
    .poll 4 1900000000]

theorem qman_structure_mixed : Run.All qmanStep qmanOk (qmanThreadInit 0 (fun _ => 8) true) mixedOps ∧
    ∃ t, Run.exec qmanStep (qmanThreadInit 0 (fun _ => 8) true) mixedOps = some t ∧ ∃ S N, WellFormed t S N :=
  have hok : Run.All qmanStep qmanOk (qmanThreadInit 0 (fun _ => 8) true) mixedOps := by decide +kernel
  ⟨hok, qman_structure hok⟩

end TasNic
