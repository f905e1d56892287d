import Mathlib.Algebra.Order.BigOperators.Group.Finset
import Mathlib.Order.Interval.Finset.Nat
import TasNic.Fast.Rss
import TasNic.Lib.Fibers

/-!
# The tables of the steering

`SteeringExact`: the redirection table of the card is `flow_group_steering`, the counts
of the cores are right and all buckets are steered to cores that run. Scaling moves one
bucket at a time (`RssInv.steered`); a core that gives up a bucket has one, since the
cores that run have all that were not moved.
-/

namespace TasNic.Scaling

open Function Run Fibers List

/-- The tables agree, all buckets are steered to cores below `n`, and entries that the card does not
have yet are marked. -/
structure RssInv (s : Rss) (n : Nat) : Prop where
  steering : ∀ k, k < s.size → s.steering k = s.reta k
  buckets : ∀ c, c < s.coresMax → s.buckets c = (fiber (Finset.range s.size) s.reta c).card
  below : ∀ k, k < s.size → s.reta k < n
  hw : ∀ k, k < s.size → s.mask k = true ∨ s.hw k = s.reta k
  cores : n ≤ s.coresMax
  max : s.coresMax ≤ 16
  size : s.size ≤ 4096

namespace Rss

/-- The tables after bucket `k` went from core `c` to core `j`. -/
def steered (s : Rss) (k c j : Nat) : Rss :=
  { s with
    mask := update s.mask k true, reta := update s.reta k j, steering := update s.steering k j
    buckets := update (update s.buckets c (s.buckets c - 1)) j (s.buckets j + 1) }

end Rss

variable {s t : Rss} {n k c j old : Nat}

theorem card_fiber_le (s : Rss) (c : Nat) : (fiber (Finset.range s.size) s.reta c).card ≤ s.size :=
  (Finset.card_filter_le ..).trans (Finset.card_range _).le

theorem RssInv.buckets_pos (h : RssInv s n) (hk : k < s.size) : 0 < s.buckets (s.reta k) := by
  rw [h.buckets _ (Nat.lt_of_lt_of_le (h.below k hk) h.cores)]
  exact Finset.card_pos.mpr ⟨k, mem_fiber.mpr ⟨Finset.mem_range.mpr hk, rfl⟩⟩

theorem RssInv.steer_eq (h : RssInv s n) (hk : k < s.size) (hc : s.reta k = c) (hj : j < n) (hcj : c ≠ j) :
    s.steer k c j = .ok (s.steered k c j) := by
  have hcm : c < s.coresMax := hc ▸ Nat.lt_of_lt_of_le (h.below k hk) h.cores
  have hjm : j < s.coresMax := Nat.lt_of_lt_of_le hj h.cores
  have hpos : 0 < s.buckets c := hc ▸ h.buckets_pos hk
  have hcle : s.buckets c ≤ 4096 := by
    rw [h.buckets c hcm]
    exact (card_fiber_le s c).trans h.size
  have hjle : s.buckets j ≤ 4096 := by
    rw [h.buckets j hjm]
    exact (card_fiber_le s j).trans h.size
  have hmax := h.max
  simp only [Rss.steer, Rss.addBuckets, if_pos hcm, if_pos hjm, Run.ok_bind, Rss.steered, update_of_ne (Ne.symm hcj)]
  rw [Nat.mod_eq_of_lt (show j < 0x100 by omega), Nat.mod_eq_of_lt (show s.buckets j + 1 < 0x10000 by omega),
    show (s.buckets c + 0xffff) % 0x10000 = s.buckets c - 1 by omega]

theorem RssInv.steered (h : RssInv s n) (hk : k < s.size) (hc : s.reta k = c) (hj : j < n) (hcj : c ≠ j) :
    RssInv (s.steered k c j) n where
  steering i hi := by
    by_cases hik : i = k
    · simp [Rss.steered, hik]
    · simpa [Rss.steered, hik] using h.steering i hi
  buckets d hd := by
    have hmem : k ∈ Finset.range s.size := Finset.mem_range.mpr hk
    simp only [Rss.steered] at hd ⊢
    by_cases hdj : d = j
    · subst hdj
      rw [update_self, card_update_new hmem (hc ▸ hcj), h.buckets d hd]
    · rw [update_of_ne hdj]
      by_cases hdc : d = c
      · subst hdc
        have hcard := card_update_old hmem hc hcj
        rw [update_self, h.buckets d hd]
        omega
      · rw [update_of_ne hdc, fiber_update_other (hc ▸ Ne.symm hdc) hdj, h.buckets d hd]
  below i hi := by
    by_cases hik : i = k
    · simpa [Rss.steered, hik] using hj
    · simpa [Rss.steered, hik] using h.below i hi
  hw i hi := by
    by_cases hik : i = k
    · simp [Rss.steered, hik]
    · simpa [Rss.steered, hik] using h.hw i hi
  cores := h.cores
  max := h.max
  size := h.size

/-! ## Choosing a core -/

theorem bucketsAt_ok (hc : c < s.coresMax) : s.bucketsAt c = .ok (s.buckets c) := if_pos hc

/-- `i_max` and `v_max` after `n` turns of `core_max`. -/
def MaxOf (s : Rss) (n : Nat) (iv : Nat × Nat) : Prop :=
  (n = 0 ∧ iv.2 = 0 ∨ iv.1 < n ∧ iv.2 = s.buckets iv.1) ∧ ∀ i, i < n → s.buckets i ≤ iv.2

theorem MaxOf.turn {i : Nat} {iv : Nat × Nat} (h : MaxOf s i iv) (hi : i < s.coresMax) :
    Ends (fun _ => False) (MaxOf s (i + 1)) (s.coreMaxTurn iv i) := by
  rw [Rss.coreMaxTurn, bucketsAt_ok hi]
  refine Ends.map (x := .ok (s.buckets i)) ?_
  dsimp only [Ends]
  split_ifs with hge
  · refine ⟨.inr ⟨Nat.lt_succ_self i, rfl⟩, fun i' hi' => ?_⟩
    rcases Nat.lt_succ_iff_lt_or_eq.mp hi' with hlt | rfl
    · exact (h.2 i' hlt).trans hge
    · exact Nat.le_refl _
  · refine ⟨?_, fun i' hi' => ?_⟩
    · rcases h.1 with ⟨rfl, h0⟩ | ⟨hlt, hv⟩
      · exact absurd (by rw [h0]; exact Nat.zero_le _) hge
      · exact .inr ⟨Nat.lt_succ_of_lt hlt, hv⟩
    · rcases Nat.lt_succ_iff_lt_or_eq.mp hi' with hlt | rfl
      · exact h.2 i' hlt
      · exact Nat.le_of_not_le hge

/-- `core_max` gives one of the cores with the most buckets. -/
theorem coreMax_ok (hn : n ≤ s.coresMax) :
    Ends (fun _ => False) (fun c => ∀ i, i < n → c < n ∧ s.buckets i ≤ s.buckets c) (s.coreMax n) := by
  have hinit : MaxOf s 0 (0, 0) := ⟨.inl ⟨rfl, rfl⟩, by simp⟩
  refine Ends.map ((Ends.foldlM_range hinit fun i iv hi h => h.turn (Nat.lt_of_lt_of_le hi hn)).imp ?_)
  intro iv h i hi
  rcases h.1 with ⟨rfl, -⟩ | ⟨hlt, hv⟩
  · exact absurd hi (Nat.not_lt_zero i)
  · exact ⟨hlt, hv ▸ h.2 i hi⟩

/-- Core `c` has the fewest buckets of the first `n` cores. -/
def Fewest (s : Rss) (n c : Nat) : Prop := c < n ∧ ∀ d, d < n → s.buckets c ≤ s.buckets d

/-- `i_min` and `v_min` after `n` turns of `core_min`. A core with `UINT8_MAX` buckets or more is passed over. -/
def MinOf (s : Rss) (n : Nat) (iv : Nat × Nat) : Prop :=
  iv = (0, 255) ∧ (∀ d, d < n → 255 ≤ s.buckets d) ∨ Fewest s n iv.1 ∧ iv.2 = s.buckets iv.1 ∧ iv.2 < 255

theorem MinOf.turn {i : Nat} {iv : Nat × Nat} (h : MinOf s i iv) (hi : i < s.coresMax) :
    Ends (fun _ => False) (MinOf s (i + 1)) (s.coreMinTurn iv i) := by
  rw [Rss.coreMinTurn, bucketsAt_ok hi]
  refine Ends.map (x := .ok (s.buckets i)) ?_
  dsimp only [Ends]
  split_ifs with hlt
  · refine .inr ⟨⟨Nat.lt_succ_self i, fun d hd => ?_⟩, rfl, ?_⟩
    · rcases Nat.lt_succ_iff_lt_or_eq.mp hd with hd | rfl
      · rcases h with ⟨rfl, hall⟩ | ⟨hfew, hv, -⟩
        · exact hlt.le.trans (hall d hd)
        · exact (hv ▸ hlt.le).trans (hfew.2 d hd)
      · exact Nat.le_refl _
    · rcases h with ⟨rfl, -⟩ | ⟨-, -, hv⟩
      · exact hlt
      · exact hlt.trans hv
  · have hle := Nat.le_of_not_lt hlt
    rcases h with ⟨rfl, hall⟩ | ⟨hfew, hv, hlow⟩
    · refine .inl ⟨rfl, fun d hd => ?_⟩
      rcases Nat.lt_succ_iff_lt_or_eq.mp hd with hd | rfl
      · exact hall d hd
      · exact hle
    · refine .inr ⟨⟨Nat.lt_succ_of_lt hfew.1, fun d hd => ?_⟩, hv, hlow⟩
      rcases Nat.lt_succ_iff_lt_or_eq.mp hd with hd | rfl
      · exact hfew.2 d hd
      · exact hv ▸ hle

/-- The core that `core_min` gives: 0 if all have `UINT8_MAX` buckets or more. -/
def Chosen (s : Rss) (n c : Nat) : Prop :=
  c < n ∧ (Fewest s n c ∧ s.buckets c < 255 ∨ c = 0 ∧ ∀ d, d < n → 255 ≤ s.buckets d)

theorem coreMin_ok (hn : n ≤ s.coresMax) (hpos : 0 < n) : Ends (fun _ => False) (Chosen s n) (s.coreMin n) := by
  have hinit : MinOf s 0 (0, 255) := .inl ⟨rfl, by simp⟩
  refine Ends.map ((Ends.foldlM_range hinit fun i iv hi h => h.turn (hi.trans_le hn)).imp ?_)
  rintro iv (⟨rfl, hall⟩ | ⟨hfew, hv, hlow⟩)
  · exact ⟨hpos, .inr ⟨rfl, hall⟩⟩
  · exact ⟨hfew.1, .inl ⟨hfew, hv ▸ hlow⟩⟩

/-- The search finds a bucket of the core if there is one. -/
theorem search_ok {turns : Nat} (hk : k < s.size) (hex : ∃ i, i < turns ∧ s.reta ((k + i) % s.size) = c) :
    ∃ r, s.search c turns k = .ok r ∧ r < s.size ∧ s.reta r = c := by
  induction turns generalizing k with
  | zero =>
    obtain ⟨i, hi, -⟩ := hex
    exact absurd hi (Nat.not_lt_zero _)
  | succ turns ih =>
    rw [Rss.search]
    split_ifs with hc
    · exact ⟨k, rfl, hk, hc⟩
    · have hpos : 0 < s.size := Nat.zero_lt_of_lt hk
      refine ih (Nat.mod_lt _ hpos) ?_
      obtain ⟨i, hi, hr⟩ := hex
      cases i with
      | zero =>
        rw [Nat.add_zero, Nat.mod_eq_of_lt hk] at hr
        exact absurd hr hc
      | succ i =>
        refine ⟨i, Nat.lt_of_succ_lt_succ hi, ?_⟩
        rw [Nat.mod_add_mod, Nat.add_assoc, Nat.add_comm 1]
        exact hr

theorem search_found (hk : k < s.size) {r : Nat} (hr : r < s.size) (hc : s.reta r = c) :
    ∃ r, s.search c s.size k = .ok r ∧ r < s.size ∧ s.reta r = c := by
  refine search_ok hk ⟨(r + (s.size - k)) % s.size, Nat.mod_lt _ (Nat.zero_lt_of_lt hk), ?_⟩
  rw [Nat.add_mod_mod, show k + (r + (s.size - k)) = r + s.size by omega, Nat.add_mod_right, Nat.mod_eq_of_lt hr]
  exact hc

/-! ## Scaling -/

/-- The numbers that scaling does not change. -/
structure Same (s t : Rss) : Prop where
  size : t.size = s.size
  coresMax : t.coresMax = s.coresMax
  coresCur : t.coresCur = s.coresCur
  scaleTo : t.scaleTo = s.scaleTo
  numCores : t.numCores = s.numCores

theorem Same.refl (s : Rss) : Same s s := ⟨rfl, rfl, rfl, rfl, rfl⟩

theorem Same.trans {u : Rss} (h : Same s t) (h' : Same t u) : Same s u :=
  ⟨h'.size.trans h.size, h'.coresMax.trans h.coresMax, h'.coresCur.trans h.coresCur, h'.scaleTo.trans h.scaleTo,
    h'.numCores.trans h.numCores⟩

theorem same_steered (s : Rss) (k c j : Nat) : Same s (s.steered k c j) := ⟨rfl, rfl, rfl, rfl, rfl⟩

theorem RssInv.mono {n' : Nat} (h : RssInv s n) (hn : n ≤ n') (hmax : n' ≤ s.coresMax) : RssInv s n' :=
  { h with below := fun k hk => Nat.lt_of_lt_of_le (h.below k hk) hn, cores := hmax }

/-- The number of buckets that are not steered to the first `old` cores. -/
def numMoved (s : Rss) (old : Nat) : Nat := (fiber (Finset.range s.size) (fun k => decide (old ≤ s.reta k)) true).card

theorem numMoved_steered (hk : k < s.size) (hc : s.reta k < old) (hj : old ≤ j) :
    numMoved (s.steered k c j) old = numMoved s old + 1 := by
  have hcomp : (fun i => decide (old ≤ update s.reta k j i)) = update (fun i => decide (old ≤ s.reta i)) k true := by
    funext i
    by_cases hik : i = k
    · simp [hik, hj]
    · simp [hik]
  rw [numMoved, numMoved, ← card_update_new (Finset.mem_range.mpr hk) (by simpa using hc), ← hcomp]
  rfl

theorem exists_of_moved (h : numMoved s old < s.size) : ∃ k, k < s.size ∧ s.reta k < old := by
  by_contra hall
  have hfull : fiber (Finset.range s.size) (fun k => decide (old ≤ s.reta k)) true = Finset.range s.size := by
    ext k
    rw [mem_fiber]
    refine and_iff_left_of_imp fun hk => decide_eq_true ?_
    exact Nat.le_of_not_lt fun hlt => hall ⟨k, Finset.mem_range.mp hk, hlt⟩
  rw [numMoved, hfull, Finset.card_range] at h
  exact Nat.lt_irrefl _ h

/-- The state of `network_scale_up` after `moves` moves. -/
structure Up (s : Rss) (old n moves : Nat) (sk : Rss × Nat) : Prop where
  inv : RssInv sk.1 n
  same : Same s sk.1
  moved : numMoved sk.1 old = moves
  start : 0 < s.size → sk.2 < s.size

theorem Up.turn {moves : Nat} {sk : Rss × Nat} (h : Up s old n moves sk) (hm : moves < s.size) (hj : old ≤ j) (hjn : j < n) :
    Ends (fun _ => False) (Up s old n (moves + 1)) (Rss.scaleUpTurn old j sk) := by
  obtain ⟨s₁, k₁⟩ := sk
  obtain ⟨hinv, hsame, hmoved, hstart⟩ := h
  dsimp only at hinv hsame hmoved hstart
  have hsize := hsame.size
  have hcores : n ≤ s₁.coresMax := hinv.cores
  obtain ⟨k₀, hk₀, hlt⟩ := exists_of_moved (show numMoved s₁ old < s₁.size by omega)
  refine (coreMax_ok (n := old) (s := s₁) (by omega)).bind fun c hc => ?_
  -- the core with the most buckets has one, since the core of `k₀` has
  have hpos : 0 < s₁.buckets c := Nat.lt_of_lt_of_le (hinv.buckets_pos hk₀) (hc _ hlt).2
  have hcold := (hc _ hlt).1
  rw [hinv.buckets c (by omega)] at hpos
  obtain ⟨r, hr⟩ := Finset.card_pos.mp hpos
  obtain ⟨hr, hrc⟩ := mem_fiber.mp hr
  obtain ⟨k, hsearch, hk, hkc⟩ := search_found (show k₁ < s₁.size by omega) (Finset.mem_range.mp hr) hrc
  simp only [hsearch, Run.ok_bind, hinv.steer_eq hk hkc hjn (show c ≠ j by omega)]
  refine ⟨hinv.steered hk hkc hjn (by omega), hsame.trans (same_steered ..), ?_, fun _ => hsize ▸ hk⟩
  rw [numMoved_steered hk (hkc ▸ hcold) hj, hmoved]

theorem Up.core {moves share : Nat} {sk : Rss × Nat} (h : Up s old n moves sk) (hm : moves + share ≤ s.size) (hj : old ≤ j)
    (hjn : j < n) : Ends (fun _ => False) (Up s old n (moves + share)) (Rss.scaleUpCore old share j sk) :=
  Ends.foldlM_range (I := fun i sk => Up s old n (moves + i) sk) h fun _ _ hi h => h.turn (by omega) hj hjn

/-- The card has the table, and all buckets are steered to the first `n` cores. -/
structure Steered (s : Rss) (n : Nat) : Prop extends RssInv s n where
  updated : ∀ k, k < s.size → s.hw k = s.reta k

theorem RssInv.retaUpdate (h : RssInv t n) (hs : Same s t) (ok : Bool) :
    Ends (· = Stop.aborted) (fun u => Steered u n ∧ Same s u) (t.retaUpdate ok) := by
  rw [Rss.retaUpdate]
  split_ifs
  · have hup : ∀ k, k < t.size → (if k < t.size ∧ t.mask k = true then t.reta k else t.hw k) = t.reta k := by
      intro k hk
      split_ifs with hmask
      · rfl
      · exact (h.hw k hk).resolve_left fun hm => hmask ⟨hk, hm⟩
    exact ⟨⟨{ h with hw := fun k hk => .inr (hup k hk) }, hup⟩, { hs with }⟩
  · rfl

theorem Steered.clearMask (h : Steered s n) : RssInv s.clearMask n :=
  { h with hw := fun k hk => .inr (h.updated k hk) }

/-- `network_scale_up` ends, and steers buckets to the new cores. -/
theorem Steered.networkScaleUp (h : Steered s old) (hon : old < n) (hn : n ≤ s.coresMax) (ok : Bool) :
    Ends (· = Stop.aborted) (fun t => Steered t n ∧ Same s t) (s.networkScaleUp old n ok) := by
  have hnone : numMoved s.clearMask old = 0 := by
    refine Finset.card_eq_zero.mpr (Finset.eq_empty_of_forall_notMem fun k hk => ?_)
    obtain ⟨hk, hle⟩ := mem_fiber.mp hk
    have := h.below k (Finset.mem_range.mp hk)
    exact absurd (of_decide_eq_true hle) (by simpa [Rss.clearMask] using this)
  have hinit : Up s old n (0 * (s.size / n)) (s.clearMask, 0) :=
    ⟨h.clearMask.mono hon.le hn, ⟨rfl, rfl, rfl, rfl, rfl⟩, by rw [Nat.zero_mul]; exact hnone, id⟩
  rw [Rss.networkScaleUp, if_neg (by omega)]
  have hloop : Ends (fun _ => False) (Up s old n ((n - old) * (s.size / n)))
      ((range (n - old)).foldlM (fun sk i => Rss.scaleUpCore old (s.size / n) (old + i) sk) (s.clearMask, 0)) := by
    refine Ends.foldlM_range (I := fun i sk => Up s old n (i * (s.size / n)) sk) hinit fun i sk hi hup => ?_
    have hroom : (i + 1) * (s.size / n) ≤ s.size :=
      (Nat.mul_le_mul_right _ (by omega : i + 1 ≤ n)).trans (Nat.mul_div_le s.size n)
    rw [Nat.succ_mul] at hroom ⊢
    exact hup.core hroom (Nat.le_add_right ..) (by omega)
  exact (hloop.mono (fun _ => False.elim) fun _ => id).bind fun sk hup => hup.inv.retaUpdate hup.same ok

/-- The tables before turn `i` of `network_scale_down`. -/
def Rss.downAt (s : Rss) (n i : Nat) : Except Stop Rss := (List.range i).foldlM (Rss.scaleDownTurn n) s.clearMask

/-- How many of the first `i` buckets are steered to cores from `n` on. -/
def numDown (s : Rss) (n i : Nat) : Nat := (List.range i).countP fun k => decide (n ≤ s.reta k)

/-- How many buckets the first `n` cores can be given until all have `UINT8_MAX`. -/
def room (s : Rss) (n : Nat) : Nat := ∑ c ∈ Finset.range n, (255 - s.buckets c)

/-- The buckets before `i` are steered to the first `n` cores, and those that were stay where they are. The
first `m` buckets that are moved fill the cores up to `UINT8_MAX`, and the others go to core 0. -/
structure Down (s : Rss) (old n i : Nat) (t : Rss) : Prop where
  inv : RssInv t old
  same : Same s t
  done : ∀ k, k < i → t.reta k < n ∧ (s.reta k < n → t.reta k = s.reta k)
  rest : ∀ k, i ≤ k → t.reta k = s.reta k
  left : room t n = room s n - numDown s n i
  first : max 255 (t.buckets 0) = max 255 (s.buckets 0) + (numDown s n i - room s n)
  others : ∀ c, 0 < c → c < n → max 255 (t.buckets c) = max 255 (s.buckets c)

/-- What a turn does with bucket `i`. -/
def Turned (n : Nat) (t : Rss) (i : Nat) (u : Rss) : Prop :=
  if t.reta i < n then u = t else ∃ c, Chosen t n c ∧ u = t.steered i (t.reta i) c

theorem numDown_succ (s : Rss) (n i : Nat) : numDown s n (i + 1) = numDown s n i + if s.reta i < n then 0 else 1 := by
  rw [numDown, numDown, range_succ, countP_append, countP_singleton]
  by_cases hlt : s.reta i < n
  · simp [hlt]
  · simp [hlt, Nat.le_of_not_lt hlt]

theorem room_eq_zero (h : ∀ d, d < n → 255 ≤ t.buckets d) : room t n = 0 :=
  Finset.sum_eq_zero fun d hd => Nat.sub_eq_zero_of_le (h d (Finset.mem_range.mp hd))

theorem steered_buckets {d : Nat} (hd : d < n) (hj : n ≤ j) :
    (t.steered k j c).buckets d = t.buckets d + if d = c then 1 else 0 := by
  by_cases hdc : d = c
  · simp [Rss.steered, hdc]
  · simp [Rss.steered, hdc, (hd.trans_le hj).ne]

theorem room_steered (hc : c < n) (hj : n ≤ j) (hlow : t.buckets c < 255) : room (t.steered k j c) n + 1 = room t n := by
  have hmem := Finset.mem_range.mpr hc
  have hrest : ∀ d ∈ (Finset.range n).erase c, 255 - (t.steered k j c).buckets d = 255 - t.buckets d := by
    intro d hd
    obtain ⟨hdc, hd⟩ := Finset.mem_erase.mp hd
    rw [steered_buckets (Finset.mem_range.mp hd) hj, if_neg hdc, Nat.add_zero]
  rw [room, room, ← Finset.add_sum_erase _ _ hmem, ← Finset.add_sum_erase _ _ hmem, Finset.sum_congr rfl hrest,
    steered_buckets hc hj, if_pos rfl]
  omega

theorem Down.turn {i : Nat} (h : Down s old n i t) (hi : i < s.size) (hn : n ≤ old) (hpos : 0 < n) :
    Ends (fun _ => False) (fun u => Down s old n (i + 1) u ∧ Turned n t i u) (Rss.scaleDownTurn n t i) := by
  have hi' : i < t.size := h.same.size ▸ hi
  have hrest := h.rest i (Nat.le_refl i)
  have hnum := numDown_succ s n i
  rw [Rss.scaleDownTurn]
  split_ifs with hge
  · refine (coreMin_ok (hn.trans h.inv.cores) hpos).bind fun c hc => ?_
    have hcn := hc.1
    rw [h.inv.steer_eq hi' rfl (hcn.trans_le hn) (by omega)]
    refine ⟨?_, by rw [Turned, if_neg (Nat.not_lt_of_le hge)]; exact ⟨c, hc, rfl⟩⟩
    rw [if_neg (by omega)] at hnum
    have hroom := h.left
    have hfirst := h.first
    have hbuckets : ∀ d, d < n → (t.steered i (t.reta i) c).buckets d = _ := fun d hd => steered_buckets hd hge
    refine ⟨h.inv.steered hi' rfl (hcn.trans_le hn) (by omega), h.same.trans (same_steered ..), fun k hk => ?_,
      fun k hk => ?_, ?_, ?_, fun d hd hdn => ?_⟩
    · by_cases hki : k = i
      · subst hki
        exact ⟨by simpa [Rss.steered] using hcn, fun hlt => absurd hlt (by omega)⟩
      · simpa [Rss.steered, hki] using h.done k (by omega)
    · simpa [Rss.steered, show k ≠ i by omega] using h.rest k (by omega)
    · obtain ⟨-, ⟨-, hlow⟩ | ⟨-, hall⟩⟩ := hc
      · have := room_steered (k := i) hcn hge hlow
        omega
      · rw [room_eq_zero fun d hd => (hall d hd).trans (hbuckets d hd ▸ Nat.le_add_right ..)]
        rw [room_eq_zero hall] at hroom
        omega
    · rw [hbuckets 0 hpos]
      obtain ⟨-, ⟨-, hlow⟩ | ⟨rfl, hall⟩⟩ := hc
      · have := room_steered (k := i) hcn hge hlow
        split_ifs with h0
        · subst h0
          omega
        · omega
      · have := hall 0 hpos
        rw [room_eq_zero hall] at hroom
        rw [if_pos rfl]
        omega
    · rw [hbuckets d hdn, ← h.others d hd hdn]
      obtain ⟨-, ⟨-, hlow⟩ | ⟨rfl, -⟩⟩ := hc
      · split_ifs with hdc
        · subst hdc
          omega
        · rfl
      · rw [if_neg hd.ne', Nat.add_zero]
  · have hlt := Nat.lt_of_not_le hge
    rw [if_pos (hrest ▸ hlt), Nat.add_zero] at hnum
    refine ⟨⟨h.inv, h.same, fun k hk => ?_, fun k hk => h.rest k (by omega), hnum ▸ h.left, hnum ▸ h.first, h.others⟩,
      by rw [Turned, if_pos hlt]⟩
    rcases Nat.lt_succ_iff_lt_or_eq.mp hk with hk | rfl
    · exact h.done k hk
    · exact ⟨hlt, fun _ => hrest⟩

theorem down_init (h : Steered s old) : Down s old n 0 s.clearMask :=
  ⟨h.clearMask, ⟨rfl, rfl, rfl, rfl, rfl⟩, by simp, fun _ _ => rfl, rfl, by simp [numDown, Rss.clearMask], fun _ _ _ => rfl⟩

theorem downAt_ok {i : Nat} (h : Steered s old) (hn : n ≤ old) (hpos : 0 < n) (hi : i ≤ s.size) :
    Ends (fun _ => False) (Down s old n i) (s.downAt n i) :=
  Ends.foldlM_range (down_init h) fun _ _ hk ht => (ht.turn (hk.trans_le hi) hn hpos).imp fun _ => And.left

/-- `network_scale_down` ends, and steers all buckets to the cores that are left. -/
theorem Steered.networkScaleDown (h : Steered s old) (hn : n ≤ old) (hpos : 0 < n) (ok : Bool) :
    Ends (· = Stop.aborted) (fun t => Steered t n ∧ Same s t) (s.networkScaleDown n ok) := by
  refine ((downAt_ok h hn hpos (Nat.le_refl _)).mono (fun _ => False.elim) fun _ => id).bind fun t ht => ?_
  have hinv' : RssInv t n :=
    { ht.inv with below := fun k hk => (ht.done k (ht.same.size ▸ hk)).1, cores := hn.trans ht.inv.cores }
  exact hinv'.retaUpdate ht.same ok

/-! ## Runs -/

/-- The three tables agree and the number of cores is in its range. -/
structure SteeringExact (s : Rss) : Prop where
  hw : ∀ k, k < s.size → s.hw k = s.steering k
  buckets : ∀ c, c < s.coresMax → s.buckets c = (fiber (Finset.range s.size) s.steering c).card
  below : ∀ k, k < s.size → s.steering k < s.coresCur
  cores : 1 ≤ s.coresCur ∧ s.coresCur ≤ s.coresMax

structure ScaleInv (s : Rss) : Prop extends Steered s s.coresCur where
  pos : 1 ≤ s.coresCur
  scaleTo : s.scaleTo ≤ s.coresMax
  numCores : 1 ≤ s.numCores ∧ s.numCores ≤ s.coresMax

theorem ScaleInv.exact (h : ScaleInv s) : SteeringExact s where
  hw k hk := (h.updated k hk).trans (h.steering k hk).symm
  buckets c hc := by
    rw [h.buckets c hc]
    congr 1
    exact Finset.filter_congr fun k hk => by rw [h.steering k (Finset.mem_range.mp hk)]
  below k hk := by
    rw [h.steering k hk]
    exact h.below k hk
  cores := ⟨h.pos, h.cores⟩

/-- The tables after `i` turns of the loop of `reta_setup`, where there is one core. -/
structure SetUp (s : Rss) (i : Nat) (tc : Rss × Nat) : Prop where
  same : Same s tc.1
  core : tc.2 = 0
  reta : ∀ k, tc.1.reta k = 0
  steering : ∀ k, tc.1.steering k = 0
  mask : ∀ k, k < i → tc.1.mask k = true
  buckets : tc.1.buckets 0 = i
  others : ∀ c, c ≠ 0 → tc.1.buckets c = 0

theorem SetUp.turn {i : Nat} {tc : Rss × Nat} (h : SetUp s i tc) (hi : i < 4096) (hcur : s.coresCur = 1) (hmax : 0 < s.coresMax) :
    Ends (fun _ => False) (SetUp s (i + 1)) (Rss.retaSetupTurn tc i) := by
  obtain ⟨t, c⟩ := tc
  obtain ⟨hsame, hcore, hreta, hsteer, hmask, hb, ho⟩ := h
  subst hcore
  rw [Rss.retaSetupTurn, Rss.addBuckets, if_pos (hsame.coresMax ▸ hmax), Run.ok_bind]
  refine ⟨{ hsame with }, ?_, fun k => ?_, fun k => ?_, fun k hk => ?_, ?_, fun c hc => ?_⟩
  · dsimp only
    rw [hsame.coresCur, hcur]
  · by_cases hki : k = i
    · simp [hki]
    · simpa [hki] using hreta k
  · by_cases hki : k = i
    · simp [hki]
    · simpa [hki] using hsteer k
  · by_cases hki : k = i
    · simp [hki]
    · simpa [hki] using hmask k (by omega)
  · dsimp only
    rw [update_self, hb, Nat.mod_eq_of_lt (by omega)]
  · dsimp only
    rw [update_of_ne hc, ho c hc]

theorem SetUp.inv {tc : Rss × Nat} (h : SetUp s s.size tc) (hmax : 0 < s.coresMax) (hmcs : s.coresMax ≤ 16)
    (hsize : s.size ≤ 4096) : RssInv tc.1 1 where
  steering k _ := by rw [h.steering, h.reta]
  buckets c _ := by
    have hfib : fiber (Finset.range tc.1.size) tc.1.reta c = if c = 0 then Finset.range tc.1.size else ∅ := by
      ext k
      by_cases hc : c = 0
      · simp [mem_fiber, h.reta k, hc]
      · simp [mem_fiber, h.reta k, hc, Ne.symm hc]
    rw [hfib]
    split_ifs with hc
    · rw [hc, h.buckets, Finset.card_range, h.same.size]
    · rw [h.others c hc, Finset.card_empty]
  below k _ := by
    rw [h.reta]
    exact Nat.one_pos
  hw k hk := .inl (h.mask k (h.same.size ▸ hk))
  cores := by
    rw [h.same.coresMax]
    exact hmax
  max := by
    rw [h.same.coresMax]
    exact hmcs
  size := by
    rw [h.same.size]
    exact hsize

theorem SetUp.retaSetup (h : SetUp s 0 (s, 0)) (hcur : s.coresCur = 1) (hmax : 0 < s.coresMax) (hmcs : s.coresMax ≤ 16)
    (ok : Bool) : Ends (· = Stop.aborted) (fun u => Steered u 1 ∧ Same s u) (s.retaSetup ok) := by
  rw [Rss.retaSetup]
  split_ifs with hsize
  · rfl
  · have hsize : s.size ≤ 4096 := Nat.le_of_not_lt hsize
    have hloop : Ends (fun _ => False) (SetUp s s.size) ((range s.size).foldlM Rss.retaSetupTurn (s, 0)) :=
      Ends.foldlM_range h fun i tc hi h => h.turn (Nat.lt_of_lt_of_le hi hsize) hcur hmax
    refine (hloop.mono (fun _ => False.elim) fun _ => id).bind fun tc h => ?_
    exact (h.inv hmax hmcs hsize).retaUpdate h.same ok

theorem networkInit_inv (size coresMax : Nat) (hw : Nat → Nat) (ok : Bool) :
    Ends (· = Stop.aborted) ScaleInv (Rss.networkInit size coresMax hw ok) := by
  rw [Rss.networkInit]
  split_ifs with hmax
  · rfl
  · obtain ⟨hpos, hmcs⟩ := not_or.mp hmax
    have hpos : 0 < coresMax := Nat.pos_of_ne_zero hpos
    have hmcs : coresMax ≤ 16 := Nat.le_of_not_lt hmcs
    refine (SetUp.retaSetup ?_ rfl hpos hmcs ok).imp ?_
    · exact ⟨Same.refl _, rfl, fun _ => rfl, fun _ => rfl, by simp, rfl, fun _ _ => rfl⟩
    · rintro u ⟨hu, hsame⟩
      have hcur : u.coresCur = 1 := hsame.coresCur
      have hto : u.scaleTo = 0 := hsame.scaleTo
      have hnum : u.numCores = 1 := hsame.numCores
      have hcm : u.coresMax = coresMax := hsame.coresMax
      exact ⟨hcur ▸ hu, hcur.ge, by omega, by omega⟩

theorem ScaleInv.flexnicScaleTo (h : ScaleInv s) (hn : n ≤ s.coresMax) : ScaleInv (s.flexnicScaleTo n) := by
  rw [Rss.flexnicScaleTo]
  split_ifs
  · exact h
  · exact { h with scaleTo := hn }

/-- The change of the tables in `poll_scale`. -/
theorem ScaleInv.scale (h : ScaleInv s) (h0 : s.scaleTo ≠ 0) (ok : Bool) :
    Ends (· = Stop.aborted) (fun t => Steered t s.scaleTo ∧ Same s t) (s.scale ok) := by
  have hmax := h.max
  have hcores := h.cores
  have hto := h.scaleTo
  rw [Rss.scale, Nat.mod_eq_of_lt (show s.scaleTo < 0x10000 by omega), Nat.mod_eq_of_lt (show s.coresCur < 0x10000 by omega)]
  split_ifs with hdown hup
  · exact h.toSteered.networkScaleDown hdown.le (Nat.pos_of_ne_zero h0) ok
  · exact h.toSteered.networkScaleUp hup hto ok
  · have heq : s.scaleTo = s.coresCur := by omega
    exact ⟨heq ▸ h.toSteered, Same.refl s⟩

theorem ScaleInv.pollScale (h : ScaleInv s) (ok : Bool) : Ends (· = Stop.aborted) ScaleInv (s.pollScale ok) := by
  rw [Rss.pollScale]
  split_ifs with h0
  · exact h
  · refine Ends.map ((h.scale h0 ok).imp ?_)
    rintro t ⟨ht, hsame⟩
    refine ⟨⟨{ ht with }, ht.updated⟩, Nat.pos_of_ne_zero h0, Nat.zero_le _, ?_⟩
    rw [hsame.numCores, hsame.coresMax]
    exact h.numCores

/-- Every step of the two threads keeps the tables. -/
theorem ScaleInv.call (h : ScaleInv s) {op : ScaleOp} (hop : ∀ n, op = .reqScale n → n.toNat ≤ s.coresMax) :
    Ends (· = Stop.aborted) ScaleInv (scaleCall s op) := by
  obtain ⟨hnpos, hnmax⟩ := h.numCores
  cases op with
  | reqScale n => exact h.flexnicScaleTo (hop n rfl)
  | loadmonStart => exact { h with numCores := ⟨h.pos, h.cores⟩ }
  | loadmonDown =>
    rw [scaleCall]
    split_ifs
    · exact h.flexnicScaleTo (by omega)
    · exact h
  | loadmonUp =>
    rw [scaleCall]
    split_ifs with hlt
    · exact h.flexnicScaleTo hlt
    · exact h
  | pollScale ok => exact h.pollScale ok

namespace ScaleProc

/-- No application asks for more than `fp_cores_max` cores. -/
def Careful : ScaleProc → ScaleOp → Prop
  | .ok s, .reqScale n => n.toNat ≤ s.coresMax
  | _, _ => True

instance Careful.dec : ∀ p op, Decidable (Careful p op)
  | .ok _, .reqScale _ => inferInstanceAs (Decidable (_ ≤ _))
  | .ok _, .loadmonStart | .ok _, .loadmonDown | .ok _, .loadmonUp | .ok _, .pollScale _ | .error _, _ => isTrue trivial

end ScaleProc

/-- In every run in which applications ask for cores that there are, the searches end and the tables
agree, whatever the load monitor does. -/
theorem steering_exact {size coresMax : Nat} {hw : Nat → Nat} {ok : Bool} {ops : List ScaleOp}
    (hops : Run.All scaleStep ScaleProc.Careful (Rss.networkInit size coresMax hw ok) ops) {r : ScaleProc}
    (hr : Run.exec scaleStep (Rss.networkInit size coresMax hw ok) ops = some r) : Ends (· = Stop.aborted) SteeringExact r := by
  have hstep : ∀ p op p', Ends (· = Stop.aborted) ScaleInv p → ScaleProc.Careful p op → scaleStep p op = some p' →
      Ends (· = Stop.aborted) ScaleInv p' := by
    intro p op p' hp hc hs
    cases p with
    | error e => cases hs
    | ok s =>
      obtain rfl := Option.some.inj hs
      refine ScaleInv.call hp fun n e => ?_
      subst e
      exact hc
  exact (Run.exec_inv hstep (networkInit_inv size coresMax hw ok) hops hr).imp fun _ h => h.exact

/-- Scaling up to three cores, down to two and one, and up again. -/
def upAndDown : List ScaleOp :=
  [.reqScale 3, .reqScale 1, .pollScale true, .loadmonStart, .loadmonDown, .pollScale true, .reqScale 1, .pollScale true,
    .loadmonStart, .loadmonUp, .pollScale true]

theorem steering_exact_up_and_down : ∃ r, Run.exec scaleStep (Rss.networkInit 8 3 (fun _ => 7) true) upAndDown = some r ∧
    Ends (· = Stop.aborted) SteeringExact r ∧
    Ends (fun _ => False) (fun s => (List.range 8).map s.hw = [1, 1, 1, 1, 0, 0, 0, 0] ∧ s.coresCur = 2) r := by
  obtain ⟨r, hr⟩ := Option.isSome_iff_exists.mp
    (show (Run.exec scaleStep (Rss.networkInit 8 3 (fun _ => 7) true) upAndDown).isSome by decide +kernel)
  exact ⟨r, hr, steering_exact (by decide +kernel) hr, Run.forall_exec
    (P := Ends (fun _ => False) (fun s => (range 8).map s.hw = [1, 1, 1, 1, 0, 0, 0, 0] ∧ s.coresCur = 2))
    (by decide +kernel) hr⟩

/-- More cores than there are: the count of a core outside `rss_core_buckets` changes; with more cores
than buckets only the number of cores is wrong; and as 16 bits the number is zero. -/
def scaleSlips : List (List ScaleOp) :=
  [[.reqScale 3, .pollScale true], [.reqScale 9, .pollScale true], [.reqScale 0x10000, .pollScale true]]

theorem steering_slips : scaleSlips.Forall fun ops =>
    ¬ ∀ r, Run.exec scaleStep (Rss.networkInit 8 2 (fun _ => 0) true) ops = some r → Ends (· = Stop.aborted) SteeringExact r := by
  have hruns : ∀ ops ∈ scaleSlips, (Run.exec scaleStep (Rss.networkInit 8 2 (fun _ => 0) true) ops).all
      (fun r => decide (Ends (· = Stop.aborted) (fun s => s.coresCur ≤ s.coresMax) r)) = false := by
    decide +kernel
  rw [forall_iff_forall_mem]
  intro ops hops h
  exact Run.not_forall_exec (hruns ops hops) fun r hr => (h r hr).imp fun _ hs => hs.cores.2

/-! ## Balance -/

/-- The counts of the first `n` cores differ by at most one. -/
def Balanced (s : Rss) (n : Nat) : Prop := ∀ c d, c < n → d < n → s.buckets c ≤ s.buckets d + 1

/-- `network_scale_down` moves the buckets of the cores from `n` on and no others, each to a core with
the fewest buckets at that time, and keeps the balance. -/
structure ScaledDown (s : Rss) (old n : Nat) : Prop where
  turns : ∀ i, i < s.size → ∃ t, s.downAt n i = .ok t ∧ t.reta i = s.reta i ∧
    if s.reta i < n then s.downAt n (i + 1) = .ok t
    else ∃ c, Fewest t n c ∧ s.downAt n (i + 1) = .ok (t.steered i (s.reta i) c)
  moves : ∃ t, s.networkScaleDown n true = .ok t ∧ (∀ k, k < s.size → (t.reta k = s.reta k ↔ s.reta k < n)) ∧
    (Balanced s old → Balanced t n)

theorem downAt_succ (s : Rss) (n i : Nat) : s.downAt n (i + 1) = s.downAt n i >>= (Rss.scaleDownTurn n · i) := by
  rw [Rss.downAt, Rss.downAt, range_succ, foldlM_append]
  refine bind_congr fun t => ?_
  exact bind_pure _

theorem Fewest.balanced (h : Fewest s n c) (hb : Balanced s n) (hk : n ≤ j) : Balanced (s.steered k j c) n := by
  intro d e hd he
  have hde := hb d e hd he
  have hce := h.2 e he
  have hdc := hb d c hd h.1
  rw [steered_buckets hd hk, steered_buckets he hk]
  split_ifs with hdc' hec' hec'
  · omega
  · subst hdc'
    omega
  · omega
  · exact hde

/-- The buckets of the cores that are removed fill those that stay up to `UINT8_MAX` at most, or the others
leave core 0 with no more buckets than the cores that stay, but for the last one. -/
def DownFits (s : Rss) (n : Nat) : Prop :=
  numDown s n s.size ≤ room s n ∨ ∀ c, 0 < c → c < n →
    max 255 (s.buckets 0) + (numDown s n s.size - room s n) ≤ max 255 (s.buckets c) + 1

theorem numDown_mono (s : Rss) (n : Nat) {i k : Nat} (h : i ≤ k) : numDown s n i ≤ numDown s n k :=
  (range_sublist.mpr h).countP_le

theorem exists_last_down {i : Nat} (h : 0 < numDown s n i) :
    ∃ k, k < i ∧ n ≤ s.reta k ∧ numDown s n i = numDown s n k + 1 := by
  induction i with
  | zero => cases h
  | succ i ih =>
    rw [numDown_succ] at h ⊢
    split_ifs at h ⊢ with hlt
    · obtain ⟨k, hk, hge, he⟩ := ih h
      exact ⟨k, Nat.lt_succ_of_lt hk, hge, he⟩
    · exact ⟨i, Nat.lt_succ_self i, Nat.le_of_not_lt hlt, rfl⟩

/-- The core that `core_min` gives has the fewest buckets if there is room, or core 0 has. -/
theorem Down.fewest_iff {i : Nat} (h : Down s old n i t) (hc : Chosen t n c) : Fewest t n c ↔
    numDown s n i < room s n ∨ ∀ d, 0 < d → d < n →
      max 255 (s.buckets 0) + (numDown s n i - room s n) ≤ max 255 (s.buckets d) := by
  have hroom := h.left
  have hfirst := h.first
  obtain ⟨hcn, ⟨hfew, hlow⟩ | ⟨rfl, hall⟩⟩ := hc
  · have := room_steered (k := 0) hcn (Nat.le_refl n) hlow
    exact ⟨fun _ => .inl (by omega), fun _ => hfew⟩
  · rw [room_eq_zero hall] at hroom
    have h0 := hall 0 hcn
    constructor
    · refine fun hfew => .inr fun d hd hdn => ?_
      have hle := hfew.2 d hdn
      rw [← hfirst, ← h.others d hd hdn]
      omega
    · rintro (hlt | hle)
      · omega
      · refine ⟨hcn, fun d hdn => ?_⟩
        rcases Nat.eq_zero_or_pos d with rfl | hd
        · exact Nat.le_refl _
        · have hd255 := hall d hdn
          have hle := hle d hd hdn
          rw [← hfirst, ← h.others d hd hdn] at hle
          omega

theorem Down.turn_fewest {i : Nat} (h : Down s old n i t) (hi : i < s.size) (hn : n ≤ old) (hpos : 0 < n)
    (hfit : DownFits s n) : Ends (fun _ => False)
      (fun u => Down s old n (i + 1) u ∧
        if s.reta i < n then u = t else ∃ c, Fewest t n c ∧ u = t.steered i (s.reta i) c) (Rss.scaleDownTurn n t i) := by
  refine (h.turn hi hn hpos).imp ?_
  rintro u ⟨hu, hturn⟩
  rw [Turned, h.rest i (Nat.le_refl i)] at hturn
  refine ⟨hu, ?_⟩
  split_ifs at hturn ⊢ with hlt
  · exact hturn
  · obtain ⟨c, hc, rfl⟩ := hturn
    have hnum := numDown_succ s n i
    have hle : numDown s n (i + 1) ≤ numDown s n s.size := numDown_mono s n hi
    rw [if_neg hlt] at hnum
    refine ⟨c, (h.fewest_iff hc).mpr ?_, rfl⟩
    rcases hfit with hfit | hfit
    · exact .inl (by omega)
    · by_cases hroom : numDown s n i < room s n
      · exact .inl hroom
      · refine .inr fun d hd hdn => ?_
        have := hfit d hd hdn
        omega

theorem Steered.scaledDown (h : Steered s old) (hn : n ≤ old) (hpos : 0 < n) (hfit : DownFits s n) : ScaledDown s old n where
  turns i hi := by
    obtain ⟨t, hd, ht⟩ := (downAt_ok h hn hpos hi.le).exists_ok
    obtain ⟨u, hu, -, hturn⟩ := (ht.turn_fewest hi hn hpos hfit).exists_ok
    refine ⟨t, hd, ht.rest i (Nat.le_refl i), ?_⟩
    rw [downAt_succ, hd, Run.ok_bind, hu]
    split_ifs at hturn ⊢ with hlt
    · rw [hturn]
    · obtain ⟨c, hc, rfl⟩ := hturn
      exact ⟨c, hc, rfl⟩
  moves := by
    -- the loop, with the balance as part of its invariant
    have hloop : Ends (fun _ => False) (fun t => Down s old n s.size t ∧ (Balanced s old → Balanced t n))
        (s.downAt n s.size) := by
      refine Ends.foldlM_range (I := fun i t => Down s old n i t ∧ (Balanced s old → Balanced t n))
        ⟨down_init h, fun hb c d hc hd => hb c d (hc.trans_le hn) (hd.trans_le hn)⟩ ?_
      rintro i t hi ⟨ht, hbal⟩
      refine (ht.turn_fewest hi hn hpos hfit).imp ?_
      rintro u ⟨hu, hturn⟩
      refine ⟨hu, fun hb => ?_⟩
      split_ifs at hturn with hlt
      · exact hturn ▸ hbal hb
      · obtain ⟨c, hc, rfl⟩ := hturn
        exact hc.balanced (hbal hb) (Nat.le_of_not_lt hlt)
    obtain ⟨t, hd, ht, hbal⟩ := hloop.exists_ok
    rw [Rss.networkScaleDown, ← Rss.downAt, hd]
    exact ⟨_, rfl, fun k hk => ⟨fun he => he ▸ (ht.done k hk).1, (ht.done k hk).2⟩, hbal⟩

/-- The last bucket that is moved decides. -/
theorem ScaledDown.fits (h : ScaledDown s old n) (hs : Steered s old) (hn : n ≤ old) (hpos : 0 < n) : DownFits s n := by
  by_cases hnum : numDown s n s.size ≤ room s n
  · exact .inl hnum
  · obtain ⟨i, hi, hge, hlast⟩ := exists_last_down (s := s) (n := n) (i := s.size) (by omega)
    obtain ⟨t, hd, hti, hturn⟩ := h.turns i hi
    have hat := downAt_ok hs hn hpos hi.le
    rw [hd] at hat
    rw [if_neg (Nat.not_lt_of_le hge), downAt_succ, hd, Run.ok_bind] at hturn
    obtain ⟨c, hfew, hc⟩ := hturn
    have hu := hat.turn hi hn hpos
    rw [hc] at hu
    have hu := hu.2
    rw [Turned, hti, if_neg (Nat.not_lt_of_le hge)] at hu
    obtain ⟨c', hc', he⟩ := hu
    obtain rfl : c = c' := by simpa [Rss.steered] using congrArg (fun u : Rss => u.reta i) he
    refine .inr fun d hdpos hdn => ?_
    rcases (hat.fewest_iff hc').mp hfew with hlt | hall
    · omega
    · have := hall d hdpos hdn
      omega

/-- `network_scale_down` does all that if and only if the buckets of the removed cores fit. -/
theorem scaleDown_balanced_iff (hs : Steered s old) (hpos : 1 ≤ n) (hn : n < old) : ScaledDown s old n ↔ DownFits s n :=
  ⟨fun h => h.fits hs hn.le hpos, hs.scaledDown hn.le hpos⟩

/-- Three cores with `a`, `b` and `c` buckets. -/
def threeCores (a b c : Nat) : Rss :=
  let reta k := if k < a then 0 else if k < a + b then 1 else 2
  ⟨a + b + c, reta, fun _ => false, reta, reta, fun d => (fiber (Finset.range (a + b + c)) reta d).card, 16, 3, 0, 3⟩

theorem threeCores_steered {a b : Nat} (h : a + b + c ≤ 4096) : Steered (threeCores a b c) 3 where
  steering _ _ := rfl
  buckets _ _ := rfl
  below k _ := by
    dsimp only [threeCores]
    split_ifs <;> omega
  hw _ _ := .inr rfl
  cores := (by decide : 3 ≤ 16)
  max := Nat.le_refl _
  size := h
  updated _ _ := rfl

/-- The table of a card with 128 buckets. -/
theorem scaleDown_balanced_128 : ScaledDown (threeCores 43 43 42) 3 2 :=
  (scaleDown_balanced_iff (threeCores_steered (by decide)) (by decide) (by decide)).mpr (.inl (by decide +kernel))

/-- A card with 1024 buckets, as scaling up leaves them: all buckets of core 2 go to core 0. -/
theorem scaleDown_unbalanced : Steered (threeCores 342 341 341) 3 ∧ ¬ ScaledDown (threeCores 342 341 341) 3 2 := by
  have hs : Steered (threeCores 342 341 341) 3 := threeCores_steered (by decide)
  refine ⟨hs, fun h => ?_⟩
  rcases h.fits hs (by decide) (by decide) with hle | hall
  · exact absurd hle (by decide +kernel)
  · exact absurd (hall 1 (by decide) (by decide)) (by decide +kernel)

end TasNic.Scaling
