import Mathlib.Algebra.Order.Ring.Int
import Mathlib.Data.List.Basic

/-!
# Circular buffers

The element with number `c` lives in cell `c % B`. The offsets of an implementation are *lazy*: an
offset that has reached `B` stays there and only wraps with the next element, so that the offset of a
count `n` is `pos B n`, which is `0` for `n = 0` and otherwise in `1 … B`. `copy` is a block copy into a
memory, `put` a copy of elements around the ring. `Agree B m lo hi s`: the cells of the elements
`lo … hi - 1` hold the stream `s`.
-/

namespace Circ

open List

/-- The lazy offset of the count `n` in a ring of `B` cells. -/
def pos (B n : Nat) : Nat := if n = 0 then 0 else (n - 1) % B + 1

/-- Moving an offset by `k`. -/
def adv (B o k : Nat) : Nat := if B < o + k then o + k - B else o + k

/-- The distance from one offset to another, around the ring. -/
def gap (B i j : Nat) : Nat := if i ≤ j then j - i else B + j - i

theorem pos_zero (B : Nat) : pos B 0 = 0 := rfl

variable {B n : Nat}

theorem pos_eq {q r : Nat} (h : n = B * q + r) (h₁ : 1 ≤ r) (h₂ : r ≤ B) : pos B n = r := by
  have hn : n ≠ 0 := by omega
  have e : n - 1 = (r - 1) + B * q := by omega
  simp only [pos, hn, if_false, e, Nat.add_mul_mod_self_left]
  rw [Nat.mod_eq_of_lt (by omega)]
  omega

theorem exists_lap (hB : 0 < B) (hn : 0 < n) :
    ∃ q r, n = B * q + r ∧ 1 ≤ r ∧ r ≤ B ∧ pos B n = r := by
  have h := Nat.div_add_mod (n - 1) B
  have hr := Nat.mod_lt (n - 1) hB
  exact ⟨(n - 1) / B, (n - 1) % B + 1, by omega, by omega, by omega, by simp [pos]; omega⟩

theorem pos_le (hB : 0 < B) (n : Nat) : pos B n ≤ B := by
  rcases Nat.eq_zero_or_pos n with rfl | hn
  · simp [pos_zero]
  · obtain ⟨q, r, -, -, hr, e⟩ := exists_lap hB hn
    omega

theorem pos_of_le (h : n ≤ B) : pos B n = n := by
  rcases Nat.eq_zero_or_pos n with rfl | hn
  · rfl
  · exact pos_eq (q := 0) (by omega) hn h

theorem pos_mod (hB : 0 < B) (n : Nat) : pos B n % B = n % B := by
  rcases Nat.eq_zero_or_pos n with rfl | hn
  · rfl
  · obtain ⟨q, r, hq, -, -, e⟩ := exists_lap hB hn
    rw [e, hq, Nat.mul_add_mod]

theorem adv_pos {k : Nat} (hB : 0 < B) (hk : k ≤ B) : adv B (pos B n) k = pos B (n + k) := by
  rcases Nat.eq_zero_or_pos n with rfl | hn
  · rcases Nat.eq_zero_or_pos k with rfl | hk₀
    · simp [adv, pos_zero]
    · rw [pos_zero, pos_eq (q := 0) (r := k) (by omega) hk₀ hk]
      simp only [adv]
      split <;> omega
  · obtain ⟨q, r, hq, h₁, h₂, e⟩ := exists_lap hB hn
    rw [e]
    unfold adv
    split
    · rw [pos_eq (q := q + 1) (r := r + k - B) (by rw [hq, Nat.mul_add]; omega) (by omega) (by omega)]
    · rw [pos_eq (q := q) (r := r + k) (by omega) (by omega) (by omega)]

theorem split_eq_adv {o k b : Nat} (ho : o ≤ B) (hb : (if o + k > B then B - o else k) = b) :
    (if 0 < k - b then k - b else o + b) = adv B o k := by
  subst hb
  unfold adv
  split
  · rw [if_pos (by omega)]; omega
  · rw [if_neg (by omega)]

theorem gap_pos {m : Nat} (hB : 0 < B) (h : n ≤ m) (hm : m < n + B) :
    gap B (pos B n) (pos B m) = m - n := by
  have e : pos B m = adv B (pos B n) (m - n) := by
    rw [adv_pos hB (by omega)]; congr 1; omega
  rw [e]
  unfold gap adv
  split <;> split <;> omega

theorem eq_of_pos_eq {m : Nat} (hB : 0 < B) (h : n ≤ m) (hm : m < n + B) (e : pos B n = pos B m) : n = m := by
  have := gap_pos hB h hm
  rw [e] at this
  simp only [gap, Nat.le_refl, if_true] at this
  omega

/-- The distance between the offsets of two counts is at most that of the
counts, however many laps they are apart. -/
theorem gap_pos_le {m : Nat} (hB : 0 < B) (h : n ≤ m) : gap B (pos B n) (pos B m) ≤ m - n := by
  rcases Nat.lt_or_ge m (n + B) with hm | hm
  · exact Nat.le_of_eq (gap_pos hB h hm)
  · have h₂ := pos_le hB m
    unfold gap
    split <;> omega

theorem add_mod_of_pos {j : Nat} (hB : 0 < B) (h : pos B n + j < B) : (n + j) % B = pos B n + j := by
  rw [Nat.add_mod, ← pos_mod hB n, ← Nat.add_mod, Nat.mod_eq_of_lt h]

theorem add_mod_of_pos_eq {j : Nat} (hB : 0 < B) (h : pos B n + j = B) : (n + j) % B = 0 := by
  rw [Nat.add_mod, ← pos_mod hB n, ← Nat.add_mod, h, Nat.mod_self]

theorem range_map_pos {k : Nat} (hB : 0 < B) (h : pos B n + k ≤ B) :
    (List.range k).map (pos B n + ·) = (List.range k).map fun j => (n + j) % B :=
  map_congr_left fun j hj =>
    (add_mod_of_pos hB (by have := mem_range.mp hj; omega)).symm

theorem range_map_start {k : Nat} (hn : n % B = 0) (h : k ≤ B) :
    (List.range k).map (0 + ·) = (List.range k).map fun j => (n + j) % B :=
  map_congr_left fun j hj => by
    have := mem_range.mp hj
    rw [Nat.add_mod, hn, Nat.zero_add, Nat.zero_add, Nat.mod_mod, Nat.mod_eq_of_lt (by omega)]

theorem mod_ne_of_lt {c d : Nat} (h : c < d) (hd : d < c + B) : c % B ≠ d % B := fun e => by
  have := Nat.sub_mod_eq_zero_of_mod_eq e.symm
  rw [Nat.mod_eq_of_lt (by omega)] at this
  omega

section Memory

variable {α : Type}

/-- `memcpy`: `n` elements of `src` to the cells from `o` on. -/
def copy (m : Nat → α) (o n : Nat) (src : Nat → α) : Nat → α :=
  fun i => if o ≤ i ∧ i < o + n then src (i - o) else m i

/-- The `n` cells from `o` on. -/
def slice (m : Nat → α) (o n : Nat) : List α := (List.range n).map fun i => m (o + i)

/-- `k` elements of `src` to the cells of the elements `n … n + k - 1`. -/
def put (B : Nat) (m : Nat → α) (n k : Nat) (src : Nat → α) : Nat → α :=
  fun i => if i < B ∧ (i + B - n % B) % B < k then src ((i + B - n % B) % B) else m i

/-- The cells of the elements `n … n + k - 1`. -/
def take (B : Nat) (m : Nat → α) (n k : Nat) : List α := (List.range k).map fun j => m ((n + j) % B)

/-- The cells of the elements `lo … hi - 1` hold the stream `s`. -/
def Agree (B : Nat) (m : Nat → α) (lo hi : Nat) (s : Nat → α) : Prop :=
  ∀ c, lo ≤ c → c < hi → m (c % B) = s c

@[simp] theorem length_slice (m : Nat → α) (o n : Nat) : (slice m o n).length = n := by simp [slice]

@[simp] theorem length_take (B : Nat) (m : Nat → α) (n k : Nat) : (take B m n k).length = k := by
  simp [take]

theorem copy_zero (m : Nat → α) (o : Nat) (src : Nat → α) : copy m o 0 src = m := by
  funext i
  simp only [copy, ite_eq_right_iff]
  omega

variable {B n k : Nat}

theorem dist_mod {j : Nat} (hj : j < B) : ((n + j) % B + B - n % B) % B = j := by
  have hB : 0 < B := by omega
  have h₁ := Nat.mod_lt n hB
  rw [Nat.add_mod, Nat.mod_eq_of_lt hj]
  by_cases h : n % B + j < B
  · rw [Nat.mod_eq_of_lt h, show n % B + j + B - n % B = j + B by omega, Nat.add_mod_right,
      Nat.mod_eq_of_lt hj]
  · rw [Nat.mod_eq_sub_mod (a := n % B + j) (by omega), Nat.mod_eq_of_lt (a := n % B + j - B) (by omega),
      show n % B + j - B + B - n % B = j by omega, Nat.mod_eq_of_lt hj]

section

variable (m : Nat → α)

theorem put_apply {j : Nat} (src : Nat → α) (hj : j < k) (hk : k ≤ B) :
    put B m n k src ((n + j) % B) = src j := by
  have hB : 0 < B := by omega
  simp [put, dist_mod (n := n) (show j < B by omega), Nat.mod_lt _ hB, hj]

theorem put_apply_before {c : Nat} (src : Nat → α) (hc : c < n) (h : n + k ≤ c + B) :
    put B m n k src (c % B) = m (c % B) := by
  by_cases hk : k = 0
  · simp [put, hk]
  have e : (c % B + B - n % B) % B = c + B - n := by
    have := dist_mod (B := B) (n := n) (j := c + B - n) (by omega)
    rwa [show n + (c + B - n) = c + B by omega, Nat.add_mod_right] at this
  simp only [put, e, ite_eq_right_iff, and_imp]
  omega

theorem put_apply_after {c : Nat} (src : Nat → α) (h : n + k ≤ c) (hc : c < n + B) :
    put B m n k src (c % B) = m (c % B) := by
  have e : (c % B + B - n % B) % B = c - n := by
    have := dist_mod (B := B) (n := n) (j := c - n) (by omega)
    rwa [show n + (c - n) = c by omega] at this
  simp only [put, e, ite_eq_right_iff, and_imp]
  omega

omit m in
/-- A cell as seen from an offset: the position of cell `i` after the offset
`o`, without a modulus. -/
theorem dist_offset {i : Nat} (hB : 0 < B) (hi : i < B) :
    (i + B - n % B) % B = if pos B n ≤ i then i - pos B n else if i + B - pos B n < B then i + B - pos B n else 0 := by
  have hle := pos_le hB n
  have hm := pos_mod hB n
  by_cases hp : pos B n = B
  · have : n % B = 0 := by rw [← hm, hp, Nat.mod_self]
    rw [this, Nat.sub_zero, Nat.add_mod_right, Nat.mod_eq_of_lt hi]
    split <;> [omega; split <;> omega]
  · rw [Nat.mod_eq_of_lt (a := pos B n) (by omega)] at hm
    rw [← hm]
    split
    · rw [show i + B - pos B n = i - pos B n + B by omega, Nat.add_mod_right, Nat.mod_eq_of_lt (by omega)]
    · rw [Nat.mod_eq_of_lt (by omega)]
      split <;> omega

theorem copy_copy_eq_put {b : Nat} (src : Nat → α) (hB : 0 < B) (hk : k ≤ B)
    (hb : b = if B < pos B n + k then B - pos B n else k) :
    copy (copy m (pos B n) b src) 0 (k - b) (fun j => src (b + j)) = put B m n k src := by
  have hle := pos_le hB n
  funext i
  simp only [copy, put, Nat.zero_le, true_and, Nat.zero_add, Nat.sub_zero]
  by_cases hi : i < B
  · rw [dist_offset hB hi]
    simp only [hi, true_and]
    split at hb <;> rw [hb]
    · by_cases h₁ : i < k - (B - pos B n)
      · have h₂ : ¬ pos B n ≤ i := by omega
        rw [if_pos h₁, if_neg h₂]
        split
        · rw [if_pos (by omega)]; congr 1; omega
        · rw [if_pos (by omega)]; congr 1; omega
      · rw [if_neg h₁]
        by_cases h₂ : pos B n ≤ i
        · rw [if_pos (by omega), if_pos h₂, if_pos (by omega)]
        · rw [if_neg (by omega), if_neg h₂]
          split <;> rw [if_neg (by omega)]
    · rw [if_neg (by omega)]
      by_cases h₂ : pos B n ≤ i
      · rw [if_pos h₂]
        by_cases h₃ : i < pos B n + k
        · rw [if_pos (by omega), if_pos (by omega)]
        · rw [if_neg (by omega), if_neg (by omega)]
      · rw [if_neg (by omega), if_neg h₂]
        split
        · rw [if_neg (by omega)]
        · rw [if_neg (by omega)]
  · rw [if_neg (by split at hb <;> omega), if_neg (by split at hb <;> omega), if_neg (by omega)]

/-- A copy that ends before the end of the ring. -/
theorem copy_eq_put (src : Nat → α) (hB : 0 < B) (hk : pos B n + k ≤ B) :
    copy m (pos B n) k src = put B m n k src := by
  have := copy_copy_eq_put m (n := n) (k := k) (b := k) src hB (by omega) (by rw [if_neg (by omega)])
  rwa [Nat.sub_self, copy_zero] at this

theorem copy_start_eq_put (src : Nat → α) (hn : n % B = 0) (hk : k ≤ B) : copy m 0 k src = put B m n k src := by
  funext i
  simp only [copy, put, hn, Nat.sub_zero, Nat.add_mod_right, Nat.zero_le, true_and, Nat.zero_add]
  by_cases hi : i < B
  · rw [Nat.mod_eq_of_lt hi]
    simp [hi]
  · rw [if_neg (by omega), if_neg (by omega)]

theorem put_congr {n' : Nat} (k : Nat) (src : Nat → α) (h : n % B = n' % B) :
    put B m n k src = put B m n' k src := by
  funext i
  simp [put, h]

theorem slice_eq_take {o : Nat} (ho : o % B = n % B) (hk : o + k ≤ B) :
    slice m o k = take B m n k := by
  refine map_congr_left fun j hj => ?_
  have := mem_range.mp hj
  rw [Nat.add_mod, ← ho, ← Nat.add_mod, Nat.mod_eq_of_lt (by omega)]

theorem slice_append_eq_take {b : Nat} (hB : 0 < B) (hk : k ≤ B)
    (hb : b = if B < pos B n + k then B - pos B n else k) :
    slice m (pos B n) b ++ slice m 0 (k - b) = take B m n k := by
  have hle := pos_le hB n
  have hbk : b ≤ k := by split at hb <;> omega
  apply ext_getElem
  · simp [hbk]
  intro i h₁ h₂
  simp only [length_take] at h₂
  have hm := pos_mod hB n
  have cell : ∀ x, pos B n + i = x ∨ pos B n + i = x + B → x < B → (n + i) % B = x := by
    intro x hx hlt
    rw [Nat.add_mod, ← hm, ← Nat.add_mod]
    rcases hx with hx | hx
    · rw [hx, Nat.mod_eq_of_lt hlt]
    · rw [hx, Nat.add_mod_right, Nat.mod_eq_of_lt hlt]
  by_cases hi : i < b
  · rw [getElem_append_left (by simpa using hi)]
    simp only [slice, take, getElem_map, getElem_range]
    rw [cell (pos B n + i) (.inl rfl) (by split at hb <;> omega)]
  · rw [getElem_append_right (by simpa using hi)]
    simp only [slice, take, getElem_map, getElem_range, length_map, length_range,
      Nat.zero_add]
    rw [cell (i - b) (.inr (by split at hb <;> omega)) (by split at hb <;> omega)]

end

namespace Agree

variable {B : Nat} {m : Nat → α} {lo hi : Nat} {s : Nat → α}

theorem mono {lo' hi' : Nat} (h : Agree B m lo hi s) (hl : lo ≤ lo') (hh : hi' ≤ hi) :
    Agree B m lo' hi' s := fun c h₁ h₂ => h c (by omega) (by omega)

theorem congr {s' : Nat → α} (h : Agree B m lo hi s) (hs : ∀ c, lo ≤ c → c < hi → s' c = s c) :
    Agree B m lo hi s' := fun c h₁ h₂ => (h c h₁ h₂).trans (hs c h₁ h₂).symm

theorem empty (h : hi ≤ lo) : Agree B m lo hi s := fun _ _ _ => by omega

variable {k : Nat}

theorem put_after (h : Agree B m lo hi s) {n : Nat} (src : Nat → α) (hn : hi ≤ n) (hk : n + k ≤ lo + B) :
    Agree B (put B m n k src) lo hi s := fun c h₁ h₂ => by
  rw [put_apply_before m src (by omega) (by omega)]; exact h c h₁ h₂

theorem put_next (h : Agree B m lo hi s) {src : Nat → α} (hlo : lo ≤ hi) (hk : hi + k ≤ lo + B)
    (hs : ∀ j < k, src j = s (hi + j)) :
    Agree B (put B m hi k src) lo (hi + k) s := fun c h₁ h₂ => by
  by_cases hc : c < hi
  · exact h.put_after src (Nat.le_refl _) hk c h₁ hc
  · rw [show c = hi + (c - hi) by omega, put_apply m src (by omega) (by omega), hs _ (by omega)]

theorem put_self {n : Nat} {src : Nat → α} (hk : k ≤ B) (hs : ∀ j < k, src j = s (n + j)) :
    Agree B (put B m n k src) n (n + k) s := fun c h₁ h₂ => by
  rw [show c = n + (c - n) by omega, put_apply m src (by omega) hk, hs _ (by omega)]

theorem put_keep (h : Agree B m lo hi s) {n : Nat} {src : Nat → α} (hk : k ≤ B) (hs : ∀ j < k, src j = s (n + j))
    (hlo : n + k ≤ lo + B) (hhi : hi ≤ n + B) :
    Agree B (put B m n k src) lo hi s := fun c h₁ h₂ => by
  rcases Nat.lt_or_ge c n with hc | hc
  · rw [put_apply_before m src hc (by omega)]
    exact h c h₁ h₂
  · rcases Nat.lt_or_ge c (n + k) with hc' | hc'
    · exact put_self hk hs c hc hc'
    · rw [put_apply_after m src hc' (by omega)]
      exact h c h₁ h₂

theorem append {mid : Nat} (h₁ : Agree B m lo mid s) (h₂ : Agree B m mid hi s) : Agree B m lo hi s :=
  fun c hlo hhi => by
    rcases Nat.lt_or_ge c mid with hc | hc
    · exact h₁ c hlo hc
    · exact h₂ c hc hhi

theorem take_eq (h : Agree B m lo hi s) {n : Nat} (hn : lo ≤ n) (hk : n + k ≤ hi) :
    take B m n k = (List.range k).map fun j => s (n + j) := by
  refine map_congr_left fun j hj => ?_
  have := mem_range.mp hj
  exact h (n + j) (by omega) (by omega)

end Agree

end Memory

theorem map_getD_eq {α : Type} (l : List α) (d : α) {k : Nat} (h : n + k ≤ l.length) :
    (List.range k).map (fun j => l.getD (n + j) d) = (l.drop n).take k := by
  apply ext_getElem
  · simp; omega
  intro i h₁ h₂
  simp only [length_map, length_range] at h₁
  simp [getD_eq_getElem?_getD, getElem?_eq_getElem (show n + i < l.length by omega)]

end Circ
