import Mathlib.Algebra.Order.Ring.Int
import Mathlib.Data.List.Basic

/-!
# Regions that tile a range

A list of regions tiles `[0, size)` if every address below `size` is in exactly one of them, and no
other address is in any (`Tiles`). A region may be cut in two or joined with the one that starts at
its end (`cut_tiles`). Regions are separated if they are in order and there is a gap between any two.
-/

namespace Tiling

open List

structure Region where
  base : Nat
  len : Nat
deriving DecidableEq

namespace Region

def stop (r : Region) : Nat := r.base + r.len

def has (r : Region) (a : Nat) : Bool := decide (r.base ≤ a) && decide (a < r.stop)

theorem has_iff {r : Region} {a : Nat} : r.has a = true ↔ r.base ≤ a ∧ a < r.stop := by
  rw [has, Bool.and_eq_true, decide_eq_true_eq, decide_eq_true_eq]

theorem has_base {r : Region} (h : 0 < r.len) : r.has r.base = true := by
  rw [has_iff, stop]
  omega

end Region

/-- Every address below `size` is in exactly one region. -/
def Tiles (size : Nat) (R : List Region) : Prop := ∀ a, R.countP (·.has a) = if a < size then 1 else 0

section

variable {size : Nat} {R R' : List Region} {r s : Region}

theorem Tiles.perm (h : Tiles size R) (hp : R.Perm R') : Tiles size R' := fun a => by rw [← hp.countP_eq, h a]

theorem single_tiles (size : Nat) : Tiles size [⟨0, size⟩] := by
  intro a
  simp [Region.has, Region.stop, countP_cons]

theorem cut_tiles {base n k : Nat} : Tiles size (⟨base, n⟩ :: ⟨base + n, k⟩ :: R) ↔ Tiles size (⟨base, n + k⟩ :: R) := by
  have hcut : ∀ a, (⟨base, n⟩ :: ⟨base + n, k⟩ :: R).countP (·.has a) = (⟨base, n + k⟩ :: R).countP (·.has a) := by
    intro a
    simp only [countP_cons, Region.has_iff, Region.stop]
    split <;> split <;> split <;> omega
  simp [Tiles, hcut]

theorem Tiles.disjoint (h : Tiles size R) : R.Pairwise fun r s => ∀ a, ¬ (r.has a = true ∧ s.has a = true) := by
  rw [pairwise_iff_forall_sublist]
  intro r s hsub a hboth
  have hle := hsub.countP_le (p := (·.has a))
  rw [h a] at hle
  simp only [countP_cons, hboth.1, hboth.2, countP_nil, if_true] at hle
  split at hle <;> omega

theorem Tiles.union (h : Tiles size R) (a : Nat) : a < size ↔ ∃ r ∈ R, r.has a = true := by
  rw [← countP_pos_iff, h a]
  split <;> simp_all

end

/-! ## Separated regions -/

/-- The regions are in order, and there is a gap between any two. -/
def Separated (R : List Region) : Prop := R.Pairwise fun r s => r.stop < s.base
deriving Decidable

section

variable {R : List Region} {r s : Region}

theorem Separated.eq_or_lt (h : Separated R) (hr : r ∈ R) (hs : s ∈ R) : r = s ∨ r.stop < s.base ∨ s.stop < r.base := by
  induction R with
  | nil => cases hr
  | cons t R ih =>
    obtain ⟨ht, hR⟩ := pairwise_cons.mp h
    rcases mem_cons.mp hr with rfl | hr' <;> rcases mem_cons.mp hs with rfl | hs'
    · exact .inl rfl
    · exact .inr (.inl (ht s hs'))
    · exact .inr (.inr (ht r hr'))
    · exact ih hR hr' hs'

theorem Separated.range (h : Separated R) {b n : Nat} (hn : 0 < n)
    (hc : ∀ a, b ≤ a → a < b + n → ∃ r ∈ R, r.has a = true) : ∃ r ∈ R, r.base ≤ b ∧ b + n ≤ r.stop := by
  obtain ⟨r, hr, hb⟩ := hc b (Nat.le_refl _) (by omega)
  rw [Region.has_iff] at hb
  refine ⟨r, hr, hb.1, Nat.le_of_not_lt fun hlt => ?_⟩
  -- the address right behind the region would have to be in another one
  obtain ⟨s, hs, ha⟩ := hc r.stop (by omega) hlt
  rw [Region.has_iff] at ha
  rcases h.eq_or_lt hr hs with rfl | h' | h' <;> omega

theorem Separated.eq_single {size : Nat} (h : Separated R) (ht : Tiles size R) (hne : R ≠ [])
    (hb : ∀ r ∈ R, r.stop ≤ size) : R = [⟨0, size⟩] := by
  have hone : ∀ r ∈ R, r = ⟨0, size⟩ := by
    by_cases hs : size = 0
    · subst hs
      intro r hr
      have := hb r hr
      obtain ⟨b, n⟩ := r
      simp only [Region.stop, Nat.le_zero_eq, Nat.add_eq_zero_iff] at this
      rw [this.1, this.2]
    · obtain ⟨r, hr, hr₀, hr₁⟩ := h.range (b := 0) (n := size) (by omega) fun a _ ha => (ht.union a).mp (by omega)
      have hr' : r.stop = r.base + r.len := rfl
      have hrb := hb r hr
      obtain rfl : r = ⟨0, size⟩ := by
        obtain ⟨b, n⟩ := r
        simp only [Region.mk.injEq] at *
        omega
      intro s hs'
      have hsb := hb s hs'
      rcases h.eq_or_lt hr hs' with e | h' | h'
      · exact e.symm
      · simp only [Region.stop] at *
        omega
      · simp only [Region.stop] at *
        omega
  match R, hne with
  | [r], _ => rw [hone r (mem_singleton_self r)]
  | r :: s :: R, _ =>
    have hlt := (pairwise_cons.mp h).1 s (mem_cons_self ..)
    rw [hone r (mem_cons_self ..), hone s (mem_cons_of_mem _ (mem_cons_self ..))] at hlt
    simp [Region.stop] at hlt

end

end Tiling
