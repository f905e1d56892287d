import Mathlib.Data.Finset.Card

/-!
# Counting the places of a value

`fiber s f a` is the set of the places in `s` at which the table `f` has the value `a`.
A change of the table at one place takes the place out of the fiber of its old value
(`card_update_old`) and puts it into the fiber of the new one (`card_update_new`).
-/

namespace Fibers

open Function

variable {ι α : Type} [DecidableEq ι] [DecidableEq α]

/-- The places in `s` with the value `a`. -/
def fiber (s : Finset ι) (f : ι → α) (a : α) : Finset ι := s.filter fun i => f i = a

variable {s : Finset ι} {f : ι → α} {a b : α} {i : ι}

omit [DecidableEq ι] in
theorem mem_fiber : i ∈ fiber s f a ↔ i ∈ s ∧ f i = a := Finset.mem_filter

theorem fiber_update_new (hi : i ∈ s) : fiber s (update f i b) b = insert i (fiber s f b) := by
  ext j
  rw [mem_fiber, Finset.mem_insert, mem_fiber]
  by_cases hj : j = i
  · simp [hj, hi]
  · simp [hj]

theorem fiber_update_of_ne (hab : a ≠ b) : fiber s (update f i b) a = (fiber s f a).erase i := by
  ext j
  rw [mem_fiber, Finset.mem_erase, mem_fiber]
  by_cases hj : j = i
  · simp [hj, hab.symm]
  · simp [hj]

theorem card_update_new (hi : i ∈ s) (hb : f i ≠ b) : (fiber s (update f i b) b).card = (fiber s f b).card + 1 := by
  rw [fiber_update_new hi, Finset.card_insert_of_notMem fun h => hb (mem_fiber.mp h).2]

theorem card_update_old (hi : i ∈ s) (ha : f i = a) (hab : a ≠ b) :
    (fiber s (update f i b) a).card + 1 = (fiber s f a).card := by
  rw [fiber_update_of_ne hab, Finset.card_erase_add_one (mem_fiber.mpr ⟨hi, ha⟩)]

theorem fiber_update_other (ha : f i ≠ a) (hab : a ≠ b) : fiber s (update f i b) a = fiber s f a := by
  rw [fiber_update_of_ne hab, Finset.erase_eq_of_notMem fun h => ha (mem_fiber.mp h).2]

end Fibers
