import Mathlib.Data.List.GetD
import Mathlib.Data.List.Range

/-!
# Rings of elements

An array of `N` places used as a ring, with the place of the first element and the number of
elements. `contents` are the elements in order. Elements are added behind the last one
(`contents_grow`) and taken from the front (`contents_drop`).
-/

namespace RingArray

variable {α : Type} {N head num : Nat} {m m' : Nat → α}

def contents (N : Nat) (m : Nat → α) (head num : Nat) : List α := (List.range num).map fun j => m ((head + j) % N)

@[simp] theorem length_contents (N : Nat) (m : Nat → α) (head num : Nat) : (contents N m head num).length = num := by
  simp [contents]

theorem contents_congr (h : ∀ j < num, m' ((head + j) % N) = m ((head + j) % N)) :
    contents N m' head num = contents N m head num :=
  List.map_congr_left fun j hj => h j (List.mem_range.mp hj)

theorem contents_grow {xs : List α} (hold : ∀ j < num, m' ((head + j) % N) = m ((head + j) % N))
    (hnew : ∀ i, (h : i < xs.length) → m' ((head + num + i) % N) = xs[i]) :
    contents N m' head (num + xs.length) = contents N m head num ++ xs := by
  have hxs : (List.range xs.length).map (fun i => m' ((head + (num + i)) % N)) = xs := by
    refine List.ext_getElem (by simp) fun i _ hi => ?_
    simp only [List.getElem_map, List.getElem_range, ← Nat.add_assoc]
    exact hnew i hi
  rw [contents, List.range_add, List.map_append, List.map_map]
  exact congrArg₂ _ (contents_congr hold) hxs

theorem drop_map_range (f : Nat → α) (n k : Nat) :
    ((List.range n).map f).drop k = (List.range (n - k)).map fun j => f (k + j) := by
  refine List.ext_getElem (by simp) fun j _ _ => ?_
  simp

theorem contents_drop (N : Nat) (m : Nat → α) (head num k : Nat) :
    contents N m ((head + k) % N) (num - k) = (contents N m head num).drop k := by
  rw [contents, contents, drop_map_range]
  refine List.map_congr_left fun j _ => ?_
  rw [Nat.mod_add_mod, Nat.add_assoc]

theorem drop_contents {k : Nat} (hk : k < num) :
    (contents N m head num).drop k = m ((head + k) % N) :: (contents N m head num).drop (k + 1) := by
  rw [List.drop_eq_getElem_cons (by simpa using hk)]
  simp [contents]

/-- Storing elements in an array, from place `o` on. -/
def store (m : Nat → α) (o : Nat) (xs : List α) (k : Nat) : α := if o ≤ k then xs.getD (k - o) (m k) else m k

theorem store_of_not {o k : Nat} {xs : List α} (h : k < o ∨ o + xs.length ≤ k) : store m o xs k = m k := by
  unfold store
  split
  · exact List.getD_eq_default _ _ (by omega)
  · rfl

theorem store_at {o i : Nat} {xs : List α} (h : i < xs.length) : store m o xs (o + i) = xs[i] := by
  rw [store, if_pos (Nat.le_add_right o i), Nat.add_sub_cancel_left, List.getD_eq_getElem _ _ h]

end RingArray
