import TasNic.Lib.IdxList

/-!
# Doubly linked lists that share their links

In `DFamily next prev first L place` the lists `L i` start at `first i` and go
through one table of links. An element is on at most one of them, which is its
`place`. It is taken out (`DFamily.remove`) and put in at the front
(`DFamily.pushFront`) or at the back (`DFamily.pushBack`) by changing the links
around it, and the other lists stay.
-/

namespace IdxList

open Function List

/-- The lists `L`, from the heads `first` on: element `c` is on the list `place c`, if any. -/
structure DFamily {ι : Type} (next prev : Nat → Option Nat) (first : ι → Option Nat) (L : ι → List Nat)
    (place : Nat → Option ι) : Prop where
  list : ∀ i, DList next prev (first i) (L i).getLast? (L i)
  mem : ∀ c i, c ∈ L i ↔ place c = some i

namespace DFamily

variable {ι : Type} [DecidableEq ι] {next prev : Nat → Option Nat} {first : ι → Option Nat} {L : ι → List Nat}
  {place : Nat → Option ι} {c : Nat} {i j : ι}

omit [DecidableEq ι] in
theorem not_mem (h : DFamily next prev first L place) (hc : place c = none) (i : ι) : c ∉ L i := fun hm => by
  have := (h.mem c i).mp hm
  rw [hc] at this
  cases this

omit [DecidableEq ι] in
theorem disjoint (h : DFamily next prev first L place) (hij : j ≠ i) : List.Disjoint (L j) (L i) := fun c hj hi =>
  hij (Option.some.inj (((h.mem c j).mp hj).symm.trans ((h.mem c i).mp hi)))

omit [DecidableEq ι] in
theorem nodup (h : DFamily next prev first L place) (i : ι) : (L i).Nodup := (h.list i).nodup

omit [DecidableEq ι] in
theorem first_eq (h : DFamily next prev first L place) (i : ι) : first i = (L i).head? := (h.list i).first_eq

theorem getLast?_remove {l₁ l₂ : List Nat} : (l₁ ++ l₂).getLast? =
    match l₂.head? with | none => l₁.getLast? | some _ => (l₁ ++ c :: l₂).getLast? := by
  cases l₂ with
  | nil => simp
  | cons b l₂ => simp [getLast?_append, getLast?_cons]

omit [DecidableEq ι] in
theorem split (h : DFamily next prev first L place) (hc : place c = some i) : ∃ l₁ l₂, L i = l₁ ++ c :: l₂ ∧
    (L i).erase c = l₁ ++ l₂ ∧ prev c = l₁.getLast? ∧ next c = l₂.head? := by
  have hl := h.list i
  obtain ⟨l₁, l₂, e⟩ := append_of_mem ((h.mem c i).mpr hc)
  rw [e] at hl
  have hc₁ : c ∉ l₁ := fun hm => (nodup_append.mp hl.nodup).2.2 c hm c (mem_cons_self ..) rfl
  exact ⟨l₁, l₂, e, by rw [e, erase_append_right _ hc₁, erase_cons_head], hl.prev_eq, hl.next_eq⟩

omit [DecidableEq ι] in
theorem prev_ne (h : DFamily next prev first L place) (hc : place c = some i) : prev c ≠ some c := by
  obtain ⟨l₁, l₂, e, -, hp, -⟩ := h.split hc
  rw [hp]
  intro hq
  have hnd := h.nodup i
  rw [e] at hnd
  exact (nodup_append.mp hnd).2.2 c (mem_of_getLast? hq) c (mem_cons_self ..) rfl

theorem remove (h : DFamily next prev first L place) (hc : place c = some i) :
    DFamily (match prev c with | none => next | some q => update next q (next c))
      (match next c with | none => prev | some q => update prev q (prev c))
      (match prev c with | none => update first i (next c) | some _ => first)
      (update L i ((L i).erase c)) (update place c none) := by
  obtain ⟨l₁, l₂, e, her, hp, hn⟩ := h.split hc
  constructor
  · intro j
    by_cases hj : j = i
    · subst hj
      have hl := h.list j
      rw [update_self, her]
      rw [e] at hl
      refine hl.remove (by rewrite [hp]; rfl) ?_ (by rewrite [hn]; rfl) ?_
      · rw [hp]
        cases l₁.getLast? with
        | none => exact update_self ..
        | some q => rfl
      · rw [hp]
        exact getLast?_remove
    · have hdis : List.Disjoint (L j) (l₁ ++ c :: l₂) := e ▸ h.disjoint hj
      have hframe := (h.list j).remove_frame hdis
      rw [update_of_ne hj]
      rw [hp, hn] at hframe ⊢
      cases hq : l₁.getLast? with
      | none =>
        rw [hq] at hframe
        dsimp only
        rw [update_of_ne hj]
        exact hframe
      | some q =>
        rw [hq] at hframe
        exact hframe
  · intro d j
    by_cases hj : j = i
    · subst hj
      rw [update_self, (h.nodup j).mem_erase_iff, h.mem d j]
      by_cases hd : d = c
      · simp [hd]
      · rw [update_of_ne hd]
        simp [hd]
    · rw [update_of_ne hj, h.mem d j]
      by_cases hd : d = c
      · subst hd
        rw [hc, update_self]
        simp [Ne.symm hj]
      · rw [update_of_ne hd]

theorem mem_push (h : DFamily next prev first L place) (hc : place c = none) {l : List Nat}
    (hl : ∀ d, d ∈ l ↔ d = c ∨ d ∈ L i) (d : Nat) (j : ι) : d ∈ update L i l j ↔ update place c (some i) d = some j := by
  by_cases hj : j = i
  · subst hj
    rw [update_self, hl, h.mem d j]
    by_cases hd : d = c
    · simp [hd]
    · rw [update_of_ne hd]
      simp [hd]
  · rw [update_of_ne hj, h.mem d j]
    by_cases hd : d = c
    · subst hd
      rw [hc, update_self]
      simp [Ne.symm hj]
    · rw [update_of_ne hd]

theorem pushFront (h : DFamily next prev first L place) (hc : place c = none) (i : ι) :
    DFamily (update next c (first i))
      (match first i with | none => update prev c none | some q => update (update prev c none) q (some c))
      (update first i (some c)) (update L i (c :: L i)) (update place c (some i)) := by
  have hfirst := h.first_eq i
  constructor
  · intro j
    by_cases hj : j = i
    · subst hj
      have hl := h.list j
      rw [update_self, update_self, hfirst]
      rw [← nil_append (L j)] at hl
      refine hl.insert (h.not_mem hc j) rfl rfl (by cases (L j).head? <;> rfl) ?_
      cases hL : L j with
      | nil => rfl
      | cons b l => simp [getLast?_cons]
    · rw [update_of_ne hj, update_of_ne hj, hfirst]
      exact (h.list j).insert_frame (h.not_mem hc j) [] _ (h.disjoint hj)
  · exact h.mem_push hc fun d => mem_cons

theorem pushBack (h : DFamily next prev first L place) (hc : place c = none) (i : ι) :
    DFamily (match (L i).getLast? with | none => update next c none | some q => update (update next c none) q (some c))
      (update prev c (L i).getLast?)
      (match (L i).getLast? with | none => update first i (some c) | some _ => first)
      (update L i (L i ++ [c])) (update place c (some i)) := by
  constructor
  · intro j
    by_cases hj : j = i
    · subst hj
      have hl := h.list j
      rw [update_self]
      rw [← append_nil (L j)] at hl
      refine hl.insert (by rw [append_nil]; exact h.not_mem hc j) rfl ?_ rfl ?_
      · cases (L j).getLast? with
        | none => exact update_self ..
        | some q => rfl
      · simp
    · have hf : (match (L i).getLast? with | none => update first i (some c) | some _ => first) j = first j := by
        cases (L i).getLast? <;> simp [hj]
      rw [update_of_ne hj, hf]
      exact (h.list j).insert_frame (h.not_mem hc j) _ [] (by rw [append_nil]; exact h.disjoint hj)
  · exact h.mem_push hc fun d => by rw [mem_append, mem_singleton, or_comm]

omit [DecidableEq ι] in
theorem congr {next' prev' : Nat → Option Nat} {first' : ι → Option Nat} {L' : ι → List Nat} {place' : Nat → Option ι}
    (h : DFamily next prev first L place) (hn : next' = next) (hp : prev' = prev) (hf : ∀ i, first' i = first i)
    (hL : L' = L) (hpl : ∀ c, place' c = place c) : DFamily next' prev' first' L' place' := by
  subst hn hp hL
  exact ⟨fun i => hf i ▸ h.list i, fun c i => hpl c ▸ h.mem c i⟩

end DFamily

end IdxList
