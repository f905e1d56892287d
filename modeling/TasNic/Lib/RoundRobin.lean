import Mathlib.Data.List.Nodup

/-!
# Service in turn

Who waits for service is in a list. The first one is served, and goes to the end of the list or leaves it; others join at
the end (`Step`). A `Trace` is a run of this as the lists it finds and who is served.

Who is in front of another stays there until it is served (`Step.front`), and who was served is behind all others
(`Step.behind`). So between two turns of one, every other that waits all the time is served, and only once if
the first does not leave (`Trace.round`).
-/

namespace RoundRobin

open List

variable {α : Type}

/-- A list of who waits, who is served, and the list after that. -/
inductive Step : List α → Option α → List α → Prop
  | stay (N : List α) : Step N none N
  | join {N : List α} {x : α} (h : x ∉ N) : Step N none (N ++ [x])
  | leave (x : α) (N : List α) : Step (x :: N) none N
  | last (x : α) (N : List α) : Step (x :: N) (some x) N
  | again (x : α) (N : List α) : Step (x :: N) (some x) (N ++ [x])

/-- The steps of a run, each with the list it finds. -/
inductive Trace : List α → List (List α × Option α) → List α → Prop
  | nil (N : List α) : Trace N [] N
  | cons {N N₁ N' : List α} {e : Option α} {l : List (List α × Option α)} (h : Step N e N₁) (hl : Trace N₁ l N') :
      Trace N ((N, e) :: l) N'

variable {N N₁ N' : List α} {e : Option α} {l l' : List (List α × Option α)} {a b : α}

theorem Step.nodup (h : Step N e N') (hN : N.Nodup) : N'.Nodup := by
  cases h with
  | stay => exact hN
  | join hx => exact nodup_append.mpr ⟨hN, nodup_singleton _, fun y hy z hz e => hx (mem_singleton.mp hz ▸ e ▸ hy)⟩
  | leave x N => exact (nodup_cons.mp hN).2
  | last x N => exact (nodup_cons.mp hN).2
  | again x N =>
    obtain ⟨hx, hN⟩ := nodup_cons.mp hN
    exact nodup_append.mpr ⟨hN, nodup_singleton _, fun y hy z hz e => hx (mem_singleton.mp hz ▸ e ▸ hy)⟩

theorem Trace.append (h : Trace N l N₁) (h' : Trace N₁ l' N') : Trace N (l ++ l') N' := by
  induction h with
  | nil => exact h'
  | cons hs _ ih => exact .cons hs (ih h')

theorem Trace.split (h : Trace N (l ++ l') N') : ∃ N₁, Trace N l N₁ ∧ Trace N₁ l' N' := by
  induction l generalizing N with
  | nil => exact ⟨N, .nil N, h⟩
  | cons x l ih =>
    cases h with
    | cons hs hl =>
      obtain ⟨N₁, h₁, h₂⟩ := ih hl
      exact ⟨N₁, .cons hs h₁, h₂⟩

theorem Trace.nodup (h : Trace N l N') (hN : N.Nodup) : N'.Nodup := by
  induction h with
  | nil => exact hN
  | cons hs _ ih => exact ih (hs.nodup hN)

/-- What holds of all lists of a run holds of its first one. -/
theorem Trace.first {P : List α → Prop} (h : Trace N l N') (hl : ∀ x ∈ l, P x.1) (hN : P N') : P N := by
  cases h with
  | nil => exact hN
  | cons hs _ => exact hl _ (mem_cons_self ..)

/-! ## Places in the list -/

section Places

variable [DecidableEq α]

theorem idxOf_lt_idxOf_append (hb : b ∈ N) (h : N.idxOf b < N.idxOf a) (M : List α) :
    (N ++ M).idxOf b < (N ++ M).idxOf a := by
  rw [idxOf_append_of_mem hb]
  by_cases ha : a ∈ N
  · rwa [idxOf_append_of_mem ha]
  · rw [idxOf_append_of_notMem ha]
    have := idxOf_lt_length_of_mem hb
    omega

theorem idxOf_lt_idxOf_tail {x : α} (hx : x ≠ b) (h : (x :: N).idxOf b < (x :: N).idxOf a) :
    x ≠ a ∧ N.idxOf b < N.idxOf a := by
  have hxa : x ≠ a := by
    rintro rfl
    rw [idxOf_cons_self] at h
    omega
  rw [idxOf_cons_ne _ hx, idxOf_cons_ne _ hxa] at h
  exact ⟨hxa, by omega⟩

/-- Who is in front of another stays there until it is served, and the other is not served before. -/
theorem Step.front (h : Step N e N') (hN : N.Nodup) (hb : b ∈ N) (hb' : b ∈ N') (hab : N.idxOf b < N.idxOf a)
    (he : e ≠ some b) : N'.idxOf b < N'.idxOf a ∧ e ≠ some a := by
  cases h with
  | stay => exact ⟨hab, Option.some_ne_none a |>.symm⟩
  | join hx => exact ⟨idxOf_lt_idxOf_append hb hab _, Option.some_ne_none a |>.symm⟩
  | leave x N =>
    have hxb : x ≠ b := fun e => (nodup_cons.mp hN).1 (e ▸ hb')
    exact ⟨(idxOf_lt_idxOf_tail hxb hab).2, Option.some_ne_none a |>.symm⟩
  | last x N =>
    have hxb : x ≠ b := fun e => he (congrArg some e)
    obtain ⟨hxa, htail⟩ := idxOf_lt_idxOf_tail hxb hab
    exact ⟨htail, fun e => hxa (Option.some.inj e)⟩
  | again x N =>
    have hxb : x ≠ b := fun e => he (congrArg some e)
    obtain ⟨hxa, htail⟩ := idxOf_lt_idxOf_tail hxb hab
    have hbN : b ∈ N := (mem_cons.mp hb).resolve_left hxb.symm
    exact ⟨idxOf_lt_idxOf_append hbN htail _, fun e => hxa (Option.some.inj e)⟩

theorem Step.behind (h : Step N (some a) N') (hN : N.Nodup) (hb : b ∈ N') (hba : b ≠ a) : N'.idxOf b < N'.idxOf a := by
  cases h with
  | last x N =>
    rw [idxOf_eq_length (nodup_cons.mp hN).1]
    exact idxOf_lt_length_of_mem hb
  | again x N =>
    have hbN : b ∈ N := (mem_append.mp hb).resolve_right fun h => hba (mem_singleton.mp h)
    rw [idxOf_append_of_mem hbN, idxOf_append_of_notMem (nodup_cons.mp hN).1]
    have := idxOf_lt_length_of_mem hbN
    omega

/-! ## Rounds -/

def turns (b : α) (l : List (List α × Option α)) : Nat := (l.map (·.2)).count (some b)

theorem turns_cons (b : α) (N : List α) (e : Option α) (l : List (List α × Option α)) :
    turns b ((N, e) :: l) = turns b l + if e = some b then 1 else 0 := by
  rw [turns, map_cons, count_cons, turns]
  simp

theorem Trace.waits (h : Trace N l N') (hN : N.Nodup) (hab : N.idxOf a < N.idxOf b) (ha : ∀ x ∈ l, a ∈ x.1) (ha' : a ∈ N')
    (hna : ∀ x ∈ l, x.2 ≠ some a) : turns b l = 0 ∧ N'.idxOf a < N'.idxOf b := by
  induction h with
  | nil => exact ⟨rfl, hab⟩
  | @cons N N₁ N' e l hs hl ih =>
    have hrest : ∀ x ∈ l, a ∈ x.1 := fun x hx => ha x (mem_cons_of_mem _ hx)
    have hfirst : a ∈ N₁ := hl.first hrest ha'
    obtain ⟨hab', heb⟩ := hs.front hN (ha _ (mem_cons_self ..)) hfirst hab (hna _ (mem_cons_self ..))
    obtain ⟨hzero, hend⟩ := ih (hs.nodup hN) hab' hrest ha' fun x hx => hna x (mem_cons_of_mem _ hx)
    rw [turns_cons, if_neg heb, hzero]
    exact ⟨rfl, hend⟩

/-- `b` waits in front of `a`, which is not served: when it comes to `a`, `b` was served, and once if `a` waits all the time. -/
theorem Trace.served_between (h : Trace N l N') (hN : N.Nodup) (hba : b ≠ a) (hab : N.idxOf b < N.idxOf a)
    (hb : ∀ x ∈ l, b ∈ x.1) (hb' : b ∈ N') (hna : ∀ x ∈ l, x.2 ≠ some a) (hhead : N'.idxOf a = 0) :
    1 ≤ turns b l ∧ ((∀ x ∈ l, a ∈ x.1) → turns b l = 1) := by
  have ha' : a ∈ N' := by
    by_contra hno
    rw [idxOf_eq_length hno] at hhead
    exact absurd hb' (by rw [eq_nil_of_length_eq_zero hhead]; exact not_mem_nil)
  induction h with
  | nil => omega
  | @cons N N₁ N' e l hs hl ih =>
    have hrest : ∀ x ∈ l, b ∈ x.1 := fun x hx => hb x (mem_cons_of_mem _ hx)
    have hfirst : b ∈ N₁ := hl.first hrest hb'
    have hna' : ∀ x ∈ l, x.2 ≠ some a := fun x hx => hna x (mem_cons_of_mem _ hx)
    rw [turns_cons]
    by_cases he : e = some b
    · rw [if_pos he]
      refine ⟨Nat.le_add_left .., fun ha => ?_⟩
      have harest : ∀ x ∈ l, a ∈ x.1 := fun x hx => ha x (mem_cons_of_mem _ hx)
      have hbehind : N₁.idxOf a < N₁.idxOf b := (he ▸ hs).behind hN (hl.first harest ha') hba.symm
      rw [(hl.waits (hs.nodup hN) hbehind harest ha' hna').1]
    · obtain ⟨hab', -⟩ := hs.front hN (hb _ (mem_cons_self ..)) hfirst hab he
      obtain ⟨hone, honce⟩ := ih (hs.nodup hN) hab' hrest hb' hna' hhead ha'
      rw [if_neg he]
      exact ⟨hone, fun ha => honce fun x hx => ha x (mem_cons_of_mem _ hx)⟩

/-- Between two turns of `a`, who waits all the time is served, and once if `a` waits all the time, too. -/
theorem Trace.round {l₁ l₂ l₃ : List (List α × Option α)} {N₂ : List α}
    (h : Trace N (l₁ ++ (N₁, some a) :: (l₂ ++ (N₂, some a) :: l₃)) N') (hN : N.Nodup) (hba : b ≠ a)
    (hna : ∀ x ∈ l₂, x.2 ≠ some a) (hb : ∀ x ∈ l₂, b ∈ x.1) (hb' : b ∈ N₂) :
    1 ≤ turns b l₂ ∧ ((∀ x ∈ l₂, a ∈ x.1) → turns b l₂ = 1) := by
  obtain ⟨M, h₁, h₂⟩ := h.split
  cases h₂ with
  | @cons _ M₁ _ _ _ hs hl =>
    obtain ⟨M₂, hl₂, hl₃⟩ := hl.split
    cases hl₃ with
    | cons hs' _ =>
      have hnodup := hs.nodup (h₁.nodup hN)
      have hfirst : b ∈ M₁ := hl₂.first hb hb'
      have hhead : N₂.idxOf a = 0 := by
        cases hs' with
        | last => exact idxOf_cons_self
        | again => exact idxOf_cons_self
      exact hl₂.served_between hnodup hba (hs.behind (h₁.nodup hN) hfirst hba) hb hb' hna hhead

end Places

end RoundRobin
