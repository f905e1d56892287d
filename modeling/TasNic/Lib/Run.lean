import Mathlib.Logic.Basic

/-!
# Runs of a step function

A system is a step function that takes a state and an action and gives the next state, or `none` if
the action cannot be taken. `exec` runs a list of actions. `All ok s acts`: along the run from `s`,
every action meets `ok` in the state it is taken in.

`Ends E P x`: the call `x` gives a value with `P`, or stops with an error that `E` allows. `loop` is a
loop with a bound on its turns.
-/

namespace Run

variable {σ ι : Type} (step : σ → ι → Option σ)

/-- The state after the actions, one after the other. -/
def exec : σ → List ι → Option σ
  | s, [] => some s
  | s, i :: is => match step s i with
    | none => none
    | some s' => exec s' is

/-- Every action of the run meets `ok` in the state it is taken in. -/
def All (ok : σ → ι → Prop) : σ → List ι → Prop
  | _, [] => True
  | s, i :: is => ok s i ∧ match step s i with
    | none => True
    | some s' => All ok s' is

variable {step} {ok : σ → ι → Prop} {I : σ → Prop}

instance All.decidable [h : ∀ s i, Decidable (ok s i)] : ∀ s is, Decidable (All step ok s is)
  | _, [] => isTrue trivial
  | s, i :: is => by
    unfold All
    have : Decidable (match step s i with
        | none => True
        | some s' => All step ok s' is) :=
      match step s i with
      | none => isTrue trivial
      | some s' => All.decidable s' is
    exact instDecidableAnd

theorem All.next {s s' : σ} {i : ι} {is : List ι} (h : All step ok s (i :: is)) (hs : step s i = some s') :
    All step ok s' is := by
  have := h.2
  rwa [hs] at this

theorem All.of_forall (h : ∀ s i, ok s i) {s : σ} {is : List ι} : All step ok s is := by
  induction is generalizing s with
  | nil => trivial
  | cons i is ih =>
    refine ⟨h s i, ?_⟩
    split
    · trivial
    · exact ih

theorem All.of_mem {good : ι → Prop} {s : σ} {is : List ι} (h : ∀ i ∈ is, good i) : All step (fun _ i => good i) s is := by
  induction is generalizing s with
  | nil => trivial
  | cons i is ih =>
    refine ⟨h i (List.mem_cons_self ..), ?_⟩
    split
    · trivial
    · exact ih fun j hj => h j (List.mem_cons_of_mem _ hj)

theorem exec_cons {s s' : σ} {i : ι} {is : List ι} (h : exec step s (i :: is) = some s') :
    ∃ s₁, step s i = some s₁ ∧ exec step s₁ is = some s' := by
  simp only [exec] at h
  split at h
  · cases h
  · rename_i s₁ h₁
    exact ⟨s₁, h₁, h⟩

theorem All.and {ok' : σ → ι → Prop} {s : σ} {is : List ι} (h : All step ok s is) (h' : All step ok' s is) :
    All step (fun s i => ok s i ∧ ok' s i) s is := by
  induction is generalizing s with
  | nil => trivial
  | cons i is ih =>
    refine ⟨⟨h.1, h'.1⟩, ?_⟩
    split
    · trivial
    · rename_i s' hs'
      exact ih (h.next hs') (h'.next hs')

/-- What an invariant gives of every step holds along the run. -/
theorem All.of_inv {good : σ → ι → Prop}
    (hstep : ∀ s i, I s → ok s i → good s i ∧ ∀ s', step s i = some s' → I s') {s : σ} {is : List ι} (hI : I s)
    (hok : All step ok s is) : All step good s is := by
  induction is generalizing s with
  | nil => trivial
  | cons i is ih =>
    obtain ⟨hgood, hnext⟩ := hstep s i hI hok.1
    refine ⟨hgood, ?_⟩
    split
    · trivial
    · rename_i s' hs'
      exact ih (hnext s' hs') (hok.next hs')

/-- What every step that meets `ok` keeps holds after the run. -/
theorem exec_inv (hstep : ∀ s i s', I s → ok s i → step s i = some s' → I s') {s s' : σ} {is : List ι}
    (hI : I s) (hok : All step ok s is) (h : exec step s is = some s') : I s' := by
  induction is generalizing s with
  | nil =>
    simp only [exec, Option.some.injEq] at h
    exact h ▸ hI
  | cons i is ih =>
    obtain ⟨s₁, h₁, h₂⟩ := exec_cons h
    exact ih (hstep s i s₁ hI hok.1 h₁) (hok.next h₁) h₂

/-- What every step keeps holds after the run. -/
theorem exec_inv_of_step (hstep : ∀ s i s', I s → step s i = some s' → I s') {s s' : σ} {is : List ι} (hI : I s)
    (h : exec step s is = some s') : I s' := by
  have hok : All step (fun _ _ => True) s is := .of_forall fun _ _ => trivial
  exact exec_inv (fun s i s' hI _ => hstep s i s' hI) hI hok h

/-- If every step that meets `ok` can be taken, so can the run. -/
theorem exec_total (hstep : ∀ s i, I s → ok s i → ∃ s', step s i = some s' ∧ I s') {s : σ} {is : List ι}
    (hI : I s) (hok : All step ok s is) : ∃ s', exec step s is = some s' ∧ I s' := by
  induction is generalizing s with
  | nil => exact ⟨s, rfl, hI⟩
  | cons i is ih =>
    obtain ⟨s₁, h₁, hI₁⟩ := hstep s i hI hok.1
    obtain ⟨s', h', hI'⟩ := ih hI₁ (hok.next h₁)
    refine ⟨s', ?_, hI'⟩
    simp [exec, h₁, h']

/-- Two runs of the same actions from related states: if related states go to related states, or
neither can take the action, so do the runs. -/
theorem exec_rel {σ' : Type} {step' : σ' → ι → Option σ'} {R : σ → σ' → Prop}
    (hstep : ∀ s s' i, R s s' → Option.Rel R (step s i) (step' s' i)) {s : σ} {s' : σ'} (hR : R s s') (is : List ι) :
    Option.Rel R (exec step s is) (exec step' s' is) := by
  induction is generalizing s s' with
  | nil => exact .some hR
  | cons i is ih =>
    have h := hstep s s' i hR
    simp only [exec]
    generalize step s i = o at h
    generalize step' s' i = o' at h
    cases h with
    | some h => exact ih h
    | none => exact .none

/-- A run that comes to its end, and what holds then. -/
theorem exists_exec {P : σ → Prop} {s : σ} {is : List ι} (hrun : (exec step s is).isSome)
    (h : ∀ s', exec step s is = some s' → P s') : ∃ s', exec step s is = some s' ∧ P s' := by
  obtain ⟨s', hs⟩ := Option.isSome_iff_exists.mp hrun
  exact ⟨s', hs, h s' hs⟩

/-- What holds at the end of a run, checked by evaluation. -/
theorem forall_exec {P : σ → Prop} [DecidablePred P] {s s' : σ} {is : List ι}
    (h : (exec step s is).all (fun s' => decide (P s')) = true) (hs : exec step s is = some s') : P s' := by
  simpa [hs] using h

/-- A run that ends in a state without `P`, checked by evaluation. -/
theorem not_forall_exec {P : σ → Prop} [DecidablePred P] {s : σ} {is : List ι}
    (h : (exec step s is).all (fun s' => decide (P s')) = false) : ¬ ∀ s', exec step s is = some s' → P s' := by
  intro hP
  cases hs : exec step s is with
  | none => simp [hs] at h
  | some s' => simp [hs, hP s' hs] at h

/-- Whether a call gives a value with `P`, by evaluation. -/
instance existsSome {α : Type} {o : Option α} {P : α → Prop} [DecidablePred P] : Decidable (∃ a, o = some a ∧ P a) :=
  decidable_of_iff (o.any fun a => decide (P a)) (by simp [Option.any_eq_true])

instance existsSome₂ {α β : Type} {o : Option α} {P : α → β → Prop} [∀ a, Decidable (∃ b, P a b)] :
    Decidable (∃ a b, o = some a ∧ P a b) :=
  decidable_of_iff (∃ a, o = some a ∧ ∃ b, P a b) (by simp [exists_and_left])

/-- A loop whose body gives `none` if it fails, and otherwise whether to go on
and the next state. It fails if it does not end within the given turns. -/
def loop (turn : σ → Option (Bool × σ)) : Nat → σ → Option σ
  | 0, _ => none
  | turns + 1, s => match turn s with
    | none => none
    | some (false, s') => some s'
    | some (true, s') => loop turn turns s'

/-- What every turn keeps holds when the loop ends. -/
theorem loop_inv {turn : σ → Option (Bool × σ)} {I : σ → Prop} (hturn : ∀ s b s', I s → turn s = some (b, s') → I s')
    {turns : Nat} {s s' : σ} (hI : I s) (h : loop turn turns s = some s') : I s' := by
  induction turns generalizing s with
  | zero => cases h
  | succ turns ih =>
    simp only [loop] at h
    split at h
    · cases h
    · rename_i s₁ hs
      cases h
      exact hturn s false s' hI hs
    · rename_i s₁ hs
      exact ih (hturn s true s₁ hI hs) h

/-- The states in which the loop goes on for another turn. -/
def visited (turn : σ → Option (Bool × σ)) : Nat → σ → List σ
  | 0, _ => []
  | turns + 1, s => match turn s with
    | some (true, s') => s :: visited turn turns s'
    | _ => []

/-- An invariant that makes its rank smaller at every turn, and may be about the states from before. -/
theorem loop_total_visited {turn : σ → Option (Bool × σ)} {I : List σ → σ → Nat → Prop} {J : List σ → σ → Prop}
    (hturn : ∀ past s n, I past s n →
      (∃ s' n', turn s = some (true, s') ∧ I (past ++ [s]) s' n' ∧ n' < n) ∨ ∃ s', turn s = some (false, s') ∧ J past s')
    {turns n : Nat} {p : List σ} {s : σ} (hI : I p s n) (hn : n < turns) :
    ∃ s', loop turn turns s = some s' ∧ J (p ++ visited turn turns s) s' := by
  induction turns generalizing p s n with
  | zero => omega
  | succ turns ih =>
    rcases hturn p s n hI with ⟨s', n', hs, hI', hlt⟩ | ⟨s', hs, hJ⟩
    · obtain ⟨s'', hloop, hJ⟩ := ih hI' (by omega)
      rw [List.append_assoc, List.singleton_append] at hJ
      simp only [loop, visited, hs]
      exact ⟨s'', hloop, hJ⟩
    · simp only [loop, visited, hs, List.append_nil]
      exact ⟨s', rfl, hJ⟩

theorem loop_total {turn : σ → Option (Bool × σ)} {I : σ → Nat → Prop} {J : σ → Prop}
    (hturn : ∀ s n, I s n →
      (∃ s' n', turn s = some (true, s') ∧ I s' n' ∧ n' < n) ∨ ∃ s', turn s = some (false, s') ∧ J s')
    {turns n : Nat} {s : σ} (hI : I s n) (hn : n < turns) : ∃ s', loop turn turns s = some s' ∧ J s' :=
  loop_total_visited (I := fun _ => I) (J := fun _ => J) (p := []) (fun _ => hturn) hI hn

/-! ## Calls that can stop -/

section

variable {ε α β : Type}

/-- The call gives a value with `P`, or stops with an error that `E` allows. -/
def Ends (E : ε → Prop) (P : α → Prop) : Except ε α → Prop
  | .ok a => P a
  | .error e => E e

instance Ends.dec {E : ε → Prop} {P : α → Prop} [DecidablePred E] [DecidablePred P] : DecidablePred (Ends E P)
  | .ok a => inferInstanceAs (Decidable (P a))
  | .error e => inferInstanceAs (Decidable (E e))

/-- If the call gives a value, it has `P`. -/
abbrev Returns (P : α → Prop) : Except ε α → Prop := Ends (fun _ => True) P

variable {E E' : ε → Prop} {P Q : α → Prop} {x : Except ε α}

theorem Ends.self (x : Except ε α) : Ends (fun e => x = .error e) (fun a => x = .ok a) x := by
  cases x with
  | ok a => rfl
  | error e => rfl

theorem Ends.mono (h : Ends E P x) (hE : ∀ e, E e → E' e) (hP : ∀ a, P a → Q a) : Ends E' Q x := by
  cases x with
  | ok a => exact hP a h
  | error e => exact hE e h

theorem Ends.imp (h : Ends E P x) (hP : ∀ a, P a → Q a) : Ends E Q x := h.mono (fun _ => id) hP

theorem Ends.exists_ok (h : Ends (fun _ => False) P x) : ∃ a, x = .ok a ∧ P a := by
  cases x with
  | ok a => exact ⟨a, rfl, h⟩
  | error e => exact h.elim

theorem Ends.bind {R : β → Prop} {f : α → Except ε β} (h : Ends E P x) (hf : ∀ a, P a → Ends E R (f a)) :
    Ends E R (x >>= f) := by
  cases x with
  | ok a => exact hf a h
  | error e => exact h

theorem Ends.map {R : β → Prop} {f : α → β} (h : Ends E (fun a => R (f a)) x) : Ends E R (x.map f) := by
  cases x with
  | ok a => exact h
  | error e => exact h

/-- What every turn of a loop over `0, …, n - 1` keeps, with the number of turns so far. -/
theorem Ends.foldlM_range {I : Nat → α → Prop} {f : α → Nat → Except ε α} {n : Nat} {a : α} (h : I 0 a)
    (hf : ∀ i a, i < n → I i a → Ends E (I (i + 1)) (f a i)) : Ends E (I n) ((List.range n).foldlM f a) := by
  induction n with
  | zero => exact h
  | succ n ih =>
    rw [List.range_succ, List.foldlM_append]
    refine (ih fun i a hi => hf i a (Nat.lt_succ_of_lt hi)).bind fun b hb => ?_
    refine (hf n b (Nat.lt_succ_self n) hb).bind fun c hc => ?_
    exact hc

theorem map_ok {f : α → β} {b : β} (h : x.map f = .ok b) : ∃ a, x = .ok a ∧ f a = b := by
  cases x with
  | ok a => exact ⟨a, rfl, Except.ok.inj h⟩
  | error e => cases h

theorem ok_bind (a : α) (f : α → Except ε β) : (Except.ok a >>= f) = f a := rfl

end

end Run
