import TasNic.Lib.IdxList
import Mathlib.Data.Finset.Card

/-!
# Lists of blocks of memory

Lists linked by index whose elements are blocks that can be freed. A walk along
a list (`find`) goes wrong if it reads a block that is not allocated, or if it
does not end. On a list of allocated blocks it finds what the list holds
(`find_eq`), and an element can be taken out (`unlink_eq`).

In `Family next head place` several lists share one table of links, so that a
block is on at most one of them, which is its `place`.
-/

namespace Chains

open Function IdxList List

/-- What goes wrong on a walk: a block that is not allocated is read, or the list
does not end. -/
inductive Fault where
  | freed
  | endless
deriving DecidableEq

section

variable (alive : Nat → Bool) (next : Nat → Option Nat)

/-- The first element from `h` on with `p`. -/
def find (p : Nat → Bool) : Nat → Option Nat → Except Fault (Option Nat)
  | 0, _ => .error .endless
  | _ + 1, none => .ok none
  | turns + 1, some c =>
    if alive c then
      if p c then .ok (some c) else find p turns (next c)
    else .error .freed

/-- Taking `c` out of the list from `h` on: the new head and the new links, or
`none` if `c` is not on the list. -/
def unlink (turns : Nat) (h : Option Nat) (c : Nat) : Except Fault (Option (Option Nat × (Nat → Option Nat))) :=
  if h = some c then .ok (some (next c, next))
  else match find alive next (fun cp => next cp == some c) turns h with
    | .error f => .error f
    | .ok none => .ok none
    | .ok (some cp) => .ok (some (h, update next cp (next c)))

end

section

variable {alive : Nat → Bool} {next : Nat → Option Nat} {h : Option Nat} {l : List Nat} {turns c : Nat}

theorem find_some {p : Nat → Bool} (e : find alive next p turns h = .ok (some c)) : alive c = true ∧ p c = true := by
  induction turns generalizing h with
  | zero => cases e
  | succ turns ih =>
    cases h with
    | none => cases e
    | some a =>
      rw [find] at e
      split_ifs at e with ha hp
      · cases e
        exact ⟨ha, hp⟩
      · exact ih e

theorem find_eq {p : Nat → Bool} (hc : Chain next h l) (ha : ∀ c ∈ l, alive c = true) (ht : l.length < turns) :
    find alive next p turns h = .ok (l.find? p) := by
  induction h, l, turns, hc, ht using Chain.walk with
  | nil turns => rfl
  | cons a l turns hc ht ih =>
    rw [find, if_pos (ha a (mem_cons_self ..)), find?_cons]
    cases hp : p a with
    | true => rfl
    | false => exact ih fun b hb => ha b (mem_cons_of_mem _ hb)

theorem find_pred {l₁ l₂ : List Nat} {q : Nat} (hc : Chain next h (l₁ ++ q :: c :: l₂)) :
    (l₁ ++ q :: c :: l₂).find? (fun cp => next cp == some c) = some q := by
  have hnd := hc.nodup
  induction l₁ generalizing h with
  | nil =>
    obtain ⟨-, hn, -⟩ := hc
    simp [hn]
  | cons a l₁ ih =>
    obtain ⟨-, hc'⟩ := hc
    have hne : (next a == some c) = false := by
      -- what follows `a` is the head of the rest, and `c` comes later
      rw [beq_eq_false_iff_ne, hc'.head_eq]
      intro he
      have hnd' := (nodup_cons.mp hnd).2
      cases l₁ with
      | nil =>
        have he : q = c := Option.some.inj he
        simp [he] at hnd'
      | cons b l₁ =>
        have he : b = c := Option.some.inj he
        simp [he] at hnd'
    rw [cons_append, find?_cons, hne]
    exact ih hc' (nodup_cons.mp hnd).2

theorem unlink_eq (hc : Chain next h l) (ha : ∀ c ∈ l, alive c = true) (ht : l.length < turns) (hmem : c ∈ l) :
    ∃ h' next', unlink alive next turns h c = .ok (some (h', next')) ∧ Chain next' h' (l.erase c) ∧
      ∀ d ∉ l, next' d = next d := by
  obtain ⟨l₁, l₂, rfl⟩ := append_of_mem hmem
  have hnd := hc.nodup
  have hc₁ : c ∉ l₁ := fun h => (nodup_append.mp hnd).2.2 c h c (mem_cons_self ..) rfl
  have hl : (l₁ ++ c :: l₂).erase c = l₁ ++ l₂ := by
    rw [erase_append_right _ hc₁, erase_cons_head]
  rw [hl]
  have hu := hc.unlink
  rcases eq_nil_or_concat l₁ with rfl | ⟨l₀, q, rfl⟩
  · obtain ⟨rfl, -⟩ := hc
    exact ⟨next c, next, by rw [unlink, if_pos rfl], hu, fun _ _ => rfl⟩
  · simp only [concat_eq_append, append_assoc, singleton_append, getLast?_append,
      getLast?_singleton, Option.some_or] at hc hu ha ht hnd hc₁ ⊢
    have hh : h ≠ some c := by
      rw [hc.head_eq]
      intro he
      cases l₀ with
      | nil => simp [Option.some.inj he] at hc₁
      | cons b l₀ => simp [Option.some.inj he] at hc₁
    refine ⟨h, update next q (next c), ?_, hu, fun d hd => update_of_ne (fun e => hd (by simp [e])) ..⟩
    rw [unlink, if_neg hh, find_eq hc ha ht, find_pred hc]

end

/-! ## Lists that share their links -/

/-- The lists from the heads `head`, through the links `next`: block `c` is on the
list `place c`, if any. -/
structure Family {ι : Type} (next : Nat → Option Nat) (head : ι → Option Nat) (place : Nat → Option ι) : Prop where
  list : ∀ i, ∃ l, Chain next (head i) l ∧ ∀ c, c ∈ l ↔ place c = some i

namespace Family

variable {ι : Type} [DecidableEq ι] {next : Nat → Option Nat} {head : ι → Option Nat} {place : Nat → Option ι}
  {i : ι} {c : Nat}

omit [DecidableEq ι] in
theorem next_mem {d : Nat} (h : Family next head place) (hc : place c = some i) (hd : next c = some d) :
    place d = some i ∧ d ≠ c := by
  obtain ⟨l, hl, hm⟩ := h.list i
  obtain ⟨l₁, l₂, rfl⟩ := append_of_mem ((hm c).mpr hc)
  have hafter := hl.after
  rw [hd] at hafter
  cases l₂ with
  | nil => cases hafter
  | cons a l₂ =>
    cases hafter.1
    have hnd := (nodup_append.mp hl.nodup).2.1
    refine ⟨(hm d).mp (by simp), fun e => ?_⟩
    subst e
    exact (nodup_cons.mp hnd).1 (mem_cons_self ..)

omit [DecidableEq ι] in
theorem head_some (h : Family next head place) (hc : place c = some i) : ∃ d, head i = some d := by
  obtain ⟨l, hl, hm⟩ := h.list i
  cases l with
  | nil => exact absurd ((hm c).mpr hc) not_mem_nil
  | cons d l => exact ⟨d, hl.1⟩

theorem push (h : Family next head place) (hc : place c = none) (i : ι) :
    Family (update next c (head i)) (update head i (some c)) (update place c (some i)) where
  list j := by
    obtain ⟨l, hl, hm⟩ := h.list j
    have hcl : c ∉ l := fun hmem => by
      have := (hm c).mp hmem
      rw [hc] at this
      cases this
    by_cases hj : j = i
    · subst hj
      rw [update_self]
      refine ⟨c :: l, hl.push hcl, fun d => ?_⟩
      by_cases hd : d = c
      · simp [hd]
      · rw [mem_cons, update_of_ne hd, hm d]
        simp [hd]
    · rw [update_of_ne hj]
      refine ⟨l, hl.congr fun d hd => update_of_ne (ne_of_mem_of_not_mem hd hcl) .., fun d => ?_⟩
      by_cases hd : d = c
      · subst hd
        simp [hcl, Ne.symm hj]
      · rw [update_of_ne hd, hm d]

omit [DecidableEq ι] in
theorem mem_iff {l : List Nat} (h : Family next head place) (hl : Chain next (head i) l) (c : Nat) :
    c ∈ l ↔ place c = some i := by
  obtain ⟨l', hl', hm⟩ := h.list i
  rw [hl.unique hl', hm]

theorem erase {l : List Nat} {next' : Nat → Option Nat} {h' : Option Nat} (h : Family next head place)
    (hl : Chain next (head i) l) (hc : c ∈ l) (hl' : Chain next' h' (l.erase c)) (hout : ∀ d ∉ l, next' d = next d) :
    Family next' (update head i h') (update place c none) where
  list j := by
    have hm := h.mem_iff hl
    by_cases hj : j = i
    · subst hj
      rw [update_self]
      refine ⟨l.erase c, hl', fun d => ?_⟩
      rw [hl.nodup.mem_erase_iff, hm d]
      by_cases hd : d = c
      · simp [hd]
      · rw [update_of_ne hd]
        simp [hd]
    · rw [update_of_ne hj]
      obtain ⟨l', hl', hm'⟩ := h.list j
      refine ⟨l', hl'.congr fun d hd => hout d fun hd' => hj ?_, fun d => ?_⟩
      · exact Option.some.inj (((hm' d).mp hd).symm.trans ((hm d).mp hd'))
      · by_cases hd : d = c
        · subst hd
          rw [hm' d, (hm d).mp hc]
          simp [Ne.symm hj]
        · rw [update_of_ne hd, hm' d]

theorem pop (h : Family next head place) (hi : head i = some c) :
    place c = some i ∧ Family next (update head i (next c)) (update place c none) := by
  obtain ⟨l, hl, hm⟩ := h.list i
  cases l with
  | nil =>
    rw [chain_nil.mp hl] at hi
    cases hi
  | cons b l =>
    have hb := hl.1
    rw [hi] at hb
    cases hb
    have hc := mem_cons_self (a := c) (l := l)
    refine ⟨(hm c).mp hc, h.erase hl hc ?_ fun _ _ => rfl⟩
    rw [erase_cons_head]
    exact hl.2

theorem dropLast {l : List Nat} (h : Family next head place) (hl : Chain next (head i) (l ++ [c])) :
    match l.getLast? with
    | none => Family next (update head i none) (update place c none)
    | some q => Family (update next q none) head (update place c none) := by
  have hmem : c ∈ l ++ [c] := by simp
  have hnone : next c = none := chain_nil.mp hl.after
  have hcl : c ∉ l := fun hc => (nodup_append.mp hl.nodup).2.2 c hc c (mem_singleton_self c) rfl
  have herase : (l ++ [c]).erase c = l ++ [] := by
    rw [erase_append_right _ hcl, erase_cons_head]
  have hu := hl.unlink
  rw [hnone, ← herase] at hu
  cases hq : l.getLast? with
  | none =>
    rw [hq] at hu
    exact h.erase hl hmem hu fun _ _ => rfl
  | some q =>
    rw [hq] at hu
    have := h.erase hl hmem hu fun d hd => update_of_ne (fun e => hd ?_) ..
    · rwa [update_eq_self] at this
    · exact mem_append_left _ (e ▸ mem_of_getLast? hq)

variable {alive : Nat → Bool} {turns : Nat} (h : Family next head place) (ha : ∀ c i, place c = some i → alive c = true)
  (ht : ∀ l : List Nat, l.Nodup → (∀ c ∈ l, alive c = true) → l.length < turns)

include h ha ht

omit [DecidableEq ι] in
/-- What a walk along list `i` finds. -/
theorem find (p : Nat → Bool) (i : ι) :
    ∃ r, Chains.find alive next p turns (head i) = .ok r ∧ (∀ c, r = some c → place c = some i ∧ p c = true) ∧
      (r = none → ∀ c, place c = some i → p c = false) := by
  obtain ⟨l, hl, hm⟩ := h.list i
  have hal : ∀ c ∈ l, alive c = true := fun c hc => ha c i ((hm c).mp hc)
  refine ⟨l.find? p, find_eq hl hal (ht l hl.nodup hal), fun c hc => ?_, fun hn c hc => ?_⟩
  · exact ⟨(hm c).mp (mem_of_find?_eq_some hc), find?_some hc⟩
  · have := find?_eq_none.mp hn c ((hm c).mpr hc)
    simpa using this

theorem unlink (hc : place c = some i) :
    ∃ h' next', Chains.unlink alive next turns (head i) c = .ok (some (h', next')) ∧
      Family next' (update head i h') (update place c none) := by
  obtain ⟨l, hl, hm⟩ := h.list i
  have hal : ∀ c ∈ l, alive c = true := fun c hc => ha c i ((hm c).mp hc)
  obtain ⟨h', next', e, hl', hout⟩ := unlink_eq hl hal (ht l hl.nodup hal) ((hm c).mpr hc)
  exact ⟨h', next', e, h.erase hl ((hm c).mpr hc) hl' hout⟩

end Family

theorem length_lt_of_below {l : List Nat} {n : Nat} (hl : l.Nodup) (hb : ∀ c ∈ l, c < n) : l.length < n + 1 := by
  have hsub : l.toFinset ⊆ Finset.range n := fun c hc => Finset.mem_range.mpr (hb c (mem_toFinset.mp hc))
  have := Finset.card_le_card hsub
  rw [toFinset_card_of_nodup hl, Finset.card_range] at this
  omega

end Chains
