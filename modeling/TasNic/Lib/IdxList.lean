import Mathlib.Data.List.Nodup
import Mathlib.Logic.Function.Basic

/-!
# Lists linked by index

Lists whose elements are indices and whose links are a table `next` of indices. `Chain next h l`:
following `next` from the head `h` gives the elements of `l` and ends. A list with a pointer to its last
element (`Fifo`) also takes elements at its end. A doubly linked list (`DList`) is a list in both
directions.
-/

namespace IdxList

open Function List

/-- The list that starts at `h`, element by element. -/
def Chain (next : Nat → Option Nat) : Option Nat → List Nat → Prop
  | h, [] => h = none
  | h, a :: l => h = some a ∧ Chain next (next a) l

section

variable {next next' : Nat → Option Nat} {h : Option Nat} {l l' : List Nat} {a b : Nat}

@[simp] theorem chain_nil : Chain next h [] ↔ h = none := Iff.rfl

@[simp] theorem chain_cons : Chain next h (a :: l) ↔ h = some a ∧ Chain next (next a) l := Iff.rfl

theorem Chain.congr (hc : Chain next h l) (hn : ∀ c ∈ l, next' c = next c) : Chain next' h l := by
  induction l generalizing h with
  | nil => exact hc
  | cons c l ih =>
    obtain ⟨rfl, hc⟩ := hc
    refine ⟨rfl, ?_⟩
    rw [hn c (mem_cons_self ..)]
    exact ih hc fun d hd => hn d (mem_cons_of_mem _ hd)

theorem Chain.unique (hc : Chain next h l) (hc' : Chain next h l') : l = l' := by
  induction l generalizing h l' with
  | nil =>
    cases l' with
    | nil => rfl
    | cons c l' => cases hc; cases hc'.1
  | cons c l ih =>
    obtain ⟨rfl, hc⟩ := hc
    cases l' with
    | nil => cases hc'
    | cons d l' =>
      obtain ⟨hd, hc'⟩ := hc'
      cases hd
      rw [ih hc hc']

/-- The elements from `h` on, at most so many. -/
def toList (next : Nat → Option Nat) : Nat → Option Nat → List Nat
  | 0, _ => []
  | _ + 1, none => []
  | n + 1, some a => a :: toList next n (next a)

theorem Chain.toList_eq {n : Nat} (hc : Chain next h l) (hn : l.length ≤ n) : toList next n h = l := by
  induction l generalizing h n with
  | nil =>
    rw [show h = none from hc]
    cases n with
    | zero => rfl
    | succ n => rfl
  | cons c l ih =>
    obtain ⟨rfl, hc⟩ := hc
    cases n with
    | zero => exact absurd hn (Nat.not_succ_le_zero _)
    | succ n => rw [toList, ih hc (Nat.le_of_succ_le_succ hn)]

/-- Along a loop that follows the list and has enough turns for it. -/
theorem Chain.walk {motive : (h : Option Nat) → (l : List Nat) → (turns : Nat) → Chain next h l → l.length < turns → Prop}
    (nil : ∀ turns, motive none [] (turns + 1) rfl (Nat.succ_pos _))
    (cons : ∀ a l turns hc ht, motive (next a) l turns hc ht → motive (some a) (a :: l) (turns + 1) ⟨rfl, hc⟩ (Nat.succ_lt_succ ht))
    (h : Option Nat) (l : List Nat) (turns : Nat) (hc : Chain next h l) (ht : l.length < turns) : motive h l turns hc ht := by
  induction l generalizing h turns with
  | nil =>
    obtain ⟨turns, rfl⟩ := Nat.exists_eq_succ_of_ne_zero (Nat.ne_of_gt ht)
    cases hc
    exact nil turns
  | cons a l ih =>
    obtain ⟨turns, rfl⟩ := Nat.exists_eq_succ_of_ne_zero (Nat.ne_of_gt (Nat.zero_lt_of_lt ht))
    obtain ⟨rfl, hc⟩ := hc
    exact cons a l turns hc (Nat.lt_of_succ_lt_succ ht) (ih ..)

theorem Chain.after (hc : Chain next h (l ++ a :: l')) : Chain next (next a) l' := by
  induction l generalizing h with
  | nil => exact hc.2
  | cons c l ih => exact ih hc.2

theorem Chain.nodup (hc : Chain next h l) : l.Nodup := by
  induction l generalizing h with
  | nil => exact nodup_nil
  | cons c l ih =>
    refine nodup_cons.mpr ⟨fun hmem => ?_, ih hc.2⟩
    -- the list after the second place of `c` would be the one after the first
    obtain ⟨l₁, l₂, rfl⟩ := append_of_mem hmem
    have := congrArg length (Chain.unique hc.2 (Chain.after (l := c :: l₁) hc))
    simp at this
    omega

theorem Chain.push (hc : Chain next h l) (ha : a ∉ l) : Chain (update next a h) (some a) (a :: l) := by
  refine ⟨rfl, ?_⟩
  rw [update_self]
  exact hc.congr fun c hcl => update_of_ne (ne_of_mem_of_not_mem hcl ha) ..

theorem Chain.insert_after (hc : Chain next h (l ++ a :: l')) (hb : b ∉ l ++ a :: l') :
    Chain (update (update next b (next a)) a (some b)) h (l ++ a :: b :: l') := by
  have hnd := hc.nodup
  induction l generalizing h with
  | nil =>
    obtain ⟨rfl, hc⟩ := hc
    simp only [nil_append, mem_cons, not_or] at hb
    have hal := (nodup_cons.mp hnd).1
    refine ⟨rfl, ?_, ?_⟩
    · rw [update_self]
    · rw [update_of_ne hb.1, update_self]
      refine hc.congr fun c hcl => ?_
      rw [update_of_ne (ne_of_mem_of_not_mem hcl hal), update_of_ne (ne_of_mem_of_not_mem hcl hb.2)]
  | cons c l ih =>
    obtain ⟨rfl, hc⟩ := hc
    simp only [cons_append, mem_cons, not_or] at hb
    have hcl := (nodup_cons.mp hnd).1
    refine ⟨rfl, ?_⟩
    rw [update_of_ne (fun e => hcl (by simp [e])), update_of_ne (Ne.symm hb.1)]
    exact ih hc hb.2 (nodup_cons.mp hnd).2

theorem Chain.remove_after (hc : Chain next h (l ++ a :: b :: l')) :
    Chain (update next a (next b)) h (l ++ a :: l') := by
  have hnd := hc.nodup
  induction l generalizing h with
  | nil =>
    obtain ⟨rfl, -, hc⟩ := hc
    have hal := (nodup_cons.mp hnd).1
    refine ⟨rfl, ?_⟩
    rw [update_self]
    exact hc.congr fun c hcl => update_of_ne (ne_of_mem_of_not_mem (mem_cons_of_mem _ hcl) hal) ..
  | cons c l ih =>
    obtain ⟨rfl, hc⟩ := hc
    have hcl := (nodup_cons.mp hnd).1
    refine ⟨rfl, ?_⟩
    rw [update_of_ne fun e => hcl (by simp [e])]
    exact ih hc (nodup_cons.mp hnd).2

theorem Chain.unlink (hc : Chain next h (l ++ a :: l')) :
    match l.getLast? with
    | none => Chain next (next a) (l ++ l')
    | some q => Chain (update next q (next a)) h (l ++ l') := by
  rcases eq_nil_or_concat l with rfl | ⟨l₁, q, rfl⟩
  · exact hc.2
  · rw [concat_eq_append] at hc ⊢
    rw [getLast?_concat]
    simp only [append_assoc, singleton_append] at hc ⊢
    exact hc.remove_after

theorem Chain.link (hc : Chain next h (l ++ l')) (ha : a ∉ l ++ l') :
    match l.getLast? with
    | none => Chain (update next a h) (some a) (l ++ a :: l')
    | some q => Chain (update (update next a (next q)) q (some a)) h (l ++ a :: l') := by
  rcases eq_nil_or_concat l with rfl | ⟨l₁, q, rfl⟩
  · exact hc.push ha
  · rw [concat_eq_append] at hc ha ⊢
    rw [getLast?_concat]
    simp only [append_assoc, singleton_append] at hc ha ⊢
    exact hc.insert_after ha

theorem Chain.head_eq (hc : Chain next h l) : h = l.head? := by
  cases l with
  | nil => exact hc
  | cons a l => exact hc.1

end

/-! ## Lists with a pointer to their last element -/

/-- The list from `first` on, whose last element is `last`. -/
structure Fifo (next : Nat → Option Nat) (first last : Option Nat) (l : List Nat) : Prop where
  chain : Chain next first l
  last_eq : last = l.getLast?

section

variable {next next' : Nat → Option Nat} {first last : Option Nat} {l l₁ l₂ : List Nat} {a q : Nat}

theorem Fifo.first_none_iff (h : Fifo next first last l) : first = none ↔ last = none := by
  rw [h.chain.head_eq, h.last_eq, head?_eq_none_iff, getLast?_eq_none_iff]

theorem Fifo.last_of_next (h : Fifo next first last (l₁ ++ a :: l₂)) (hn : next a = none) : last = some a := by
  have hc := h.chain.after
  rw [hn] at hc
  rw [h.last_eq, head?_eq_none_iff.mp hc.head_eq.symm, getLast?_concat]

theorem Fifo.append_nil (h : Fifo next first none l) : Fifo (update next a none) (some a) (some a) (l ++ [a]) := by
  obtain rfl := getLast?_eq_none_iff.mp h.last_eq.symm
  exact ⟨⟨rfl, update_self ..⟩, rfl⟩

theorem Fifo.append (h : Fifo next first (some q) l) (ha : a ∉ l) :
    Fifo (update (update next a none) q (some a)) first (some a) (l ++ [a]) := by
  obtain ⟨l, rfl⟩ := getLast?_eq_some_iff.mp h.last_eq.symm
  have hc : Chain next first (l ++ q :: []) := h.chain
  refine ⟨?_, by rw [getLast?_concat]⟩
  rw [← chain_nil.mp hc.after, append_assoc]
  exact hc.insert_after ha

theorem Fifo.pop (h : Fifo next first last (a :: l)) : Fifo next (next a) (if next a = none then none else last) l := by
  obtain ⟨-, hc⟩ := h.chain
  refine ⟨hc, ?_⟩
  cases l with
  | nil => rw [if_pos (chain_nil.mp hc), getLast?_nil]
  | cons b l => rw [hc.1, if_neg (Option.some_ne_none b), h.last_eq, getLast?_cons_cons]

theorem Fifo.remove (h : Fifo next first last (l₁ ++ q :: a :: l₂)) :
    Fifo (update next q (next a)) first (if next a = none then some q else last) (l₁ ++ q :: l₂) := by
  have hafter : Chain next (next a) l₂ := by
    have hc := h.chain
    rw [append_cons] at hc
    exact hc.after
  refine ⟨h.chain.remove_after, ?_⟩
  cases l₂ with
  | nil => rw [if_pos (chain_nil.mp hafter), getLast?_concat]
  | cons b l₂ =>
    rw [hafter.1, if_neg (Option.some_ne_none b), h.last_eq]
    simp

end

/-! ## Doubly linked lists -/

/-- The list from `first` to `last`, with links in both directions. -/
structure DList (next prev : Nat → Option Nat) (first last : Option Nat) (l : List Nat) : Prop where
  forward : Chain next first l
  backward : Chain prev last l.reverse

section

variable {next prev next' prev' : Nat → Option Nat} {first last first' last' : Option Nat} {l l₁ l₂ : List Nat} {a : Nat}

theorem DList.nodup (h : DList next prev first last l) : l.Nodup := h.forward.nodup

theorem DList.first_eq (h : DList next prev first last l) : first = l.head? := h.forward.head_eq

theorem DList.last_eq (h : DList next prev first last l) : last = l.getLast? := by
  rw [h.backward.head_eq, head?_reverse]

section

variable (h : DList next prev first last (l₁ ++ a :: l₂))

include h

theorem DList.next_eq : next a = l₂.head? := h.forward.after.head_eq

theorem DList.prev_eq : prev a = l₁.getLast? := by
  have hb := h.backward
  rw [reverse_append, reverse_cons, append_assoc, singleton_append] at hb
  rw [hb.after.head_eq, head?_reverse]

theorem DList.first_of_prev (hp : prev a = none) : first = some a := by
  rw [h.prev_eq, getLast?_eq_none_iff] at hp
  rw [h.first_eq, hp]
  rfl

theorem DList.last_of_next (hn : next a = none) : last = some a := by
  rw [h.next_eq, head?_eq_none_iff] at hn
  rw [h.last_eq, hn, getLast?_concat]

omit h in
theorem DList.congr (h : DList next prev first last l) (hn : ∀ c ∈ l, next' c = next c) (hp : ∀ c ∈ l, prev' c = prev c) :
    DList next' prev' first last l :=
  ⟨h.forward.congr hn, h.backward.congr fun c hc => hp c (mem_reverse.mp hc)⟩

omit h in
theorem DList.update_next {o : Option Nat} (h : DList next prev first last l) (ha : a ∉ l) :
    DList (update next a o) prev first last l :=
  h.congr (fun _ hc => update_of_ne (ne_of_mem_of_not_mem hc ha) ..) fun _ _ => rfl

omit h in
theorem DList.update_prev {o : Option Nat} (h : DList next prev first last l) (ha : a ∉ l) :
    DList next (update prev a o) first last l :=
  h.congr (fun _ _ => rfl) fun _ hc => update_of_ne (ne_of_mem_of_not_mem hc ha) ..

theorem DList.remove
    (hn : next' = match l₁.getLast? with | none => next | some q => update next q (next a))
    (hf : first' = match l₁.getLast? with | none => next a | some _ => first)
    (hp : prev' = match l₂.head? with | none => prev | some q => update prev q (prev a))
    (hl : last' = match l₂.head? with | none => prev a | some _ => last) : DList next' prev' first' last' (l₁ ++ l₂) := by
  have hfwd := h.forward.unlink
  have hb := h.backward
  rw [reverse_append, reverse_cons, append_assoc, singleton_append] at hb
  have hbwd := hb.unlink
  rw [getLast?_reverse] at hbwd
  subst hn hf hp hl
  constructor
  · cases hq : l₁.getLast? <;> rw [hq] at hfwd <;> exact hfwd
  · rw [reverse_append]
    cases hq : l₂.head? <;> rw [hq] at hbwd <;> exact hbwd

end

theorem DList.head_next (h : DList next prev first last (a :: l)) : next a = l.head? := by
  rw [← nil_append (a :: l)] at h
  exact h.next_eq

theorem DList.head_prev (h : DList next prev first last (a :: l)) : prev a = none := by
  rw [← nil_append (a :: l)] at h
  exact h.prev_eq

theorem DList.remove_head (h : DList next prev first last (a :: l)) :
    DList next (match l.head? with | none => prev | some q => update prev q (prev a)) (next a)
      (match l.head? with | none => prev a | some _ => last) l := by
  rw [← nil_append (a :: l)] at h
  exact h.remove rfl rfl rfl rfl

theorem DList.remove_frame (h : DList next prev first last l) (hd : List.Disjoint l (l₁ ++ a :: l₂)) :
    DList (match l₁.getLast? with | none => next | some q => update next q (next a))
      (match l₂.head? with | none => prev | some q => update prev q (prev a)) first last l := by
  obtain ⟨h₁, h₂⟩ := disjoint_append_right.mp hd
  have hn : DList (match l₁.getLast? with | none => next | some q => update next q (next a)) prev first last l := by
    cases hq : l₁.getLast? with
    | none => exact h
    | some q => exact h.update_next fun hl => h₁ hl (mem_of_getLast? hq)
  cases hq : l₂.head? with
  | none => exact hn
  | some q => exact hn.update_prev fun hl => h₂ hl (mem_cons_of_mem _ (mem_of_head? hq))

theorem DList.insert_frame {o o' : Option Nat} (h : DList next prev first last l) (ha : a ∉ l) (l₁ l₂ : List Nat)
    (hd : List.Disjoint l (l₁ ++ l₂)) :
    DList (match l₁.getLast? with | none => update next a o | some q => update (update next a o) q (some a))
      (match l₂.head? with | none => update prev a o' | some q => update (update prev a o') q (some a)) first last l := by
  have h' := (h.update_next (o := o) ha).update_prev (o := o') ha
  refine h'.congr (fun c hc => ?_) fun c hc => ?_
  · cases hq : l₁.getLast? with
    | none => rfl
    | some q => exact update_of_ne (ne_of_mem_of_not_mem hc fun hl => hd hl (mem_append_left _ (mem_of_getLast? hq))) ..
  · cases hq : l₂.head? with
    | none => rfl
    | some q => exact update_of_ne (ne_of_mem_of_not_mem hc fun hl => hd hl (mem_append_right _ (mem_of_head? hq))) ..

theorem DList.insert (h : DList next prev first last (l₁ ++ l₂)) (ha : a ∉ l₁ ++ l₂)
    (hn : next' = match l₁.getLast? with
      | none => update next a l₂.head?
      | some q => update (update next a l₂.head?) q (some a))
    (hf : first' = match l₁.getLast? with | none => some a | some _ => first)
    (hp : prev' = match l₂.head? with
      | none => update prev a l₁.getLast?
      | some q => update (update prev a l₁.getLast?) q (some a))
    (hl : last' = match l₂.head? with | none => some a | some _ => last) :
    DList next' prev' first' last' (l₁ ++ a :: l₂) := by
  have hfwd := h.forward.link ha
  have hb := h.backward
  rw [reverse_append] at hb
  have ha' : a ∉ l₂.reverse ++ l₁.reverse := by simpa [and_comm] using ha
  have hbwd := hb.link ha'
  rw [getLast?_reverse] at hbwd
  subst hn hf hp hl
  constructor
  · cases hq : l₁.getLast? with
    | none =>
      rw [getLast?_eq_none_iff.mp hq] at h hfwd ⊢
      have e := h.first_eq
      rw [nil_append] at e
      rw [← e]
      exact hfwd
    | some q =>
      obtain ⟨l₃, rfl⟩ := getLast?_eq_some_iff.mp hq
      rw [hq] at hfwd
      have e : next q = l₂.head? := by
        rw [append_assoc, singleton_append] at h
        exact h.next_eq
      rw [← e]
      exact hfwd
  · have hrev : (l₁ ++ a :: l₂).reverse = l₂.reverse ++ a :: l₁.reverse := by simp
    rw [hrev]
    cases hq : l₂.head? with
    | none =>
      rw [head?_eq_none_iff.mp hq] at h hbwd ⊢
      have e := h.last_eq
      rw [append_nil] at e
      rw [← e]
      exact hbwd
    | some q =>
      obtain ⟨l₃, rfl⟩ := head?_eq_some_iff.mp hq
      rw [hq] at hbwd
      rw [← h.prev_eq]
      exact hbwd

end

end IdxList
