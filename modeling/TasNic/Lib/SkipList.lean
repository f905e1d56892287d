import TasNic.Lib.IdxList
import Mathlib.Data.List.Basic

/-!
# Skip lists linked by index

Several levels of lists linked by index, each a part of the level below (`Rep`). An element is put
behind those that come `before` it: `preds` finds the last of these on each level, from the top down,
and `link` links the new element on the levels up to its own. `unlink` takes the first element out.
-/

namespace SkipList

open Function IdxList

/-- The links of each level, and where each level starts. -/
structure Links where
  next : Nat → Nat → Option Nat
  head : Nat → Option Nat

def Links.setNext (s : Links) (l i : Nat) (v : Option Nat) : Links :=
  { s with next := update s.next l (update (s.next l) i v) }

def Links.setHead (s : Links) (l : Nat) (v : Option Nat) : Links := { s with head := update s.head l v }

/-- The last element before the place, from `idx` on; `none` if it is not
found in the given number of turns. -/
def walk (next : Nat → Option Nat) (before : Nat → Bool) : Nat → Option Nat → Option Nat → Option (Option Nat)
  | 0, _, _ => none
  | _ + 1, pred, none => some pred
  | turns + 1, pred, some i => if before i then walk next before turns (some i) (next i) else some pred

/-- The last elements before the place, on the levels below a given one. The
search on a level starts where that on the level above ended. -/
def preds (s : Links) (before : Nat → Bool) (turns : Nat) : Nat → Option Nat → Option (Nat → Option Nat)
  | 0, _ => some fun _ => none
  | l + 1, pred =>
    match walk (s.next l) before turns pred (if pred.isSome then pred else s.head l) with
    | none => none
    | some pred => (preds s before turns l pred).map fun f => update f l pred

/-- Linking `q` behind `pred` on one level, or as the first if there is none. -/
def linkAt (s : Links) (q l : Nat) : Option Nat → Links
  | some p => (s.setNext l q (s.next l p)).setNext l p (some q)
  | none => (s.setNext l q (s.head l)).setHead l (some q)

/-- Linking `q` on one level, if it is at most `level`. -/
def linkLevel (pred : Nat → Option Nat) (q level : Nat) (s : Links) (l : Nat) : Links :=
  if level < l then s.setNext l q none else linkAt s q l (pred l)

/-- Linking `q` on the levels below a given one. -/
def link (pred : Nat → Option Nat) (q level : Nat) : Nat → Links → Links
  | 0, s => s
  | l + 1, s => link pred q level l (linkLevel pred q level s l)

/-- Taking the first element `q` out, on the levels from `l` on that start
with it. -/
def unlink (q : Nat) : Nat → Nat → Links → Links
  | 0, _, s => s
  | n + 1, l, s => if s.head l = some q then unlink q n (l + 1) (s.setHead l (s.next l q)) else s

/-- The elements of each of `L` levels. -/
structure Rep (L : Nat) (s : Links) (S : Nat → List Nat) : Prop where
  chain : ∀ l < L, Chain (s.next l) (s.head l) (S l)
  sub : ∀ l, l + 1 < L → (S (l + 1)).Sublist (S l)

theorem Rep.congr {L : Nat} {s s' : Links} {S : Nat → List Nat} (h : Rep L s S)
    (hn : ∀ l < L, ∀ i ∈ S l, s'.next l i = s.next l i) (hh : ∀ l < L, s'.head l = s.head l) : Rep L s' S :=
  ⟨fun l hl => hh l hl ▸ (h.chain l hl).congr (hn l hl), h.sub⟩

/-! ## Places -/

section Place

variable {before : Nat → Bool} {q : Nat} {l l' : List Nat}

/-- The elements before the place are at the front. -/
def Front (before : Nat → Bool) (l : List Nat) : Prop := l.Pairwise fun a b => before b = true → before a = true

/-- `q` put in its place. -/
def insertAt (before : Nat → Bool) (q : Nat) (l : List Nat) : List Nat :=
  l.filter before ++ q :: l.filter fun a => !before a

theorem Front.filter_eq_nil {a : Nat} (h : Front before (a :: l)) (ha : before a = false) : l.filter before = [] := by
  refine List.filter_eq_nil_iff.mpr fun b hb hbb => ?_
  rw [(List.pairwise_cons.mp h).1 b hb hbb] at ha
  cases ha

theorem Front.split (h : Front before l) : l.filter before ++ l.filter (fun a => !before a) = l := by
  induction l with
  | nil => rfl
  | cons a l ih =>
    cases ha : before a with
    | true => simp [ha, ih (List.pairwise_cons.mp h).2]
    | false =>
      have hnil := h.filter_eq_nil ha
      have := ih (List.pairwise_cons.mp h).2
      rw [hnil, List.nil_append] at this
      simp [ha, hnil, this]

@[simp] theorem mem_insertAt {a : Nat} : a ∈ insertAt before q l ↔ a = q ∨ a ∈ l := by
  simp only [insertAt, List.mem_append, List.mem_filter, List.mem_cons]
  cases before a <;> simp [or_comm]

theorem insertAt_sublist (h : l.Sublist l') : (insertAt before q l).Sublist (insertAt before q l') :=
  (h.filter before).append ((h.filter _).cons_cons q)

theorem Front.sublist_insertAt (h : Front before l') (hs : l.Sublist l') : l.Sublist (insertAt before q l') := by
  rw [← h.split] at hs
  exact hs.trans ((List.Sublist.refl _).append (List.sublist_cons_self ..))

theorem pairwise_insertAt {R : Nat → Nat → Prop} (h : l.Pairwise R) (hf : Front before l)
    (hb : ∀ a ∈ l, before a = true → R a q) (ha : ∀ a ∈ l, before a = false → R q a) :
    (insertAt before q l).Pairwise R := by
  have hs := h
  rw [← hf.split, List.pairwise_append] at hs
  obtain ⟨h₁, h₂, h₃⟩ := hs
  refine List.pairwise_append.mpr ⟨h₁, List.pairwise_cons.mpr ⟨fun a hm => ?_, h₂⟩, fun a hm b hb' => ?_⟩
  · obtain ⟨hm, hn⟩ := List.mem_filter.mp hm
    exact ha a hm (by simpa using hn)
  · rcases List.mem_cons.mp hb' with rfl | hb'
    · obtain ⟨hm, hn⟩ := List.mem_filter.mp hm
      exact hb a hm hn
    · exact h₃ a hm b hb'

end Place

/-! ## Searching -/

section Search

variable {before : Nat → Bool} {next : Nat → Option Nat}

/-- A walk ends at the last element before the place. -/
theorem walk_eq {idx : Option Nat} {R : List Nat} (hc : Chain next idx R) (hf : Front before R) {turns : Nat}
    (ht : R.length < turns) (pred : Option Nat) :
    walk next before turns pred idx = some ((R.filter before).getLast?.or pred) := by
  induction idx, R, turns, hc, ht using Chain.walk generalizing pred with
  | nil turns => simp [walk]
  | cons a R turns hc ht ih =>
    cases ha : before a with
    | true =>
      simp only [walk, ha, if_true, List.filter_cons_of_pos]
      rw [ih (List.pairwise_cons.mp hf).2, List.getLast?_cons]
      cases (R.filter before).getLast? <;> rfl
    | false => simp [walk, ha, hf.filter_eq_nil ha]

variable {L : Nat} {s : Links} {S : Nat → List Nat}

theorem Rep.sublist_zero (h : Rep L s S) {l : Nat} (hl : l < L) : (S l).Sublist (S 0) := by
  induction l with
  | zero => exact List.Sublist.refl _
  | succ l ih => exact (h.sub l hl).trans (ih (by omega))

theorem Rep.front (h : Rep L s S) (hf : Front before (S 0)) {l : Nat} (hl : l < L) : Front before (S l) :=
  List.Pairwise.sublist (h.sublist_zero hl) hf

theorem Rep.preds_below (h : Rep L s S) (hf : Front before (S 0)) {turns : Nat} (ht : (S 0).length < turns) {n : Nat}
    (hn : n ≤ L) {pred : Option Nat} (hp : ∀ p ∈ pred, before p = true ∧ ∀ l, l + 1 = n → p ∈ S l) :
    ∃ f, preds s before turns n pred = some f ∧ ∀ l < n, f l = ((S l).filter before).getLast? := by
  induction n generalizing pred with
  | zero => exact ⟨_, rfl, by omega⟩
  | succ n ih =>
    have hlen := (h.sublist_zero (show n < L by omega)).length_le
    have hfn := h.front hf (show n < L by omega)
    have hc := h.chain n (by omega)
    have hwalk : walk (s.next n) before turns pred (if pred.isSome then pred else s.head n) =
        some ((S n).filter before).getLast? := by
      cases pred with
      | none =>
        rw [if_neg (by simp), walk_eq hc hfn (by omega), Option.or_none]
      | some p =>
        -- the walk starts at `p`, which is in the list of this level
        obtain ⟨hbp, hmem⟩ := hp p rfl
        obtain ⟨A, B, hAB⟩ := List.append_of_mem (hmem n rfl)
        rw [hAB] at hc hfn hlen ⊢
        simp only [List.length_append, List.length_cons] at hlen
        rw [if_pos (by simp), walk_eq (R := p :: B) ⟨rfl, hc.after⟩ (List.Pairwise.sublist (List.sublist_append_right ..) hfn)
          (by simp only [List.length_cons]; omega)]
        simp [List.filter_append, List.filter_cons_of_pos hbp, List.getLast?_append, List.getLast?_cons]
    have hnext : ∀ p ∈ ((S n).filter before).getLast?, before p = true ∧ ∀ l, l + 1 = n → p ∈ S l := by
      intro p hp
      obtain ⟨hm, hb⟩ := List.mem_filter.mp (List.mem_of_getLast? hp)
      exact ⟨hb, fun l hl => (h.sub l (by omega)).subset (hl ▸ hm)⟩
    obtain ⟨f, hf', hfl⟩ := ih (by omega) hnext
    refine ⟨update f n ((S n).filter before).getLast?, ?_, fun l hl => ?_⟩
    · simp only [preds, hwalk, hf', Option.map_some]
    · by_cases hln : l = n
      · rw [hln, update_self]
      · rw [update_of_ne hln, hfl l (by omega)]

/-- The search finds the last elements before the place, on every level. -/
theorem Rep.preds_eq (h : Rep L s S) (hf : Front before (S 0)) {turns : Nat} (ht : (S 0).length < turns) :
    ∃ f, preds s before turns L none = some f ∧ ∀ l < L, f l = ((S l).filter before).getLast? :=
  h.preds_below hf ht (Nat.le_refl L) fun p hp => by cases hp

end Search

/-! ## Linking -/

section Link

variable {pred : Nat → Option Nat} {q level : Nat} {s s' : Links}

theorem linkAt_other {l l' : Nat} (p : Option Nat) (h : l' ≠ l) :
    (linkAt s q l p).next l' = s.next l' ∧ (linkAt s q l p).head l' = s.head l' := by
  cases p <;> simp [linkAt, Links.setNext, Links.setHead, update_of_ne h]

theorem linkLevel_other (pred : Nat → Option Nat) (q level : Nat) (s : Links) {l l' : Nat} (h : l' ≠ l) :
    (linkLevel pred q level s l).next l' = s.next l' ∧ (linkLevel pred q level s l).head l' = s.head l' := by
  unfold linkLevel
  split
  · exact ⟨update_of_ne h .., rfl⟩
  · exact linkAt_other _ h

/-- What a level becomes depends only on what it was. -/
theorem linkLevel_congr (pred : Nat → Option Nat) (q level : Nat) {l : Nat} (hn : s.next l = s'.next l) (hh : s.head l = s'.head l) :
    (linkLevel pred q level s l).next l = (linkLevel pred q level s' l).next l ∧
      (linkLevel pred q level s l).head l = (linkLevel pred q level s' l).head l := by
  unfold linkLevel
  split
  · exact ⟨by simp [Links.setNext, hn], hh⟩
  · cases pred l <;> simp [linkAt, Links.setNext, Links.setHead, hn, hh]

theorem link_level (pred : Nat → Option Nat) (q level n : Nat) (s : Links) :
    (∀ l < n, (link pred q level n s).next l = (linkLevel pred q level s l).next l ∧
      (link pred q level n s).head l = (linkLevel pred q level s l).head l) ∧
    ∀ l, n ≤ l → (link pred q level n s).next l = s.next l ∧ (link pred q level n s).head l = s.head l := by
  induction n generalizing s with
  | zero => exact ⟨by omega, fun _ _ => ⟨rfl, rfl⟩⟩
  | succ n ih =>
    obtain ⟨h₁, h₂⟩ := ih (linkLevel pred q level s n)
    simp only [link]
    refine ⟨fun l hl => ?_, fun l hl => ?_⟩
    · by_cases hln : l = n
      · subst hln
        exact h₂ l (Nat.le_refl l)
      · obtain ⟨e₁, e₂⟩ := linkLevel_other pred q level s hln
        obtain ⟨e₃, e₄⟩ := h₁ l (by omega)
        obtain ⟨e₅, e₆⟩ := linkLevel_congr pred q level e₁ e₂
        exact ⟨e₃.trans e₅, e₄.trans e₆⟩
    · obtain ⟨e₁, e₂⟩ := linkLevel_other pred q level s (show l ≠ n by omega)
      obtain ⟨e₃, e₄⟩ := h₂ l (by omega)
      exact ⟨e₃.trans e₁, e₄.trans e₂⟩

theorem linkAt_chain {before : Nat → Bool} {l : Nat} {R : List Nat} (hc : Chain (s.next l) (s.head l) R)
    (hf : Front before R) (hq : q ∉ R) :
    Chain ((linkAt s q l (R.filter before).getLast?).next l) ((linkAt s q l (R.filter before).getLast?).head l)
      (insertAt before q R) := by
  rw [insertAt]
  rcases List.eq_nil_or_concat (R.filter before) with h | ⟨F, p, h⟩
  · have hR : R.filter (fun a => !before a) = R := by
      have := hf.split
      rwa [h, List.nil_append] at this
    rw [h, hR]
    simp only [List.getLast?_nil, linkAt, Links.setNext, Links.setHead, update_self, List.nil_append]
    exact hc.push hq
  · rw [List.concat_eq_append] at h
    have hR : F ++ p :: R.filter (fun a => !before a) = R := by
      have := hf.split
      rwa [h, List.append_assoc, List.singleton_append] at this
    rw [h, List.getLast?_concat]
    simp only [linkAt, Links.setNext, update_self, List.append_assoc, List.singleton_append]
    rw [← hR] at hc hq
    exact hc.insert_after hq

variable {L : Nat} {S : Nat → List Nat} {before : Nat → Bool}

theorem Rep.link (h : Rep L s S) (hf : Front before (S 0)) (hq : q ∉ S 0)
    (hp : ∀ l < L, pred l = ((S l).filter before).getLast?) :
    Rep L (SkipList.link pred q level L s) fun l => if level < l then S l else insertAt before q (S l) := by
  have hql : ∀ l < L, q ∉ S l := fun l hl hm => hq ((h.sublist_zero hl).subset hm)
  refine ⟨fun l hl => ?_, fun l hl => ?_⟩
  · obtain ⟨e₁, e₂⟩ := (link_level pred q level L s).1 l hl
    rw [e₁, e₂]
    unfold linkLevel
    split
    · simp only [Links.setNext, update_self]
      exact (h.chain l hl).congr fun c hc => update_of_ne (ne_of_mem_of_not_mem hc (hql l hl)) ..
    · rw [hp l hl]
      exact linkAt_chain (h.chain l hl) (h.front hf hl) (hql l hl)
  · have hs := h.sub l hl
    split
    · split
      · exact hs
      · exact (h.front hf (by omega)).sublist_insertAt hs
    · rw [if_neg (by omega)]
      exact insertAt_sublist hs

theorem link_next_of_not_mem (h : Rep L s S) (hp : ∀ l < L, pred l = ((S l).filter before).getLast?) {i l : Nat}
    (hi : i ∉ S 0) (hiq : i ≠ q) : (SkipList.link pred q level L s).next l i = s.next l i := by
  by_cases hl : l < L
  · rw [((link_level pred q level L s).1 l hl).1]
    unfold linkLevel
    split
    · simp [Links.setNext, update_of_ne hiq]
    · rw [hp l hl]
      cases hlast : ((S l).filter before).getLast? with
      | none => simp [linkAt, Links.setNext, Links.setHead, update_of_ne hiq]
      | some p =>
        have hip : i ≠ p := by
          rintro rfl
          exact hi ((h.sublist_zero hl).subset (List.mem_of_mem_filter (List.mem_of_getLast? hlast)))
        simp [linkAt, Links.setNext, update_of_ne hiq, update_of_ne hip]
  · rw [((link_level pred q level L s).2 l (by omega)).1]

end Link

/-! ## Taking the first element out -/

section Unlink

variable {q : Nat} {s : Links}

theorem unlink_next (n l : Nat) : (unlink q n l s).next = s.next := by
  induction n generalizing l s with
  | zero => rfl
  | succ n ih =>
    unfold unlink
    split
    · rw [ih]
      rfl
    · rfl

theorem unlink_head {n l : Nat} (hq : ∀ k, l ≤ k → k + 1 < l + n → s.head (k + 1) = some q → s.head k = some q)
    (k : Nat) : (unlink q n l s).head k =
      if l ≤ k ∧ k < l + n ∧ s.head k = some q then s.next k q else s.head k := by
  induction n generalizing l s with
  | zero => rw [if_neg (by omega)]; rfl
  | succ n ih =>
    unfold unlink
    split
    · rename_i hl
      rw [ih fun k' h₁ h₂ => by
        simp only [Links.setHead, update_of_ne (show k' + 1 ≠ l by omega), update_of_ne (show k' ≠ l by omega)]
        exact hq k' (by omega) (by omega)]
      by_cases hk : k = l
      · subst hk
        rw [if_neg (by omega), if_pos ⟨Nat.le_refl k, by omega, hl⟩]
        simp [Links.setHead]
      · simp only [Links.setHead, update_of_ne hk]
        congr 1
        simp only [eq_iff_iff]
        constructor <;> rintro ⟨h₁, h₂, h₃⟩ <;> exact ⟨by omega, by omega, h₃⟩
    · rename_i hl
      -- no level above starts with `q` either
      have hup : ∀ j, j < n + 1 → s.head (l + j) ≠ some q := by
        intro j hj
        induction j with
        | zero => exact hl
        | succ j ihj => exact fun h => ihj (by omega) (hq (l + j) (by omega) (by omega) h)
      rw [if_neg]
      rintro ⟨h₁, h₂, h₃⟩
      exact hup (k - l) (by omega) (by rwa [Nat.add_sub_cancel' h₁])

variable {L : Nat} {S : Nat → List Nat} {T : List Nat}

theorem Rep.head_cases (h : Rep L s S) (hS : S 0 = q :: T) {l : Nat} (hl : l < L) :
    (s.head l = some q ∧ ∃ R, S l = q :: R ∧ q ∉ R) ∨ (s.head l ≠ some q ∧ q ∉ S l) := by
  have hT : q ∉ T := by
    have hnd := (h.chain 0 (by omega)).nodup
    rw [hS] at hnd
    exact (List.nodup_cons.mp hnd).1
  have hsub := h.sublist_zero hl
  have hc := h.chain l hl
  rw [hS, List.sublist_cons_iff] at hsub
  rcases hsub with hsub | ⟨R, hR, hsub⟩
  · have hq : q ∉ S l := fun hm => hT (hsub.subset hm)
    refine .inr ⟨fun hh => ?_, hq⟩
    cases hSl : S l with
    | nil => simp [hSl, hh] at hc
    | cons a R =>
      rw [hSl, chain_cons, hh, Option.some.injEq] at hc
      exact hq (by simp [hSl, hc.1])
  · rw [hR] at hc
    exact .inl ⟨hc.1, R, hR, fun hm => hT (hsub.subset hm)⟩

theorem Rep.unlink (h : Rep L s S) (hS : S 0 = q :: T) :
    Rep L (SkipList.unlink q L 0 s) fun l => (S l).filter (· != q) := by
  have hhead := unlink_head (n := L) (l := 0) (s := s) (q := q) fun k _ hk hh => by
    rcases h.head_cases hS (show k + 1 < L by omega) with ⟨-, R, hR, -⟩ | ⟨hne, -⟩
    · rcases h.head_cases hS (show k < L by omega) with ⟨hk, -⟩ | ⟨-, hnot⟩
      · exact hk
      · exact absurd ((h.sub k (by omega)).subset (hR ▸ List.mem_cons_self ..)) hnot
    · exact absurd hh hne
  have hfilter : ∀ R : List Nat, q ∉ R → R.filter (· != q) = R := fun R hR =>
    List.filter_eq_self.mpr fun a ha => by simpa using ne_of_mem_of_not_mem ha hR
  refine ⟨fun l hl => ?_, fun l hl => (h.sub l hl).filter _⟩
  rw [unlink_next, hhead l]
  have hc := h.chain l hl
  rcases h.head_cases hS hl with ⟨hh, R, hR, hq⟩ | ⟨hh, hq⟩
  · rw [if_pos ⟨Nat.zero_le _, by omega, hh⟩, hR, List.filter_cons_of_neg (by simp), hfilter R hq]
    rw [hR] at hc
    exact hc.2
  · rw [if_neg fun h' => hh h'.2.2, hfilter _ hq]
    exact hc

end Unlink

end SkipList
