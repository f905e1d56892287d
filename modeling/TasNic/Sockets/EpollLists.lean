import TasNic.Sockets.Epoll
import TasNic.Lib.DLists

/-!
# The lists of epolls

`EpLinks.Lists l L place`: the active list of epoll `e` is `L (e, true)` and its
inactive list `L (e, false)`, and registration `r` is on the list `place r`. Each
list operation of the code is described once by what it does to `L` and `place`.
-/

namespace TasNic.Sockets

open Function IdxList List Finset

/-- The first registration of a list: `(e, true)` is the active list of epoll `e`. -/
def EpLinks.first (l : EpLinks) (i : Nat × Bool) : Option Nat := if i.2 then l.activeFirst i.1 else l.inactive i.1

/-- The lists of the epolls are `L`. -/
structure EpLinks.Lists (l : EpLinks) (L : Nat × Bool → List Nat) (place : Nat → Option (Nat × Bool)) : Prop where
  family : DFamily l.next l.prev l.first L place
  last : ∀ e, l.activeLast e = (L (e, true)).getLast?
  num : ∀ e, l.numActive e = (L (e, true)).length

namespace EpLinks

variable {l : EpLinks} {L : Nat × Bool → List Nat} {place : Nat → Option (Nat × Bool)} {e r : Nat}

theorem first_inactive (l : EpLinks) (e : Nat) (o : Option Nat) :
    EpLinks.first { l with inactive := update l.inactive e o } = update l.first (e, false) o := by
  refine eq_update_iff.mpr ⟨update_self .., fun i hi => ?_⟩
  obtain ⟨d, b⟩ := i
  cases b with
  | true => rfl
  | false => exact update_of_ne (fun hd : d = e => hi (by rw [hd])) ..

theorem first_active (l : EpLinks) (e : Nat) (o : Option Nat) :
    EpLinks.first { l with activeFirst := update l.activeFirst e o } = update l.first (e, true) o := by
  refine eq_update_iff.mpr ⟨update_self .., fun i hi => ?_⟩
  obtain ⟨d, b⟩ := i
  cases b with
  | false => rfl
  | true => exact update_of_ne (fun hd : d = e => hi (by rw [hd])) ..

theorem esRemoveInactive_eq (e : Nat) (hne : l.prev r ≠ some r) : l.esRemoveInactive e r = { l with
    next := match l.prev r with | none => l.next | some p => update l.next p (l.next r)
    prev := match l.next r with | none => l.prev | some n => update l.prev n (l.prev r)
    inactive := match l.prev r with | none => update l.inactive e (l.next r) | some _ => l.inactive } := by
  cases hp : l.prev r with
  | none => cases hn : l.next r <;> simp [esRemoveInactive, hp, hn]
  | some p =>
    have hrp : r ≠ p := fun e => hne (e ▸ hp)
    cases hn : l.next r <;> simp [esRemoveInactive, hp, hn, update_of_ne hrp]

theorem esRemoveActive_eq (hne : l.prev r ≠ some r) (hnum : l.numActive e ≠ 0) : l.esRemoveActive e r = some { l with
    next := match l.prev r with | none => l.next | some p => update l.next p (l.next r)
    prev := match l.next r with | none => l.prev | some n => update l.prev n (l.prev r)
    activeFirst := match l.prev r with | none => update l.activeFirst e (l.next r) | some _ => l.activeFirst
    activeLast := match l.next r with | none => update l.activeLast e (l.prev r) | some _ => l.activeLast
    numActive := update l.numActive e (l.numActive e - 1) } := by
  rw [esRemoveActive, if_neg hnum]
  cases hp : l.prev r with
  | none => cases hn : l.next r <;> simp [hp, hn]
  | some p =>
    have hrp : r ≠ p := fun e => hne (e ▸ hp)
    cases hn : l.next r <;> simp [hp, hn, update_of_ne hrp]

variable (h : l.Lists L place)

include h

theorem Lists.removeInactive (hr : place r = some (e, false)) :
    (l.esRemoveInactive e r).Lists (update L (e, false) ((L (e, false)).erase r)) (update place r none) := by
  have htrue : ∀ d, update L (e, false) ((L (e, false)).erase r) (d, true) = L (d, true) := fun d => update_of_ne (by simp) ..
  rw [esRemoveInactive_eq e (h.family.prev_ne hr)]
  refine ⟨(h.family.remove hr).congr rfl rfl (fun i => ?_) rfl fun _ => rfl, fun d => ?_, fun d => ?_⟩
  · cases l.prev r with
    | none => exact congrFun (first_inactive l e (l.next r)) i
    | some p => rfl
  · rw [htrue]
    exact h.last d
  · rw [htrue]
    exact h.num d

theorem Lists.removeActive (hr : place r = some (e, true)) : ∃ l', l.esRemoveActive e r = some l' ∧
    l'.Lists (update L (e, true) ((L (e, true)).erase r)) (update place r none) := by
  have hmem := (h.family.mem r (e, true)).mpr hr
  have hnum : l.numActive e ≠ 0 := by
    rw [h.num]
    exact fun h0 => not_mem_nil (length_eq_zero_iff.mp h0 ▸ hmem)
  obtain ⟨l₁, l₂, hL, herase, hp, hn⟩ := h.family.split hr
  refine ⟨_, esRemoveActive_eq (h.family.prev_ne hr) hnum, (h.family.remove hr).congr rfl rfl (fun i => ?_) rfl fun _ => rfl,
    fun d => ?_, fun d => ?_⟩
  · cases l.prev r with
    | none => exact congrFun (first_active l e (l.next r)) i
    | some p => rfl
  · by_cases hd : d = e
    · subst hd
      rw [update_self, herase, DFamily.getLast?_remove (c := r), ← hn, ← hp, ← hL, ← h.last d]
      cases l.next r with
      | none => exact update_self ..
      | some n => rfl
    · rw [update_of_ne (by simp [hd]), ← h.last d]
      cases l.next r with
      | none => exact update_of_ne hd ..
      | some n => rfl
  · by_cases hd : d = e
    · subst hd
      simp [h.num d, length_erase_of_mem hmem]
    · rw [update_of_ne (by simp [hd]), ← h.num d]
      exact update_of_ne hd ..

theorem Lists.addInactive (hr : place r = none) (e : Nat) :
    (l.esAddInactive e r).Lists (update L (e, false) (r :: L (e, false))) (update place r (some (e, false))) := by
  have htrue : ∀ d, update L (e, false) (r :: L (e, false)) (d, true) = L (d, true) := fun d => update_of_ne (by simp) ..
  have hpush := h.family.pushFront hr (e, false)
  have hfirst : l.first (e, false) = l.inactive e := rfl
  rw [hfirst] at hpush
  refine ⟨?_, fun d => ?_, fun d => ?_⟩
  · simp only [esAddInactive]
    cases hi : l.inactive e with
    | none =>
      rw [hi] at hpush
      exact hpush.congr rfl rfl (fun i => congrFun (first_inactive l e (some r)) i) rfl fun _ => rfl
    | some n =>
      rw [hi] at hpush
      exact hpush.congr rfl rfl (fun i => congrFun (first_inactive l e (some r)) i) rfl fun _ => rfl
  · rw [htrue, ← h.last d, esAddInactive]
    cases l.inactive e <;> rfl
  · rw [htrue, ← h.num d, esAddInactive]
    cases l.inactive e <;> rfl

theorem Lists.addActive (hr : place r = none) (e : Nat) :
    (l.esAddActive e r).Lists (update L (e, true) (L (e, true) ++ [r])) (update place r (some (e, true))) := by
  have hpush := h.family.pushBack hr (e, true)
  rw [← h.last e] at hpush
  refine ⟨?_, fun d => ?_, fun d => ?_⟩
  · simp only [esAddActive]
    cases hi : l.activeLast e with
    | none =>
      rw [hi] at hpush
      exact hpush.congr rfl rfl (fun i => congrFun (first_active l e (some r)) i) rfl fun _ => rfl
    | some n =>
      rw [hi] at hpush
      exact hpush.congr rfl rfl (fun i => rfl) rfl fun _ => rfl
  · have hlast : (l.esAddActive e r).activeLast = update l.activeLast e (some r) := by
      rw [esAddActive]
      cases l.activeLast e <;> rfl
    rw [hlast]
    by_cases hd : d = e
    · subst hd
      rw [update_self, update_self, getLast?_concat]
    · rw [update_of_ne hd, update_of_ne (by simp [hd]), h.last d]
  · have hnum : (l.esAddActive e r).numActive = update l.numActive e (l.numActive e + 1) := by
      rw [esAddActive]
      cases l.activeLast e <;> rfl
    rw [hnum]
    by_cases hd : d = e
    · subst hd
      rw [update_self, update_self, length_append, length_singleton, h.num d]
    · rw [update_of_ne hd, update_of_ne (by simp [hd]), h.num d]

theorem Lists.removeEp {b : Bool} (hr : place r = some (e, b)) :
    ∃ l', (if b then l.esRemoveActive e r else some (l.esRemoveInactive e r)) = some l' ∧
      l'.Lists (update L (e, b) ((L (e, b)).erase r)) (update place r none) := by
  cases b with
  | true => exact h.removeActive hr
  | false => exact ⟨_, rfl, h.removeInactive hr⟩

theorem Lists.congr {place' : Nat → Option (Nat × Bool)} (hp : ∀ r, place' r = place r) :
    l.Lists L place' :=
  ⟨h.family.congr rfl rfl (fun _ => rfl) rfl hp, h.last, h.num⟩

end EpLinks

/-! ## The lists of the sockets -/

namespace SoLinks

variable {l : SoLinks} {S : Nat → List Nat} {place : Nat → Option Nat} {s r : Nat}

theorem remove_family (h : DFamily l.next l.prev l.eps S place) (hr : place r = some s) :
    DFamily (l.remove s r).next (l.remove s r).prev (l.remove s r).eps (update S s ((S s).erase r)) (update place r none) := by
  have hne := h.prev_ne hr
  have hrem := h.remove hr
  cases hp : l.prev r with
  | none => cases hn : l.next r <;> simpa only [remove, hp, hn] using hrem
  | some p =>
    have hrp : r ≠ p := fun e => hne (e ▸ hp)
    cases hn : l.next r <;> simpa only [remove, hp, hn, update_of_ne hrp] using hrem

theorem add_family (h : DFamily l.next l.prev l.eps S place) (hr : place r = none) (s : Nat) :
    DFamily (l.add s r).next (l.add s r).prev (l.add s r).eps (update S s (r :: S s)) (update place r (some s)) := by
  have hpush := h.pushFront hr s
  cases hs : l.eps s <;> simpa only [add, hs] using hpush

end SoLinks

/-! ## The order of the active lists -/

/-- No more elements are before `r` on `l'` than on `l`. -/
def Ahead (r : Nat) (l l' : List Nat) : Prop :=
  ∀ a b, l = a ++ r :: b → ∃ a' b', l' = a' ++ r :: b' ∧ a'.length ≤ a.length

namespace Ahead

variable {r x : Nat} {l l₁ l₂ : List Nat}

theorem refl (r : Nat) (l : List Nat) : Ahead r l l := fun a b e => ⟨a, b, e, Nat.le_refl _⟩

theorem trans (h : Ahead r l l₁) (h' : Ahead r l₁ l₂) : Ahead r l l₂ := by
  intro a b e
  obtain ⟨a₁, b₁, e₁, hl₁⟩ := h a b e
  obtain ⟨a₂, b₂, e₂, hl₂⟩ := h' a₁ b₁ e₁
  exact ⟨a₂, b₂, e₂, hl₂.trans hl₁⟩

theorem append (r : Nat) (l c : List Nat) : Ahead r l (l ++ c) := fun a b e =>
  ⟨a, b ++ c, by rw [e, append_assoc, cons_append], Nat.le_refl _⟩

theorem erase (h : r ≠ x) (l : List Nat) : Ahead r l (l.erase x) := by
  intro a b e
  subst e
  by_cases hx : x ∈ a
  · exact ⟨a.erase x, b, erase_append_left _ hx, length_erase_le⟩
  · exact ⟨a, b.erase x, by rw [erase_append_right _ hx, erase_cons_tail (by simpa using h)], Nat.le_refl _⟩

end Ahead

/-! ## The registrations -/

namespace EpollMem

def epPlace (m : EpollMem) (r : Nat) : Option (Nat × Bool) := if m.used r then some (m.ep r, m.active r) else none

def soPlace (m : EpollMem) (r : Nat) : Option Nat := if m.used r then some (m.sock r) else none

/-- The active and inactive lists are `L` and the lists of the sockets `S`. Only registrations
in `pend` may be ready and not active. -/
structure Inv (m : EpollMem) (L : Nat × Bool → List Nat) (S : Nat → List Nat) (pend : List Nat) : Prop where
  eps : m.epl.Lists L m.epPlace
  socks : DFamily m.sol.next m.sol.prev m.sol.eps S m.soPlace
  ready : ∀ r, m.used r = true → m.ready r ≠ 0 → m.active r = true ∨ r ∈ pend
  block : ∀ r, m.used r = true → r < m.blocks
  live : ∀ r, m.used r = true → m.sockets (m.sock r) = true ∧ m.epolls (m.ep r) = true

/-- On the active lists nothing gets behind more than it was. -/
def Kept (m : EpollMem) (L L' : Nat × Bool → List Nat) : Prop :=
  ∀ e r, m.used r = true → Ahead r (L (e, true)) (L' (e, true))

theorem Kept.refl (m : EpollMem) (L : Nat × Bool → List Nat) : m.Kept L L := fun _ _ _ => Ahead.refl _ _

variable {m m' : EpollMem} {L L' : Nat × Bool → List Nat} {S : Nat → List Nat} {pend : List Nat} {e s r : Nat}

theorem epPlace_used (h : m.used r = true) : m.epPlace r = some (m.ep r, m.active r) := if_pos h

theorem soPlace_used (h : m.used r = true) : m.soPlace r = some (m.sock r) := if_pos h

theorem epPlace_some {i : Nat × Bool} : m.epPlace r = some i ↔ m.used r = true ∧ m.ep r = i.1 ∧ m.active r = i.2 := by
  rw [epPlace]
  split_ifs with h <;> simp [h, Prod.ext_iff]

theorem soPlace_some : m.soPlace r = some s ↔ m.used r = true ∧ m.sock r = s := by
  rw [soPlace]
  split_ifs with h <;> simp [h]

theorem Inv.mem_active (h : m.Inv L S pend) : r ∈ L (e, true) ↔ m.used r = true ∧ m.ep r = e ∧ m.active r = true := by
  rw [h.eps.family.mem, epPlace_some]

theorem Inv.mem_sock (h : m.Inv L S pend) : r ∈ S s ↔ m.used r = true ∧ m.sock r = s := by
  rw [h.socks.mem, soPlace_some]

theorem init_inv (blocks : Nat) : (EpollMem.init blocks).Inv (fun _ => []) (fun _ => []) [] where
  eps := by
    refine ⟨⟨fun i => ?_, fun c i => by simp [epPlace, init]⟩, fun _ => rfl, fun _ => rfl⟩
    obtain ⟨e, b⟩ := i
    cases b <;> exact ⟨rfl, rfl⟩
  socks := ⟨fun _ => ⟨rfl, rfl⟩, fun c i => by simp [soPlace, init]⟩
  ready r hr := by cases hr
  block r hr := by cases hr
  live r hr := by cases hr

theorem Kept.trans {m₁ m₂ : EpollMem} {L₁ L₂ : Nat × Bool → List Nat} (h : m₁.Kept L L₁) (h' : m₂.Kept L₁ L₂)
    (hu : ∀ r, m₂.used r = true → m₁.used r = true) : m₂.Kept L L₂ :=
  fun e r hr => (h e r (hu r hr)).trans (h' e r hr)

theorem Inv.move_active (h : m.Inv L S (r :: pend)) (hr : m.used r = true) (ha : m.active r = false) :
    ∃ L', (m.esActivate r).Inv L' S pend ∧ (m.esActivate r).Kept L L' := by
  have hp := epPlace_used hr
  rw [ha] at hp
  have hl := (h.eps.removeInactive hp).addActive (update_self ..) (m.ep r)
  rw [esActivate, if_neg (by simp [ha])]
  refine ⟨_, ⟨hl.congr fun x => ?_, h.socks, fun x hx hrdy => ?_, h.block, h.live⟩, fun d x _ => ?_⟩
  · by_cases hx : x = r
    · subst hx
      simp [epPlace, hr]
    · simp [epPlace, update_of_ne hx]
  · dsimp only
    by_cases hxr : x = r
    · subst hxr
      exact .inl (update_self ..)
    · rw [update_of_ne hxr]
      exact (h.ready x hx hrdy).imp_right fun hm => (mem_cons.mp hm).resolve_left hxr
  · by_cases hd : d = m.ep r
    · subst hd
      rw [update_self, update_of_ne (by simp)]
      exact Ahead.append _ _ _
    · rw [update_of_ne (by simp [hd]), update_of_ne (by simp)]
      exact Ahead.refl _ _

/-- `es_activate`: the registration need not wait any longer. -/
theorem Inv.esActivate (h : m.Inv L S (r :: pend)) (hr : m.used r = true) :
    ∃ L', (m.esActivate r).Inv L' S pend ∧ (m.esActivate r).Kept L L' := by
  cases ha : m.active r with
  | false => exact h.move_active hr ha
  | true =>
    rw [EpollMem.esActivate, if_pos ha]
    refine ⟨L, { h with ready := fun x hx hrdy => ?_ }, Kept.refl _ _⟩
    rcases h.ready x hx hrdy with hx | hm
    · exact .inl hx
    · rcases mem_cons.mp hm with rfl | hm
      · exact .inl ha
      · exact .inr hm

theorem Inv.drop (h : m.Inv L S (r :: pend)) (hr : m.used r = true → m.ready r = 0) : m.Inv L S pend :=
  { h with
    ready := fun x hx hrdy => (h.ready x hx hrdy).imp_right fun hm =>
      (mem_cons.mp hm).resolve_left fun e => hrdy (e ▸ hr (e ▸ hx)) }

theorem Inv.activate_ready (h : m.Inv L S [r]) (hr : m.used r = true) :
    ∃ L', (if m.ready r = 0 then m else m.esActivate r).Inv L' S [] ∧
      (if m.ready r = 0 then m else m.esActivate r).Kept L L' := by
  split_ifs with h0
  · exact ⟨L, h.drop fun _ => h0, Kept.refl _ _⟩
  · exact h.esActivate hr

/-! ## Removing registrations -/

theorem esRemove_eq (m : EpollMem) (r : Nat) : m.esRemove r =
    (if m.active r then m.epl.esRemoveActive (m.ep r) r else some (m.epl.esRemoveInactive (m.ep r) r)).map fun l =>
      { m with epl := l, sol := m.sol.remove (m.sock r) r, used := update m.used r false } := by
  cases ha : m.active r with
  | true => simp [esRemove, esRemoveSock, esRemoveEp, ha, Function.comp_def]
  | false => simp [esRemove, esRemoveSock, esRemoveEp, ha]

/-- Nothing but the links changes, and registrations on the epolls `P` are freed. -/
structure Freed (P : Nat → Prop) (m m' : EpollMem) : Prop where
  eq : m' = { m with epl := m'.epl, sol := m'.sol, used := m'.used }
  used : ∀ r, m'.used r = true → m.used r = true
  others : ∀ r, ¬ P (m.ep r) → m'.used r = m.used r

theorem Freed.refl (P : Nat → Prop) (m : EpollMem) : Freed P m m := ⟨rfl, fun _ h => h, fun _ _ => rfl⟩

theorem Freed.trans {P : Nat → Prop} {m₁ m₂ : EpollMem} (h : Freed P m m₁) (h' : Freed P m₁ m₂) : Freed P m m₂ := by
  refine ⟨?_, fun r hr => h.used r (h'.used r hr), fun r hr => ?_⟩
  · rw [h'.eq, h.eq]
  · exact (h'.others r (by rwa [h.eq])).trans (h.others r hr)

def numUsed (m : EpollMem) : Nat := ((Finset.range m.blocks).filter fun r => m.used r = true).card

theorem numUsed_le (m : EpollMem) : m.numUsed ≤ m.blocks :=
  (card_filter_le ..).trans (card_range _).le

theorem Inv.esRemove (h : m.Inv L S []) (hr : m.used r = true) : ∃ m' L' S', m.esRemove r = some m' ∧ m'.Inv L' S' [] ∧
    (∀ P, P (m.ep r) → Freed P m m') ∧ m'.Kept L L' ∧ m'.numUsed < m.numUsed := by
  obtain ⟨l, hl, hlists⟩ := h.eps.removeEp (epPlace_used hr)
  have hused : ∀ x, update m.used r false x = true → x ≠ r ∧ m.used x = true := by
    intro x hx
    by_cases hxr : x = r
    · rw [hxr, update_self] at hx
      cases hx
    · exact ⟨hxr, by rwa [update_of_ne hxr] at hx⟩
  have hsocks := SoLinks.remove_family h.socks (soPlace_used hr)
  have hrem : m.esRemove r = some { m with epl := l, sol := m.sol.remove (m.sock r) r, used := update m.used r false } := by
    rewrite [esRemove_eq, hl]
    rfl
  refine ⟨_, _, _, hrem, ⟨hlists.congr fun x => ?_,
    hsocks.congr rfl rfl (fun _ => rfl) rfl fun x => ?_, fun x hx => h.ready x (hused x hx).2,
    fun x hx => h.block x (hused x hx).2, fun x hx => h.live x (hused x hx).2⟩,
    fun P hP => ⟨rfl, fun x hx => (hused x hx).2, fun x hx => update_of_ne (by rintro rfl; exact hx hP) ..⟩, fun d x hx => ?_, ?_⟩
  · by_cases hx : x = r
    · subst hx
      simp [epPlace]
    · simp [epPlace, update_of_ne hx]
  · by_cases hx : x = r
    · subst hx
      simp [soPlace]
    · simp [soPlace, update_of_ne hx]
  · by_cases hd : (d, true) = (m.ep r, m.active r)
    · rw [← hd, update_self]
      exact Ahead.erase (hused x hx).1 _
    · rw [update_of_ne hd]
      exact Ahead.refl _ _
  · refine card_lt_card ((ssubset_iff_of_subset fun x hx => ?_).mpr ⟨r, ?_, ?_⟩)
    · rw [Finset.mem_filter] at hx ⊢
      exact ⟨hx.1, (hused x hx.2).2⟩
    · exact Finset.mem_filter.mpr ⟨Finset.mem_range.mpr (h.block r hr), hr⟩
    · intro hm
      exact (hused r (Finset.mem_filter.mp hm).2).1 rfl

/-- The loop ends, since every turn frees a registration. -/
theorem Inv.removeAll {first : EpollMem → Option Nat} {P : Nat → Prop}
    (hfirst : ∀ m L S, Inv m L S [] → ∀ r, first m = some r → m.used r = true ∧ P (m.ep r)) (turns : Nat) (h : m.Inv L S [])
    (ht : m.numUsed < turns) : ∃ m' L' S', removeAll first turns m = some m' ∧ m'.Inv L' S' [] ∧ Freed P m m' ∧
      m'.Kept L L' ∧ first m' = none := by
  induction turns generalizing m L S with
  | zero => exact absurd ht (Nat.not_lt_zero _)
  | succ turns ih =>
    cases hf : first m with
    | none => exact ⟨m, L, S, by rw [EpollMem.removeAll, hf], h, Freed.refl P m, Kept.refl _ _, hf⟩
    | some r =>
      obtain ⟨hu, hP⟩ := hfirst m L S h r hf
      obtain ⟨m₁, L₁, S₁, h₁, hinv₁, hfreed₁, hkept₁, hlt⟩ := h.esRemove hu
      obtain ⟨m', L', S', h', hinv', hfreed', hkept', hnone⟩ := ih hinv₁ (by omega)
      refine ⟨m', L', S', ?_, hinv', (hfreed₁ P hP).trans hfreed', hkept₁.trans hkept' hfreed'.used, hnone⟩
      rw [EpollMem.removeAll, hf]
      dsimp only
      rw [h₁]
      exact h'

end EpollMem

end TasNic.Sockets
