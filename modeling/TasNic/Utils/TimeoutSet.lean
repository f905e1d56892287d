import TasNic.Utils.TimeoutOrder

/-!
# The set of timeouts that are armed

For a caller that does not depend on when its timeouts fire, the timeout manager is a
set of timeouts with types (`Keeps`). Whatever the time stamps are, every call ends and
changes the set as its name says: `Keeps.arm`, `Keeps.disarm`, `Keeps.moveDueTimeouts`
for the start of a poll, and `Keeps.pop` for a timeout that a poll takes.
-/

namespace TasNic.TimeoutManager

open Function IdxList List

def typeOf (m : TimeoutManager) (t : Nat) : BitVec 8 := ((m.timeouts t).timeoutType >>> timeoutBits).setWidth 8

/-- The timeouts that are armed are those of `S`, with their types. -/
structure Keeps (m : TimeoutManager) (S : Nat → Option (BitVec 8)) : Prop where
  lists : ∃ D W, Lists m D W ∧ ∀ t, t ∈ D ++ W ↔ S t ≠ none
  type : ∀ t type, S t = some type → m.typeOf t = type &&& 15

namespace Keeps

variable {m : TimeoutManager} {S : Nat → Option (BitVec 8)} {t turns : Nat}

theorem init (timeouts : Nat → Timeout) : (utilTimeoutInit timeouts).Keeps fun _ => none where
  lists := ⟨[], [], ⟨⟨rfl, rfl⟩, ⟨rfl, rfl⟩, disjoint_nil_left _⟩, by simp⟩
  type := by simp

/-- A bound on the turns of a walk along all timeouts. -/
def Fits (S : Nat → Option (BitVec 8)) (turns : Nat) : Prop :=
  ∀ l : List Nat, l.Nodup → (∀ t ∈ l, S t ≠ none) → l.length < turns

theorem Fits.erase (hf : Fits S turns) (t : Nat) : Fits (update S t none) turns := fun l hl hle =>
  hf l hl fun x hx => by
    have hxt : x ≠ t := fun e => hle x hx (by simp [e])
    simpa [hxt] using hle x hx

theorem waiting_lt {D W : List Nat} (hl : Lists m D W) (hmem : ∀ t, t ∈ D ++ W ↔ S t ≠ none) (hf : Fits S turns) :
    W.length < turns :=
  hf W hl.waiting.nodup fun t ht => (hmem t).mp (mem_append_right _ ht)

theorem moveDueTimeouts (h : m.Keeps S) (hf : Fits S turns) (c : BitVec 32) :
    ∃ m', TimeoutManager.moveDueTimeouts c turns m = some m' ∧ m'.Keeps S := by
  obtain ⟨D, W, hl, hmem⟩ := h.lists
  obtain ⟨m', W₁, W₂, hm', rfl, hl', htype, -, -⟩ := @moveDueTimeouts_lists m D W turns c hl (waiting_lt hl hmem hf)
  refine ⟨m', hm', ⟨D ++ W₁, W₂, hl', fun t => ?_⟩, fun t ty ht => ?_⟩
  · rw [← hmem, append_assoc]
  · rw [typeOf, htype]
    exact h.type t ty ht

theorem word_type (type : BitVec 8) (x : BitVec 32) :
    (((type.setWidth 32) <<< timeoutBits ||| (x &&& timeoutMask)) >>> timeoutBits).setWidth 8 = type &&& 15 := by
  have h := Armed.word_type ⟨0, x.toNat, type, 0⟩
  rwa [Armed.word, BitVec.ofNat_toNat, BitVec.setWidth_eq] at h

theorem arm (h : m.Keeps S) (hf : Fits S turns) (ht : S t = none) {us : BitVec 32} (hus : us < 0x8000000)
    (type : BitVec 8) (ts : BitVec 32) :
    ∃ m', m.utilTimeoutArmTs t us type ts turns = some m' ∧ m'.Keeps (update S t (some type)) := by
  obtain ⟨m₁, hm₁, h⟩ := h.moveDueTimeouts hf (ts &&& timeoutMask)
  obtain ⟨D, W, hl, hmem⟩ := h.lists
  obtain ⟨V₁, V₂, hm', rfl, -⟩ := utilTimeoutArmTs_lists hm₁ hl (waiting_lt hl hmem hf) hus t type
  have htn : t ∉ D ++ (V₁ ++ V₂) := fun hmem' => (hmem t).mp hmem' ht
  rw [mem_append, not_or] at htn
  refine ⟨_, hm', ⟨_, _, armInsert_lists hl htn.1 htn.2 _, fun x => ?_⟩, fun x ty hx => ?_⟩
  · by_cases hxt : x = t
    · simp [hxt]
    · rw [update_of_ne hxt, ← hmem]
      simp [hxt]
  · rw [typeOf, armInsert_type]
    by_cases hxt : x = t
    · subst hxt
      rw [update_self] at hx
      cases hx
      rw [if_pos rfl]
      exact word_type ..
    · rw [update_of_ne hxt] at hx
      rw [if_neg hxt]
      exact h.type x ty hx

theorem erase {m' : TimeoutManager} {E F : List Nat} (h : m.Keeps S) (hmem : ∀ x, x ∈ E ++ t :: F ↔ S x ≠ none)
    (hnd : (E ++ t :: F).Nodup) {D W : List Nat} (hl : Lists m' D W) (hDW : D ++ W = E ++ F)
    (htype : ∀ x, (m'.timeouts x).timeoutType = (m.timeouts x).timeoutType) : m'.Keeps (update S t none) where
  lists := by
    refine ⟨D, W, hl, fun x => ?_⟩
    have ht : t ∉ E ++ F := (nodup_cons.mp (nodup_middle.mp hnd)).1
    rw [hDW]
    by_cases hx : x = t
    · subst hx
      simp [ht]
    · rw [update_of_ne hx, ← hmem]
      simp [hx]
  type x ty hx := by
    have hne : x ≠ t := fun e => by simp [e] at hx
    rw [update_of_ne hne] at hx
    rw [typeOf, htype]
    exact h.type x ty hx

theorem nodup {D W : List Nat} (hl : Lists m D W) : (D ++ W).Nodup :=
  nodup_append.mpr ⟨hl.due.nodup, hl.waiting.nodup, fun _ ha _ hb e => hl.apart ha (e ▸ hb)⟩

theorem disarm (h : m.Keeps S) (ht : S t ≠ none) : ∃ m', m.utilTimeoutDisarm t = some m' ∧ m'.Keeps (update S t none) := by
  obtain ⟨D, W, hl, hmem⟩ := h.lists
  have hnd := nodup hl
  rcases mem_append.mp ((hmem t).mpr ht) with hD | hW
  · obtain ⟨D₁, D₂, rfl⟩ := append_of_mem hD
    obtain ⟨m', hm', hl', htype⟩ := disarm_due hl
    simp only [append_assoc, cons_append] at hmem hnd
    exact ⟨m', hm', h.erase hmem hnd hl' (append_assoc ..) htype⟩
  · obtain ⟨W₁, W₂, rfl⟩ := append_of_mem hW
    obtain ⟨m', hm', hl', htype⟩ := disarm_waiting hl
    rw [← append_assoc] at hnd
    simp only [← append_assoc] at hmem
    exact ⟨m', hm', h.erase hmem hnd hl' (append_assoc ..).symm htype⟩

theorem pop (h : m.Keeps S) (ht : m.dueFirst = some t) : S t ≠ none ∧ (m.pollPop t).Keeps (update S t none) := by
  obtain ⟨D, W, hl, hmem⟩ := h.lists
  have hnd := nodup hl
  cases D with
  | nil =>
    have := hl.due.first_eq
    rw [ht] at this
    cases this
  | cons a D =>
    have ha := hl.due.first_eq
    rw [ht] at ha
    cases ha
    refine ⟨(hmem t).mp (mem_append_left _ (mem_cons_self ..)), ?_⟩
    exact h.erase (E := []) hmem hnd (pollPop_lists hl) rfl (pollPop_type m t)

end Keeps

end TasNic.TimeoutManager
