import Mathlib.Logic.Basic

/-!
# A bell with a grace period

A producer rings a bell after each item it puts into a queue. Ringing makes a token only if more than
`delta` has passed since the last time. `Armed delta stamp b`: there is a token, or ringing with
`stamp` makes one. A consumer may stop looking at the queue once the bell is armed for every stamp
that is still to come; from then on `Heard` holds.
-/

/-- When the bell was last rung, and the tokens it has made. -/
structure Bell where
  last : Nat
  tokens : Nat
deriving DecidableEq

namespace Bell

def ring (delta stamp : Nat) (b : Bell) : Bell :=
  ⟨stamp, if delta < stamp - b.last then b.tokens + 1 else b.tokens⟩

/-- All tokens are taken. -/
def clear (b : Bell) : Bell := { b with tokens := 0 }

def Armed (delta stamp : Nat) (b : Bell) : Prop := 0 < b.tokens ∨ delta < stamp - b.last

/-- `pending`: an item was put in, and the bell was not yet rung for it. -/
def Heard (delta stamp items : Nat) (pending : Bool) (b : Bell) : Prop :=
  0 < items → 0 < b.tokens ∨ pending = true ∧ delta < stamp - b.last

variable {delta stamp stamp' items : Nat} {pending : Bool} {b : Bell}

theorem Armed.later (h : b.Armed delta stamp) (hle : stamp ≤ stamp') : b.Armed delta stamp' :=
  h.imp id fun h => Nat.lt_of_lt_of_le h (Nat.sub_le_sub_right hle _)

theorem Armed.ring (h : b.Armed delta stamp) : 0 < (b.ring delta stamp).tokens := by
  rw [Bell.ring]
  split
  · exact Nat.succ_pos _
  · rename_i hlt
    exact h.resolve_right hlt

theorem heard_empty : b.Heard delta stamp 0 pending := fun h => absurd h (Nat.lt_irrefl 0)

variable (h : b.Heard delta stamp items pending)

include h

theorem Heard.armed (hi : 0 < items) : b.Armed delta stamp :=
  (h hi).imp id And.right

theorem Heard.later (hle : stamp ≤ stamp') : b.Heard delta stamp' items pending :=
  fun hi => (h hi).imp id fun h => ⟨h.1, Nat.lt_of_lt_of_le h.2 (Nat.sub_le_sub_right hle _)⟩

omit h in
theorem Armed.heard (h : b.Armed delta stamp) : b.Heard delta stamp items true :=
  fun _ => h.imp id fun h => ⟨rfl, h⟩

theorem Heard.ring (stamp' : Nat) :
    (b.ring delta stamp).Heard delta stamp' items false :=
  fun hi => .inl (h.armed hi).ring

theorem Heard.not_lost (hi : 0 < items) (ht : b.tokens = 0) : pending = true :=
  (h hi).elim (fun h => absurd ht (Nat.ne_of_gt h)) And.left

end Bell
