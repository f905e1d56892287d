import Mathlib.Data.List.Chain

/-!
# Decisions that do not go back

A controller moves a number up or down by one, or leaves it as it is: `f n` is the number it
moves `n` to. If it never moves a number back to where it came from (`OneWay`), then the numbers
that it moves to, one after the other, go in one direction, stay in the range, and come to one
that it leaves as it is (`OneWay.settled`).
-/

namespace TasNic.Settle

/-- The numbers that `n` is moved to in at most so many steps. -/
def path (f : Nat → Option Nat) : Nat → Nat → List Nat
  | 0, _ => []
  | k + 1, n => match f n with
    | none => []
    | some m => m :: path f k m

/-- Between `lo` and `hi`, a number is moved by one, stays in the range and is not moved back. -/
structure OneWay (f : Nat → Option Nat) (lo hi : Nat) : Prop where
  byOne : ∀ n m, lo ≤ n → n ≤ hi → f n = some m → m = n + 1 ∨ m + 1 = n
  within : ∀ n m, lo ≤ n → n ≤ hi → f n = some m → lo ≤ m ∧ m ≤ hi
  noReturn : ∀ n m, lo ≤ n → n ≤ hi → f n = some m → f m ≠ some n

/-- The next number, upwards or downwards. -/
def Next (up : Bool) (a b : Nat) : Prop := if up then b = a + 1 else b + 1 = a

/-- If `n` is moved, then in this direction. -/
def Heads (f : Nat → Option Nat) (up : Bool) (n : Nat) : Prop := ∀ m, f n = some m → Next up n m

/-- The steps that are left in this direction. -/
def room (lo hi : Nat) (up : Bool) (n : Nat) : Nat := if up then hi - n else n - lo

variable {f : Nat → Option Nat} {lo hi n m k : Nat} {up : Bool}

theorem path_none (h : f n = none) : path f (k + 1) n = [] := by
  rw [path, h]

theorem path_some (h : f n = some m) : path f (k + 1) n = m :: path f k m := by
  rw [path, h]

theorem path_concat (hlen : (path f k n).length = k) (h : f ((path f k n).getLastD n) = some m) :
    path f (k + 1) n = path f k n ++ [m] := by
  induction k generalizing n with
  | zero => exact path_some h
  | succ k ih =>
    cases hn : f n with
    | none =>
      rw [path_none hn] at hlen
      exact absurd hlen (Nat.succ_ne_zero k).symm
    | some x =>
      rw [path_some hn] at hlen h
      rw [List.getLastD_cons] at h
      rw [path_some hn, path_some hn, ih (Nat.succ.inj hlen) h]
      rfl

namespace OneWay

variable (hf : OneWay f lo hi)

include hf

theorem heads (hlo : lo ≤ n) (hhi : n ≤ hi) : ∃ up, Heads f up n := by
  cases hn : f n with
  | none => exact ⟨true, fun m hm => absurd (hn.symm.trans hm) (Option.some_ne_none m).symm⟩
  | some m =>
    have hsame : ∀ x, f n = some x → x = m := fun x hx => Option.some.inj (hx.symm.trans hn)
    rcases hf.byOne n m hlo hhi hn with h | h
    · exact ⟨true, fun x hx => by rw [hsame x hx]; exact h⟩
    · exact ⟨false, fun x hx => by rw [hsame x hx]; exact h⟩

theorem step (hlo : lo ≤ n) (hhi : n ≤ hi) (hup : Heads f up n) (h : f n = some m) :
    (lo ≤ m ∧ m ≤ hi) ∧ Heads f up m ∧ room lo hi up n = room lo hi up m + 1 := by
  obtain ⟨hmlo, hmhi⟩ := hf.within n m hlo hhi h
  have hnext := hup m h
  refine ⟨⟨hmlo, hmhi⟩, fun x hx => ?_, ?_⟩
  · have hback : x ≠ n := by
      rintro rfl
      exact hf.noReturn x m hlo hhi h hx
    have hone := hf.byOne m x hmlo hmhi hx
    cases up with
    | true =>
      have : m = n + 1 := hnext
      show x = m + 1
      omega
    | false =>
      have : m + 1 = n := hnext
      show x + 1 = m
      omega
  · cases up with
    | true =>
      have : m = n + 1 := hnext
      show hi - n = hi - m + 1
      omega
    | false =>
      have : m + 1 = n := hnext
      show n - lo = m - lo + 1
      omega

theorem path_heads (hlo : lo ≤ n) (hhi : n ≤ hi) (hup : Heads f up n) :
    (n :: path f k n).IsChain (Next up) ∧ (∀ m ∈ path f k n, lo ≤ m ∧ m ≤ hi) ∧
      (path f k n).length ≤ room lo hi up n ∧ (room lo hi up n ≤ k → f ((path f k n).getLastD n) = none) := by
  induction k generalizing n with
  | zero =>
    refine ⟨List.isChain_singleton _, fun m hm => absurd hm List.not_mem_nil, Nat.zero_le _, fun hroom => ?_⟩
    cases hn : f n with
    | none => exact hn
    | some m =>
      obtain ⟨-, -, hstep⟩ := hf.step hlo hhi hup hn
      omega
  | succ k ih =>
    cases hn : f n with
    | none =>
      rw [path_none hn]
      exact ⟨List.isChain_singleton _, fun m hm => absurd hm List.not_mem_nil, Nat.zero_le _, fun _ => hn⟩
    | some m =>
      obtain ⟨hm, hupm, hstep⟩ := hf.step hlo hhi hup hn
      obtain ⟨hchain, hwithin, hlen, hend⟩ := ih hm.1 hm.2 hupm
      rw [path_some hn]
      refine ⟨hchain.cons_cons (hup m hn), List.forall_mem_cons.mpr ⟨hm, hwithin⟩, ?_, fun hroom => ?_⟩
      · rw [List.length_cons, hstep]
        exact Nat.succ_le_succ hlen
      · rw [List.getLastD_cons]
        exact hend (by omega)

theorem settled (hlo : lo ≤ n) (hhi : n ≤ hi) (k : Nat) :
    (∃ up, (n :: path f k n).IsChain (Next up)) ∧ (∀ m ∈ path f k n, lo ≤ m ∧ m ≤ hi) ∧
      (path f k n).length ≤ hi - lo ∧ (hi - lo ≤ k → f ((path f k n).getLastD n) = none) := by
  obtain ⟨up, hup⟩ := hf.heads hlo hhi
  obtain ⟨hchain, hwithin, hlen, hend⟩ := hf.path_heads (k := k) hlo hhi hup
  have hroom : room lo hi up n ≤ hi - lo := by
    cases up with
    | true =>
      show hi - n ≤ hi - lo
      omega
    | false =>
      show n - lo ≤ hi - lo
      omega
  exact ⟨⟨up, hchain⟩, hwithin, hlen.trans hroom, fun hk => hend (hroom.trans hk)⟩

end OneWay

end TasNic.Settle
