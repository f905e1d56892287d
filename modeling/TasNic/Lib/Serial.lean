import Mathlib.Algebra.Order.Ring.Int

/-!
# Serial numbers

Counts modulo `2³²`. `toNat_add_cases` and `toNat_sub_cases` give sums and
differences without a modulus, by whether they wrap. `BitVec.ofNat 32` of
counts less than `2³²` apart is injective (`eq_of_ofNat_eq`).
-/

namespace Serial

theorem toNat_add_cases (x y : BitVec 32) :
    (x.toNat + y.toNat < 2 ^ 32 ∧ (x + y).toNat = x.toNat + y.toNat) ∨
      (2 ^ 32 ≤ x.toNat + y.toNat ∧ (x + y).toNat + 2 ^ 32 = x.toNat + y.toNat) := by
  rw [BitVec.toNat_add]
  omega

theorem toNat_sub_cases (x y : BitVec 32) :
    (y.toNat ≤ x.toNat ∧ (x - y).toNat = x.toNat - y.toNat) ∨
      (x.toNat < y.toNat ∧ (x - y).toNat + y.toNat = x.toNat + 2 ^ 32) := by
  rw [BitVec.toNat_sub]
  omega

theorem toInt_sub_cases (x y : BitVec 32) :
    -2 ^ 31 ≤ (x - y).toInt ∧ (x - y).toInt < 2 ^ 31 ∧
      ((x.toNat : Int) = y.toNat + (x - y).toInt ∨ (x.toNat : Int) = y.toNat + (x - y).toInt + 2 ^ 32 ∨
        (x.toNat : Int) + 2 ^ 32 = y.toNat + (x - y).toInt) := by
  have h := toNat_sub_cases x y
  rw [BitVec.toInt_eq_toNat_cond]
  split <;> omega

theorem toNat_sub_of_le {x y : BitVec 32} (h : y.toNat ≤ x.toNat) : (x - y).toNat = x.toNat - y.toNat := by
  rcases toNat_sub_cases x y with h' | h' <;> omega

/-- Distances add up, as long as they do not wrap. -/
theorem toNat_sub_add_sub {x y z : BitVec 32} (h : (y - x).toNat + (z - y).toNat < 2 ^ 32) :
    (z - x).toNat = (y - x).toNat + (z - y).toNat := by
  have e : z - x = y - x + (z - y) := by grind
  rw [e, BitVec.toNat_add_of_lt h]

theorem eq_of_ofNat_eq {m n : Nat} (h : BitVec.ofNat 32 m = BitVec.ofNat 32 n) (h₁ : m < n + 2 ^ 32)
    (h₂ : n < m + 2 ^ 32) : m = n := by
  have := congrArg BitVec.toNat h
  simp only [BitVec.toNat_ofNat] at this
  omega

theorem eq_of_add_ofNat_eq {s : BitVec 32} {m n : Nat} (h : s + BitVec.ofNat 32 m = s + BitVec.ofNat 32 n)
    (h₁ : m < n + 2 ^ 32) (h₂ : n < m + 2 ^ 32) : m = n :=
  eq_of_ofNat_eq (BitVec.add_right_inj s |>.mp h) h₁ h₂

theorem ofNat_toNat (x : BitVec 32) : BitVec.ofNat 32 x.toNat = x := by simp

theorem add_ofNat_add (s : BitVec 32) (m n : Nat) :
    s + BitVec.ofNat 32 m + BitVec.ofNat 32 n = s + BitVec.ofNat 32 (m + n) := by
  rw [BitVec.add_assoc, BitVec.ofNat_add]

theorem toNat_ofNat_of_lt {n : Nat} (h : n < 2 ^ 32) : (BitVec.ofNat 32 n).toNat = n := by
  rw [BitVec.toNat_ofNat, Nat.mod_eq_of_lt h]

theorem toNat_setWidth16_of_lt {x : BitVec 32} (h : x.toNat < 2 ^ 16) : (x.setWidth 16).toNat = x.toNat := by
  rw [BitVec.toNat_setWidth, Nat.mod_eq_of_lt h]

/-- `d` is the time from `a` to `b` on a clock of `w` bits, at most half its range away. -/
def Apart (w a b : Nat) (d : Int) : Prop := (2 : Int) ^ w ∣ d - (b - a) ∧ -2 ^ (w - 1) ≤ d ∧ d ≤ 2 ^ (w - 1)

theorem toNat_setWidth32 (x : BitVec 16) : (x.setWidth 32).toNat = x.toNat := by
  rw [BitVec.toNat_setWidth, Nat.mod_eq_of_lt (by omega)]

end Serial
