import Mathlib.Algebra.Order.Ring.Int

/-!
# Words with a record of overflow

A `Checked` word is the word that a machine computes, wrapped to its width, with whether
every operation on the way to it was exact. `x.Is n`: the word is the natural number `n`, exactly;
`x.IsInt i`: as a signed word it is `i`. The unsigned operations are `+`, `-`, `*` and `/`, the
signed ones `sadd`, `ssub`, `smul` and `sdiv`, which rounds towards zero. Each is exact if the result
fits (`Is.mul`, `IsInt.mul`, …).
-/

/-- A word, and whether all operations that gave it were exact. -/
structure Checked (w : Nat) where
  val : BitVec w
  ok : Bool
deriving DecidableEq

namespace Checked

variable {v w : Nat}

def of (x : BitVec w) : Checked w := ⟨x, true⟩

instance (n : Nat) : OfNat (Checked w) n := ⟨of (BitVec.ofNat w n)⟩

/-! ## Unsigned words -/

instance : Add (Checked w) := ⟨fun x y => ⟨x.val + y.val, x.ok && y.ok && !x.val.uaddOverflow y.val⟩⟩

instance : Sub (Checked w) := ⟨fun x y => ⟨x.val - y.val, x.ok && y.ok && decide (y.val ≤ x.val)⟩⟩

instance : Mul (Checked w) := ⟨fun x y => ⟨x.val * y.val, x.ok && y.ok && !x.val.umulOverflow y.val⟩⟩

instance : Div (Checked w) := ⟨fun x y => ⟨x.val / y.val, x.ok && y.ok⟩⟩

/-- A narrower word, exact if the value fits. -/
def narrow (v : Nat) (x : Checked w) : Checked v := ⟨x.val.setWidth v, x.ok && decide (x.val.toNat < 2 ^ v)⟩

/-- The word is `n`, exactly. -/
structure Is (x : Checked w) (n : Nat) : Prop where
  ok : x.ok = true
  val : x.val.toNat = n

section Unsigned

variable {x y : Checked w} {a b : Nat}

theorem is_ofNat {n : Nat} (h : n < 2 ^ w) : (OfNat.ofNat n : Checked w).Is n := by
  refine ⟨rfl, ?_⟩
  rw [show (OfNat.ofNat n : Checked w).val = BitVec.ofNat w n from rfl, BitVec.toNat_ofNat, Nat.mod_eq_of_lt h]

/-- The result of an operation that does not overflow. -/
theorem Is.of_op {z : BitVec w} {o : Bool} {n : Nat} (hx : x.Is a) (hy : y.Is b) (ho : o = false) (hz : z.toNat = n) :
    Is ⟨z, x.ok && y.ok && !o⟩ n := by
  refine ⟨?_, hz⟩
  rw [hx.ok, hy.ok, ho]
  rfl

theorem Is.add (hx : x.Is a) (hy : y.Is b) (h : a + b < 2 ^ w) : (x + y).Is (a + b) := by
  have hno : x.val.uaddOverflow y.val = false := by
    rw [BitVec.uaddOverflow, hx.val, hy.val]
    exact decide_eq_false (Nat.not_le_of_lt h)
  refine Is.of_op hx hy hno ?_
  rw [BitVec.toNat_add, hx.val, hy.val, Nat.mod_eq_of_lt h]

theorem Is.sub (hx : x.Is a) (hy : y.Is b) (h : b ≤ a) : (x - y).Is (a - b) := by
  have hle : y.val ≤ x.val := by rwa [BitVec.le_def, hx.val, hy.val]
  refine ⟨?_, ?_⟩
  · show (x.ok && y.ok && decide (y.val ≤ x.val)) = true
    rw [hx.ok, hy.ok, decide_eq_true hle]
    rfl
  · show (x.val - y.val).toNat = a - b
    rw [BitVec.toNat_sub_of_le hle, hx.val, hy.val]

theorem Is.mul (hx : x.Is a) (hy : y.Is b) (h : a * b < 2 ^ w) : (x * y).Is (a * b) := by
  have hno : x.val.umulOverflow y.val = false := by
    rw [BitVec.umulOverflow, hx.val, hy.val]
    exact decide_eq_false (Nat.not_le_of_lt h)
  refine Is.of_op hx hy hno ?_
  rw [BitVec.toNat_mul, hx.val, hy.val, Nat.mod_eq_of_lt h]

theorem Is.div (hx : x.Is a) (hy : y.Is b) : (x / y).Is (a / b) := by
  refine ⟨?_, ?_⟩
  · show (x.ok && y.ok) = true
    rw [hx.ok, hy.ok]
    rfl
  · show (x.val / y.val).toNat = a / b
    rw [BitVec.toNat_udiv, hx.val, hy.val]

theorem Is.narrow (hx : x.Is a) (h : a < 2 ^ v) : (x.narrow v).Is a := by
  refine ⟨?_, ?_⟩
  · show (x.ok && decide (x.val.toNat < 2 ^ v)) = true
    rw [hx.ok, hx.val, decide_eq_true h]
    rfl
  · show (x.val.setWidth v).toNat = a
    rw [BitVec.toNat_setWidth, hx.val, Nat.mod_eq_of_lt h]

end Unsigned

/-! ## Signed words -/

def sadd (x y : Checked w) : Checked w := ⟨x.val + y.val, x.ok && y.ok && !x.val.saddOverflow y.val⟩

def ssub (x y : Checked w) : Checked w := ⟨x.val - y.val, x.ok && y.ok && !x.val.ssubOverflow y.val⟩

def smul (x y : Checked w) : Checked w := ⟨x.val * y.val, x.ok && y.ok && !x.val.smulOverflow y.val⟩

def sdiv (x y : Checked w) : Checked w := ⟨x.val.sdiv y.val, x.ok && y.ok && !(x.val == .intMin w && y.val == -1)⟩

/-- The range of a signed word. -/
def Fits (w : Nat) (i : Int) : Prop := -2 ^ (w - 1) ≤ i ∧ i < 2 ^ (w - 1)
deriving Decidable

/-- A narrower signed word, exact if the value fits. -/
def snarrow (v : Nat) (x : Checked w) : Checked v := ⟨x.val.setWidth v, x.ok && decide (Fits v x.val.toInt)⟩

/-- The signed word is `i`, exactly. -/
structure IsInt (x : Checked w) (i : Int) : Prop where
  ok : x.ok = true
  val : x.val.toInt = i

section Signed

variable {x y : Checked w} {a b : Int}

theorem Fits.no_overflow {i : Int} (h : Fits w i) : (decide (i ≥ 2 ^ (w - 1)) || decide (i < -2 ^ (w - 1))) = false := by
  rw [decide_eq_false (Int.not_le_of_gt h.2), decide_eq_false (Int.not_lt_of_ge h.1)]
  rfl

theorem Is.isInt {n : Nat} (h : x.Is n) (hn : 2 * n < 2 ^ w) : x.IsInt n := by
  refine ⟨h.ok, ?_⟩
  rw [BitVec.toInt_eq_toNat_of_lt (h.val ▸ hn), h.val]

theorem IsInt.is {n : Nat} (h : x.IsInt n) : x.Is n := by
  refine ⟨h.ok, ?_⟩
  have hval := h.val
  rw [BitVec.toInt_eq_toNat_cond] at hval
  split at hval
  · exact Int.ofNat.inj hval
  · omega

theorem IsInt.of_op {z : BitVec w} {o : Bool} {i : Int} (hx : x.IsInt a) (hy : y.IsInt b) (ho : o = false) (hz : z.toInt = i) :
    IsInt ⟨z, x.ok && y.ok && !o⟩ i := by
  refine ⟨?_, hz⟩
  rw [hx.ok, hy.ok, ho]
  rfl

theorem IsInt.add (hx : x.IsInt a) (hy : y.IsInt b) (h : Fits w (a + b)) : (x.sadd y).IsInt (a + b) := by
  have hno : x.val.saddOverflow y.val = false := by
    rw [BitVec.saddOverflow, hx.val, hy.val]
    exact h.no_overflow
  refine IsInt.of_op hx hy hno ?_
  rw [BitVec.toInt_add_of_not_saddOverflow (ne_true_of_eq_false hno), hx.val, hy.val]

theorem IsInt.sub (hx : x.IsInt a) (hy : y.IsInt b) (h : Fits w (a - b)) : (x.ssub y).IsInt (a - b) := by
  have hno : x.val.ssubOverflow y.val = false := by
    rw [BitVec.ssubOverflow, hx.val, hy.val]
    exact h.no_overflow
  refine IsInt.of_op hx hy hno ?_
  rw [BitVec.toInt_sub_of_not_ssubOverflow (ne_true_of_eq_false hno), hx.val, hy.val]

theorem IsInt.mul (hx : x.IsInt a) (hy : y.IsInt b) (h : Fits w (a * b)) : (x.smul y).IsInt (a * b) := by
  have hno : x.val.smulOverflow y.val = false := by
    rw [BitVec.smulOverflow, hx.val, hy.val]
    exact h.no_overflow
  refine IsInt.of_op hx hy hno ?_
  rw [BitVec.toInt_mul_of_not_smulOverflow (ne_true_of_eq_false hno), hx.val, hy.val]

theorem IsInt.div (hx : x.IsInt a) (hy : y.IsInt b) (h : 0 < b) : (x.sdiv y).IsInt (a.tdiv b) := by
  have hne : y.val ≠ -1 := by
    intro e
    have hb := hy.val
    rw [e] at hb
    cases w with
    | zero => simp [BitVec.of_length_zero] at hb; omega
    | succ w =>
      rw [show (-1 : BitVec (w + 1)) = .allOnes _ from BitVec.neg_one_eq_allOnes, BitVec.toInt_allOnes,
        if_pos (Nat.succ_pos w)] at hb
      omega
  refine IsInt.of_op hx hy (by rw [beq_false_of_ne hne, Bool.and_false]) ?_
  rw [BitVec.toInt_sdiv_of_ne_or_ne _ _ (.inr hne), hx.val, hy.val]

theorem IsInt.snarrow (hx : x.IsInt a) (hv : 0 < v) (hvw : v ≤ w) (h : Fits v a) : (x.snarrow v).IsInt a := by
  refine ⟨?_, ?_⟩
  · show (x.ok && decide (Fits v x.val.toInt)) = true
    rw [hx.ok, hx.val, decide_eq_true h]
    rfl
  · show (x.val.setWidth v).toInt = a
    obtain ⟨u, rfl⟩ := Nat.exists_eq_succ_of_ne_zero (Nat.ne_of_gt hv)
    obtain ⟨h₁, h₂⟩ := h
    rw [← BitVec.signExtend_eq_setWidth_of_le _ hvw, BitVec.toInt_signExtend_eq_toInt_bmod_of_le _ hvw, hx.val]
    refine Int.bmod_eq_of_le_mul_two ?_ ?_
    · push_cast
      simp only [Nat.succ_eq_add_one, Nat.add_sub_cancel] at h₁
      omega
    · push_cast
      simp only [Nat.succ_eq_add_one, Nat.add_sub_cancel] at h₂
      omega

end Signed

end Checked
