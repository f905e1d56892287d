import Mathlib.Algebra.Order.Ring.Int
import Mathlib.Data.List.Induction
import Mathlib.Data.Nat.ModEq

/-!
# The checksum of the pseudo header (`fast/network.h`)

The words of the pseudo header are summed in 32 bits, and the carries are added twice (`foldCarry`). What is
left is the sum with end-around carry (`onesSum`): it is the sum modulo 65535, and 0 only for words that are
all 0, which determines it.
-/

namespace TasNic

open List

/-- `t_beui16` on a little-endian machine. -/
def tBeui16 (x : BitVec 16) : BitVec 16 := x <<< 8 ||| x >>> 8

/-- Adding the carries. -/
def foldCarry (sum : BitVec 32) : BitVec 32 := ((sum &&& 0xffff0000) >>> 16) + (sum &&& 0xffff)

/-- The sum before the carries are added; the addresses are as they lie in memory. -/
def phdrSum (ipSrc ipDst : BitVec 32) (proto : BitVec 8) (l3Paylen : BitVec 16) : BitVec 32 :=
  let sum := ipSrc &&& 0xffff
  let sum := sum + ((ipSrc >>> 16) &&& 0xffff)
  let sum := sum + (ipDst &&& 0xffff)
  let sum := sum + ((ipDst >>> 16) &&& 0xffff)
  let sum := sum + proto.setWidth 32 <<< 8
  sum + (tBeui16 l3Paylen).setWidth 32

def networkIpPhdrXsum (ipSrc ipDst : BitVec 32) (proto : BitVec 8) (l3Paylen : BitVec 16) : BitVec 16 :=
  (foldCarry (foldCarry (phdrSum ipSrc ipDst proto l3Paylen))).setWidth 16

/-- The pseudo header in memory: the addresses, 0, the protocol, and the length in network order. -/
def phdrBytes (ipSrc ipDst : BitVec 32) (proto : BitVec 8) (l3Paylen : BitVec 16) : List (BitVec 8) :=
  let addr (x : BitVec 32) := [x.setWidth 8, (x >>> 8).setWidth 8, (x >>> 16).setWidth 8, (x >>> 24).setWidth 8]
  addr ipSrc ++ addr ipDst ++ [0, proto, (l3Paylen >>> 8).setWidth 8, l3Paylen.setWidth 8]

/-- Words of 16 bits, as a little-endian machine reads them. -/
def memWords : List (BitVec 8) → List Nat
  | a :: b :: l => (a.toNat + 256 * b.toNat) :: memWords l
  | _ => []

/-- Addition with end-around carry. -/
def onesAdd (a b : Nat) : Nat := (a + b) % 2 ^ 16 + (a + b) / 2 ^ 16

/-- What a sum with end-around carry of words is. -/
structure IsOnesSum (words : List Nat) (r : Nat) : Prop where
  lt : r < 2 ^ 16
  modEq : r ≡ words.sum [MOD 65535]
  zero : r = 0 ↔ ∀ w ∈ words, w = 0

theorem IsOnesSum.unique {words : List Nat} {r r' : Nat} (h : IsOnesSum words r) (h' : IsOnesSum words r') : r = r' := by
  have hmod : r % 65535 = r' % 65535 := h.modEq.trans h'.modEq.symm
  have hzero : r = 0 ↔ r' = 0 := h.zero.trans h'.zero.symm
  have := h.lt
  have := h'.lt
  omega

theorem IsOnesSum.concat {words : List Nat} {r w : Nat} (h : IsOnesSum words r) (hw : w < 2 ^ 16) :
    IsOnesSum (words ++ [w]) (onesAdd r w) := by
  have hlt := h.lt
  have hmod : r % 65535 = words.sum % 65535 := h.modEq
  refine ⟨by rw [onesAdd]; omega, ?_, ?_⟩
  · rw [sum_append, sum_singleton, onesAdd, Nat.ModEq]
    omega
  · rw [forall_mem_append, ← h.zero, forall_mem_singleton, onesAdd]
    omega

theorem isOnesSum_foldl {words : List Nat} (h : ∀ w ∈ words, w < 2 ^ 16) : IsOnesSum words (words.foldl onesAdd 0) := by
  induction words using reverseRecOn with
  | nil => exact ⟨by decide, rfl, by simp⟩
  | append_singleton l w ih =>
    rw [foldl_append]
    obtain ⟨hl, hw⟩ := forall_mem_append.mp h
    exact (ih hl).concat (hw w (mem_singleton_self w))

/-! ## The folds -/

theorem toNat_and_0xffff (x : BitVec 32) : (x &&& 0xffff).toNat = x.toNat % 2 ^ 16 := by
  rw [BitVec.toNat_and]
  exact Nat.and_two_pow_sub_one_eq_mod x.toNat 16

theorem toNat_high (x : BitVec 32) : ((x >>> 16) &&& 0xffff).toNat = x.toNat / 2 ^ 16 := by
  rw [toNat_and_0xffff, BitVec.toNat_ushiftRight, Nat.shiftRight_eq_div_pow]
  omega

theorem toNat_foldCarry (x : BitVec 32) : (foldCarry x).toNat = x.toNat / 2 ^ 16 + x.toNat % 2 ^ 16 := by
  rw [foldCarry, BitVec.ushiftRight_and_distrib, show (0xffff0000 : BitVec 32) >>> 16 = 0xffff from rfl,
    BitVec.toNat_add, toNat_high, toNat_and_0xffff]
  omega

theorem toNat_tBeui16 (x : BitVec 16) : (tBeui16 x).toNat = x.toNat / 256 + 256 * (x.toNat % 256) := by
  have hlow : x.toNat / 256 < 2 ^ 8 := by omega
  have hor := Nat.shiftLeft_add_eq_or_of_lt hlow (x.toNat % 256)
  rw [tBeui16, BitVec.toNat_or, BitVec.toNat_shiftLeft, BitVec.toNat_ushiftRight, Nat.shiftRight_eq_div_pow]
  rw [show x.toNat <<< 8 % 2 ^ 16 = (x.toNat % 256) <<< 8 by simp only [Nat.shiftLeft_eq]; omega, ← hor, Nat.shiftLeft_eq]
  omega

variable (ipSrc ipDst : BitVec 32) (proto : BitVec 8) (l3Paylen : BitVec 16)

theorem memWords_phdrBytes : memWords (phdrBytes ipSrc ipDst proto l3Paylen) =
    [ipSrc.toNat % 2 ^ 16, ipSrc.toNat / 2 ^ 16, ipDst.toNat % 2 ^ 16, ipDst.toNat / 2 ^ 16, 256 * proto.toNat,
      (tBeui16 l3Paylen).toNat] := by
  simp [phdrBytes, memWords, toNat_tBeui16, Nat.shiftRight_eq_div_pow]
  omega

theorem memWords_phdrBytes_lt : ∀ w ∈ memWords (phdrBytes ipSrc ipDst proto l3Paylen), w < 2 ^ 16 := by
  rw [memWords_phdrBytes]
  simp only [forall_mem_cons, not_mem_nil, false_implies, implies_true, and_true]
  omega

/-- The sum does not wrap. -/
theorem toNat_phdrSum : (phdrSum ipSrc ipDst proto l3Paylen).toNat =
    (memWords (phdrBytes ipSrc ipDst proto l3Paylen)).sum ∧ (phdrSum ipSrc ipDst proto l3Paylen).toNat < 6 * 2 ^ 16 := by
  have hlt := memWords_phdrBytes_lt ipSrc ipDst proto l3Paylen
  have hp : (proto.setWidth 32 <<< 8).toNat = 256 * proto.toNat := by bv_omega
  have hl : ((tBeui16 l3Paylen).setWidth 32).toNat = (tBeui16 l3Paylen).toNat := BitVec.toNat_setWidth_of_le (by decide)
  rw [memWords_phdrBytes] at hlt ⊢
  simp only [forall_mem_cons] at hlt
  obtain ⟨h₁, h₂, h₃, h₄, h₅, h₆, -⟩ := hlt
  simp only [phdrSum, BitVec.toNat_add, sum_cons, sum_nil, hp, hl]
  rw [toNat_high, toNat_high, toNat_and_0xffff, toNat_and_0xffff]
  generalize ipSrc.toNat % 2 ^ 16 = a at *
  generalize ipSrc.toNat / 2 ^ 16 = b at *
  generalize ipDst.toNat % 2 ^ 16 = c at *
  generalize ipDst.toNat / 2 ^ 16 = d at *
  omega

theorem networkIpPhdrXsum_isOnesSum :
    IsOnesSum (memWords (phdrBytes ipSrc ipDst proto l3Paylen)) (networkIpPhdrXsum ipSrc ipDst proto l3Paylen).toNat := by
  obtain ⟨hsum, hlt⟩ := toNat_phdrSum ipSrc ipDst proto l3Paylen
  have hx := toNat_foldCarry (phdrSum ipSrc ipDst proto l3Paylen)
  have hy := toNat_foldCarry (foldCarry (phdrSum ipSrc ipDst proto l3Paylen))
  rw [networkIpPhdrXsum, BitVec.toNat_setWidth, Nat.mod_eq_of_lt (by omega)]
  refine ⟨by omega, ?_, ?_⟩
  · rw [Nat.ModEq]
    omega
  · rw [← List.sum_eq_zero_iff_forall_eq_nat, ← hsum]
    omega

/-- The carries are all added, the checksum is the sum of the words in memory order with end-around carry,
and the words of a segment can be added to it. -/
theorem phdr_xsum_exact (words : List Nat) :
    (phdrSum ipSrc ipDst proto l3Paylen).toNat = (memWords (phdrBytes ipSrc ipDst proto l3Paylen)).sum ∧
    (foldCarry (foldCarry (phdrSum ipSrc ipDst proto l3Paylen))).toNat < 2 ^ 16 ∧
    IsOnesSum (memWords (phdrBytes ipSrc ipDst proto l3Paylen)) (networkIpPhdrXsum ipSrc ipDst proto l3Paylen).toNat ∧
    words.foldl onesAdd (networkIpPhdrXsum ipSrc ipDst proto l3Paylen).toNat =
      (memWords (phdrBytes ipSrc ipDst proto l3Paylen) ++ words).foldl onesAdd 0 := by
  have hones := networkIpPhdrXsum_isOnesSum ipSrc ipDst proto l3Paylen
  obtain ⟨hsum, hlt⟩ := toNat_phdrSum ipSrc ipDst proto l3Paylen
  refine ⟨hsum, ?_, hones, ?_⟩
  · rw [toNat_foldCarry, toNat_foldCarry]
    omega
  · rw [foldl_append, hones.unique (isOnesSum_foldl (memWords_phdrBytes_lt ipSrc ipDst proto l3Paylen))]

end TasNic
