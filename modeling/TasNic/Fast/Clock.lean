import Mathlib.Data.BitVec
import TasNic.Fast.QmanStructure
import TasNic.Utils.TimeoutOrder

/-!
# The clocks of the queue manager (`fast/qman.c`)

A clock multiplies a number of cycles by the units of a second, in 64 bits, and divides by the frequency. Between two
counts it goes on by the elapsed time, up to the remainders of the two divisions, less what the product lost where it
wrapped (`cyclesToTime_sub`). It is right to one unit exactly if the product did not wrap in between, or
lost a multiple of 2^32 units (`clocks_within_one_iff`). Time stamps are compared relative to a time near
them (`rel_times_modular`).
-/

namespace TasNic

open BitVec

/-- Cycles as a time in units of which a second has `units`. -/
def cyclesToTime (units freq cycles : BitVec 64) : BitVec 32 := (cycles * units / freq).setWidth 32

/-- `timestamp`, for the cycles that `rte_get_tsc_cycles` returns. -/
def timestamp (freq cycles : BitVec 64) : BitVec 32 := cyclesToTime 1000000000 freq cycles

def qmanTimestamp (freq cycles : BitVec 64) : BitVec 32 := cyclesToTime 1000000 freq cycles

def elapsedTime (units : Nat) (freq c₁ c₂ : BitVec 64) : Nat := (c₂.toNat - c₁.toNat) * units / freq.toNat

def productWraps (units : Nat) (c₁ c₂ : BitVec 64) : Nat := c₂.toNat * units / 2 ^ 64 - c₁.toNat * units / 2 ^ 64

/-- What is added to the elapsed time: the remainders of the divisions, less what is lost where the product wraps. -/
def clockError (units : Nat) (freq c₁ c₂ : BitVec 64) : Int :=
  (((c₁.toNat * units % 2 ^ 64 % freq.toNat + (c₂.toNat - c₁.toNat) * units % freq.toNat : Nat) : Int) -
    (2 ^ 64 * productWraps units c₁ c₂ : Nat)) / freq.toNat

def WithinOne (d e : BitVec 32) : Prop := d = e ∨ d = e + 1 ∨ d + 1 = e

/-- The product does not wrap between the two counts, or what it loses is within one unit of a multiple of 2^32. -/
def ClockFits (units : Nat) (freq c₁ c₂ : BitVec 64) : Prop :=
  productWraps units c₁ c₂ = 0 ∨ (clockError units freq c₁ c₂ + 1) % 2 ^ 32 ≤ 2

section Clock

variable {units freq c₁ c₂ : BitVec 64}

theorem cyclesToTime_eq (units freq c : BitVec 64) : cyclesToTime units freq c =
    BitVec.ofInt 32 ((c.toNat * units.toNat % 2 ^ 64 / freq.toNat : Nat) : Int) := by
  rw [cyclesToTime, ofInt_natCast]
  apply eq_of_toNat_eq
  rw [toNat_setWidth, toNat_udiv, toNat_mul, toNat_ofNat]

/-- The quotients of two products that wrap. -/
theorem wrapped_div (h : c₁.toNat ≤ c₂.toNat) (hfreq : freq.toNat ≠ 0) (units : Nat) :
    ((c₂.toNat * units % 2 ^ 64 / freq.toNat : Nat) : Int) =
      (c₁.toNat * units % 2 ^ 64 / freq.toNat : Nat) + (elapsedTime units freq c₁ c₂ : Int) + clockError units freq c₁ c₂ := by
  have hsub : c₁.toNat * units + (c₂.toNat - c₁.toNat) * units = c₂.toNat * units := by
    rw [← Nat.add_mul, Nat.add_sub_cancel' h]
  have hrem := Nat.div_add_mod (c₁.toNat * units % 2 ^ 64) freq.toNat
  have hrem' := Nat.div_add_mod ((c₂.toNat - c₁.toNat) * units) freq.toNat
  have hsum : ((c₂.toNat * units % 2 ^ 64 : Nat) : Int) =
      (((c₁.toNat * units % 2 ^ 64 % freq.toNat + (c₂.toNat - c₁.toNat) * units % freq.toNat : Nat) : Int) -
        (2 ^ 64 * productWraps units c₁ c₂ : Nat)) +
      freq.toNat * ((c₁.toNat * units % 2 ^ 64 / freq.toNat : Nat) + (elapsedTime units freq c₁ c₂ : Int)) := by
    rw [Int.mul_add, ← Int.natCast_mul, ← Int.natCast_mul, elapsedTime, productWraps]
    omega
  rw [Int.natCast_ediv, hsum, Int.add_mul_ediv_left _ _ (Int.natCast_ne_zero.mpr hfreq), clockError]
  omega

theorem cyclesToTime_sub (h : c₁.toNat ≤ c₂.toNat) (hfreq : freq.toNat ≠ 0) (units : BitVec 64) :
    cyclesToTime units freq c₂ - cyclesToTime units freq c₁ =
      BitVec.ofNat 32 (elapsedTime units.toNat freq c₁ c₂) + BitVec.ofInt 32 (clockError units.toNat freq c₁ c₂) := by
  rw [cyclesToTime_eq, cyclesToTime_eq, wrapped_div h hfreq, ofInt_add, ofInt_add, ofInt_natCast,
    ofInt_natCast, BitVec.add_assoc, BitVec.add_comm, BitVec.add_sub_cancel]

theorem withinOne_add_iff (e : BitVec 32) (i : Int) : WithinOne (e + BitVec.ofInt 32 i) e ↔ (i + 1) % 2 ^ 32 ≤ 2 := by
  have hi : (BitVec.ofInt 32 i).toNat = (i % 4294967296).toNat := toNat_ofInt i
  simp only [WithinOne, ← toNat_inj, toNat_add, hi, show (1 : BitVec 32).toNat = 1 from rfl]
  omega

/-- Without a wrap only the remainders are left, less than two units. -/
theorem clockError_of_productWraps (hfreq : freq.toNat ≠ 0) {units : Nat} (h : productWraps units c₁ c₂ = 0) :
    (clockError units freq c₁ c₂ + 1) % 2 ^ 32 ≤ 2 := by
  have hpos := Nat.pos_of_ne_zero hfreq
  have hrem := Nat.mod_lt (c₁.toNat * units % 2 ^ 64) hpos
  have hrem' := Nat.mod_lt ((c₂.toNat - c₁.toNat) * units) hpos
  have hdiv : (c₁.toNat * units % 2 ^ 64 % freq.toNat + (c₂.toNat - c₁.toNat) * units % freq.toNat) / freq.toNat < 2 :=
    Nat.div_lt_of_lt_mul (by omega)
  rw [clockError, h, Nat.mul_zero, Int.natCast_zero, Int.sub_zero, ← Int.natCast_ediv]
  generalize (c₁.toNat * units % 2 ^ 64 % freq.toNat + (c₂.toNat - c₁.toNat) * units % freq.toNat) / freq.toNat = q at hdiv ⊢
  omega

theorem withinOne_iff_clockFits (h : c₁.toNat ≤ c₂.toNat) (hfreq : freq.toNat ≠ 0) (units : BitVec 64) :
    WithinOne (cyclesToTime units freq c₂ - cyclesToTime units freq c₁) (BitVec.ofNat 32 (elapsedTime units.toNat freq c₁ c₂)) ↔
      ClockFits units.toNat freq c₁ c₂ := by
  rw [cyclesToTime_sub h hfreq, withinOne_add_iff]
  exact ⟨.inr, fun hfits => hfits.elim (clockError_of_productWraps hfreq) id⟩

end Clock

/-- The two clocks are right to one unit exactly where their products do not wrap, or lose a multiple of 2^32 units. -/
theorem clocks_within_one_iff {freq c₁ c₂ : BitVec 64} (hfreq : freq.toNat ≠ 0) (hle : c₁.toNat ≤ c₂.toNat) :
    (WithinOne (timestamp freq c₂ - timestamp freq c₁) (BitVec.ofNat 32 (elapsedTime 1000000000 freq c₁ c₂)) ↔
      ClockFits 1000000000 freq c₁ c₂) ∧
    (WithinOne (qmanTimestamp freq c₂ - qmanTimestamp freq c₁) (BitVec.ofNat 32 (elapsedTime 1000000 freq c₁ c₂)) ↔
      ClockFits 1000000 freq c₁ c₂) :=
  ⟨withinOne_iff_clockFits hle hfreq 1000000000, withinOne_iff_clockFits hle hfreq 1000000⟩

/-- The first seconds at 2 GHz. -/
theorem clocks_within_one_iff_start :
    WithinOne (timestamp 2000000000 9000000000 - timestamp 2000000000 5000000001)
      (BitVec.ofNat 32 (elapsedTime 1000000000 2000000000 5000000001 9000000000)) ∧
    WithinOne (qmanTimestamp 2000000000 9000000000 - qmanTimestamp 2000000000 5000000001)
      (BitVec.ofNat 32 (elapsedTime 1000000 2000000000 5000000001 9000000000)) := by
  obtain ⟨hns, hus⟩ := @clocks_within_one_iff 2000000000 5000000001 9000000000 (by decide) (by decide)
  exact ⟨hns.mpr (.inl (by decide)), hus.mpr (.inl (by decide))⟩

/-- At 2 GHz the product wraps 9.2 s after the start, and the clock goes back. -/
theorem timestamp_jumps : ¬ ∀ freq c₁ c₂ : BitVec 64, 10 ^ 9 ≤ freq.toNat → freq.toNat ≤ 10 ^ 10 → c₁.toNat ≤ c₂.toNat →
    c₂.toNat < 2 ^ 62 →
    WithinOne (timestamp freq c₂ - timestamp freq c₁) (BitVec.ofNat 32 (elapsedTime 1000000000 freq c₁ c₂)) ∧
    WithinOne (qmanTimestamp freq c₂ - qmanTimestamp freq c₁) (BitVec.ofNat 32 (elapsedTime 1000000 freq c₁ c₂)) := by
  intro h
  have hnear := (h 2000000000 18446744073 18446744074 (by decide) (by decide) (by decide) (by decide)).1
  have hjump : timestamp 2000000000 18446744074 - timestamp 2000000000 18446744073 = 3661529852 := by decide
  rw [hjump, show elapsedTime 1000000000 2000000000 18446744073 18446744074 = 0 by decide] at hnear
  rcases hnear with hnear | hnear | hnear
  · exact absurd hnear (by decide)
  · exact absurd hnear (by decide)
  · exact absurd hnear (by decide)

/-! ## Times relative to a base -/

theorem relTime_ofInt {base a : Int} (h : (a - base).natAbs < 2 ^ 31) :
    relTime (BitVec.ofInt 32 base) (BitVec.ofInt 32 a) = a - base := by
  obtain ⟨h₁, h₂⟩ := relTime_apart (BitVec.ofInt 32 base) (BitVec.ofInt 32 a)
  rw [toNat_ofInt, toNat_ofInt] at h₁
  omega

/-- The two `rel_time` give the time between two stamps on clocks of 32 and 28 bits; relative to
any time, the order of the queue manager is a total preorder, and that of the times the stamps
stand for if these are near it. -/
theorem rel_times_modular (cur ts : BitVec 32) (m : TimeoutManager) (i : Nat) (t : QmanThread) (base a b : Int)
    (ht : t.tsVirtual = BitVec.ofInt 32 base) (ha : (a - base).natAbs < 2 ^ 31) (hb : (b - base).natAbs < 2 ^ 31) :
    Serial.Apart 32 cur.toNat ts.toNat (relTime cur ts) ∧
    Serial.Apart 28 cur.toNat ((m.timeouts i).timeoutType &&& timeoutMask).toNat (m.relTime (cur &&& timeoutMask) i).toInt ∧
    (IsPreorder (BitVec 32) fun x y => t.lessthaneq x y = true) ∧ (Std.Total fun x y => t.lessthaneq x y = true) ∧
    (t.lessthaneq (BitVec.ofInt 32 a) (BitVec.ofInt 32 b) = true ↔ a ≤ b) := by
  have hmask := toNat_and_timeoutMask
  simp only [QmanThread.lessthaneq, decide_eq_true_eq]
  refine ⟨relTime_apart cur ts, ?_, ?_, ⟨fun _ _ => Int.le_total _ _⟩, ?_⟩
  · have hc := hmask cur
    obtain ⟨h₁, h₂⟩ := timeoutRelTime_apart (c := cur &&& timeoutMask) (x := (m.timeouts i).timeoutType &&& timeoutMask)
      (by rw [hmask]; omega) (by rw [hmask]; omega)
    exact ⟨by rw [TimeoutManager.relTime]; omega, h₂⟩
  · exact { refl := fun _ => Int.le_refl _, trans := fun _ _ _ => Int.le_trans }
  · rw [ht, relTime_ofInt ha, relTime_ofInt hb]
    omega

/-- A stamp from before the clock wrapped is before one from after it. -/
theorem rel_times_modular_wrapped :
    (qmanThreadInit 0 (fun _ => 0) false).tsVirtual = BitVec.ofInt 32 0 ∧
    ((qmanThreadInit 0 (fun _ => 0) false).lessthaneq (BitVec.ofInt 32 (-1)) (BitVec.ofInt 32 2) = true ↔ (-1 : Int) ≤ 2) :=
  ⟨rfl, (rel_times_modular 0 0 (utilTimeoutInit fun _ => ⟨0, none, none⟩) 0 (qmanThreadInit 0 (fun _ => 0) false)
    0 (-1) 2 rfl (by decide) (by decide)).2.2.2.2⟩

end TasNic
