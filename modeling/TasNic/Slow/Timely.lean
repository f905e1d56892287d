import TasNic.Slow.Cc
import TasNic.Lib.Run

/-!
# TIMELY

The averaged difference of round trip times stays below 100 ms (`timelyRttDiff_isInt`), so that no signed word
overflows. A branch that lowers the rate does not raise it (`timelyHigh_spec`, `timelyDecrease_spec`); a branch that
raises it does so unless the sum wraps, and nothing keeps it from that: slow start doubles the
rate for as long as round trip times are low.
-/

namespace TasNic

open Checked Option BitVec

/-! ## The gradient -/

section Gradient

variable {cfg : CcConfig} {d d' : BitVec 32}

theorem s64_isInt (x : BitVec 32) : (s64 x).IsInt x.toInt :=
  ⟨rfl, toInt_signExtend_of_le (by decide)⟩

theorem u64_isInt (x : BitVec 32) : (u64 x).IsInt x.toNat := by
  refine (u64_is x).isInt ?_
  omega

theorem natAbs_ewma_le {m f B : Nat} {a b : Int} (hf : f ≤ m) (ha : a.natAbs ≤ B) (hb : b.natAbs ≤ B) :
    (((m - f : Nat) : Int) * a + (f : Int) * b).natAbs ≤ m * B := by
  calc (((m - f : Nat) : Int) * a + (f : Int) * b).natAbs
      ≤ (((m - f : Nat) : Int) * a).natAbs + ((f : Int) * b).natAbs := Int.natAbs_add_le ..
    _ = (m - f) * a.natAbs + f * b.natAbs := by rw [Int.natAbs_mul, Int.natAbs_mul, Int.natAbs_natCast, Int.natAbs_natCast]
    _ ≤ (m - f) * B + f * B := Nat.add_le_add (Nat.mul_le_mul_left _ ha) (Nat.mul_le_mul_left _ hb)
    _ = m * B := by rw [← Nat.add_mul, Nat.sub_add_cancel hf]

theorem natAbs_tdiv_le {a : Int} {m B : Nat} (h : a.natAbs ≤ m * B) : (a.tdiv m).natAbs ≤ B := by
  rw [Int.natAbs_tdiv, Int.natAbs_natCast]
  exact Nat.div_le_of_le_mul h

theorem timelyRttDiff_isInt (cfg : CcConfig) (hd : d.toInt.natAbs < 100000) (hd' : d'.toInt.natAbs < 100000) :
    ∃ i : Int, (timelyRttDiff cfg d d').IsInt i ∧ i.natAbs < 100000 := by
  have hmax : int32Max.toNat = 2147483647 := rfl
  have hf : (cfg.timelyAlpha / 2).toNat ≤ 2147483647 := by
    rw [toNat_udiv, show (2 : BitVec 32).toNat = 2 from rfl]
    omega
  have hrest : (u64 int32Max - u64 (cfg.timelyAlpha / 2)).Is (2147483647 - (cfg.timelyAlpha / 2).toNat) :=
    (u64_is int32Max).sub (u64_is _) hf
  have hsum := natAbs_ewma_le hf (Nat.le_of_lt_succ hd) (Nat.le_of_lt_succ hd')
  have h₂ : (((cfg.timelyAlpha / 2).toNat : Int) * d'.toInt).natAbs ≤ 2147483647 * 99999 := by
    rw [Int.natAbs_mul, Int.natAbs_natCast]
    exact Nat.mul_le_mul hf (Nat.le_of_lt_succ hd')
  have hx := ((hrest.isInt (by omega)).mul (s64_isInt d) ⟨by omega, by omega⟩).add
    ((u64_isInt (cfg.timelyAlpha / 2)).mul (s64_isInt d') ⟨by omega, by omega⟩) ⟨by omega, by omega⟩
  have hdiv := natAbs_tdiv_le hsum
  have hquot := hx.div (u64_isInt int32Max) (by decide)
  rw [hmax] at hquot
  refine ⟨_, hquot.snarrow (by decide) (by decide) ⟨by omega, by omega⟩, by omega⟩

theorem natAbs_toInt_sub {a b : BitVec 32} (ha : a.toNat < 100000) (hb : b.toNat < 100000) :
    (a - b).toInt.natAbs < 100000 := by
  have hsub : (a - b).toInt = (a.toNat : Int) - b.toNat := by
    rw [toInt_sub, toInt_eq_toNat_of_lt (by omega), toInt_eq_toNat_of_lt (by omega)]
    exact Int.bmod_eq_of_le_mul_two (by omega) (by omega)
  omega

structure TimelyInv (cc : Timely) : Prop where
  prev : cc.rttPrev.toNat < 100000
  diff : cc.rttDiff.toInt.natAbs < 100000

theorem timelyGradient_isSome (cc : Timely) (newRtt : BitVec 32) (hmin : cfg.timelyMinRtt ≠ 0) :
    ∃ g, timelyGradient cfg cc newRtt = some g := by
  rw [timelyGradient]
  split_ifs
  · exact ⟨_, rfl⟩
  · exact ⟨_, rfl⟩

theorem timelyGradient_spec {cc : Timely} {newRtt : BitVec 32} {grad : Checked 32 × Checked 64} (h : TimelyInv cc)
    (hrtt : newRtt.toNat < 100000) (hgrad : timelyGradient cfg cc newRtt = some grad) :
    grad.1.ok = true ∧ grad.1.val.toInt.natAbs < 100000 ∧ ∃ g : Int, grad.2.IsInt g ∧ g.natAbs ≤ 99999 * 32767 := by
  rw [timelyGradient] at hgrad
  split_ifs at hgrad with hprev hmin
  · cases hgrad
    exact ⟨rfl, h.diff, 0, ⟨rfl, rfl⟩, by decide⟩
  · cases hgrad
    obtain ⟨i, hi, hlt⟩ := timelyRttDiff_isInt cfg h.diff (natAbs_toInt_sub hrtt h.prev)
    have hscale :
        ((timelyRttDiff cfg cc.rttDiff (newRtt - cc.rttPrev)).val.toInt * (int16Max.toNat : Int)).natAbs ≤ 99999 * 32767 := by
      rw [hi.val, Int.natAbs_mul, Int.natAbs_natCast, show int16Max.toNat = 32767 from rfl]
      exact Nat.mul_le_mul_right _ (Nat.le_of_lt_succ hlt)
    have hpos : (0 : Int) < cfg.timelyMinRtt.toNat :=
      Int.natCast_pos.mpr (Nat.pos_of_ne_zero fun e => hmin (eq_of_toNat_eq e))
    have hdiv := ((s64_isInt (timelyRttDiff cfg cc.rttDiff (newRtt - cc.rttPrev)).val).mul (u64_isInt int16Max)
      ⟨by omega, by omega⟩).div (u64_isInt cfg.timelyMinRtt) hpos
    exact ⟨hi.ok, by rw [hi.val]; exact hlt, _, hdiv, Nat.le_trans (Int.natAbs_tdiv_le_natAbs _ _) hscale⟩

end Gradient

/-! ## The branches -/

section Branches

variable {cfg : CcConfig} {newRtt : BitVec 32} {gradient : Checked 64} {g : Int} {branch : TimelyBranch}

theorem timelyHigh_spec (rate : BitVec 32) (h : cfg.timelyThigh < newRtt) :
    (timelyHigh cfg newRtt rate).ok = true ∧ (timelyHigh cfg newRtt rate).val.toNat ≤ rate.toNat := by
  have hlt : cfg.timelyThigh.toNat < newRtt.toNat := h
  have hd : (u64 uint32Max * u64 cfg.timelyThigh / u64 newRtt).Is (4294967295 * cfg.timelyThigh.toNat / newRtt.toNat) :=
    (u64_mul_is uint32Max cfg.timelyThigh).div (u64_is newRtt)
  have hfit : 4294967295 * cfg.timelyThigh.toNat / newRtt.toNat < 2 ^ 32 :=
    Nat.lt_succ_of_le (mul_div_le (Nat.le_of_lt hlt))
  have ha := scaled_narrow_is cfg.timelyBeta (uint32Max - (((u64 uint32Max * u64 cfg.timelyThigh / u64 newRtt).narrow 32).val))
  have hr := scaled_narrow_is rate (uint32Max - ((scaled cfg.timelyBeta
    (uint32Max - ((u64 uint32Max * u64 cfg.timelyThigh / u64 newRtt).narrow 32).val)).narrow 32).val)
  rw [timelyHigh]
  refine ⟨?_, ?_⟩
  · rw [hr.ok, ha.ok, (hd.narrow hfit).ok]
    rfl
  · rw [hr.val]
    exact mul_div_le (Nat.le_of_lt_succ (isLt _))

theorem timelyFactor_isInt (cfg : CcConfig) (hg : gradient.IsInt g) (hpos : 0 < g) (hle : g.natAbs ≤ 99999 * 32767) :
    ∃ n : Nat, (timelyFactor cfg gradient).IsInt n ∧ n ≤ 2147483647 := by
  have hbeta : (cfg.timelyBeta / 2).toNat ≤ 2147483647 := by
    rw [toNat_udiv, show (2 : BitVec 32).toNat = 2 from rfl]
    omega
  have hprod : (((cfg.timelyBeta / 2).toNat : Int) * g).natAbs ≤ 2147483647 * (99999 * 32767) := by
    rw [Int.natAbs_mul, Int.natAbs_natCast]
    exact Nat.mul_le_mul hbeta hle
  have hnonneg : 0 ≤ ((cfg.timelyBeta / 2).toNat : Int) * g := Int.mul_nonneg (Int.natCast_nonneg _) (Int.le_of_lt hpos)
  have hb := ((u64_isInt (cfg.timelyBeta / 2)).mul hg ⟨by omega, by omega⟩).div (u64_isInt int16Max) (by decide)
  have hquot : 0 ≤ (((cfg.timelyBeta / 2).toNat : Int) * g).tdiv (int16Max.toNat : Int) :=
    Int.tdiv_nonneg hnonneg (Int.natCast_nonneg _)
  have hmax : int32Max.toInt = 2147483647 := rfl
  rw [timelyFactor]
  split_ifs with h
  · rw [hb.val, hmax] at h
    have hsub := (u64_isInt int32Max).sub hb ⟨by rw [show int32Max.toNat = 2147483647 from rfl]; omega,
      by rw [show int32Max.toNat = 2147483647 from rfl]; omega⟩
    rw [show int32Max.toNat = 2147483647 from rfl] at hsub
    obtain ⟨n, hn⟩ := Int.eq_ofNat_of_zero_le (Int.sub_nonneg.mpr h)
    refine ⟨n, ⟨hsub.ok, hsub.val.trans hn⟩, by omega⟩
  · exact ⟨0, ⟨hb.ok, rfl⟩, by decide⟩

theorem timelyDecrease_spec (cfg : CcConfig) (rate : BitVec 32) (hg : gradient.IsInt g) (hpos : 0 < g)
    (hle : g.natAbs ≤ 99999 * 32767) :
    (timelyDecrease cfg gradient rate).ok = true ∧ (timelyDecrease cfg gradient rate).val.toNat ≤ rate.toNat := by
  obtain ⟨n, hn, hnle⟩ := timelyFactor_isInt cfg hg hpos hle
  have hprod : rate.toNat * n ≤ 4294967295 * 2147483647 := Nat.mul_le_mul (Nat.le_of_lt_succ rate.isLt) hnle
  have hmul := (u64_isInt rate).mul hn ⟨by omega, by omega⟩
  have hdiv := hmul.div (u64_isInt int32Max) (by decide)
  rw [show int32Max.toNat = 2147483647 from rfl, ← Int.natCast_mul, ← Int.ofNat_tdiv] at hdiv
  have hquot : rate.toNat * n / 2147483647 ≤ rate.toNat := mul_div_le hnle
  have hnarrow := hdiv.is.narrow (v := 32) (by omega)
  exact ⟨hnarrow.ok, by rw [timelyDecrease, hnarrow.val]; exact hquot⟩

theorem atLeast_toNat (min rate : BitVec 32) : (atLeast min rate).toNat = max min.toNat rate.toNat := by
  rw [atLeast]
  split_ifs with h
  · exact (Nat.max_eq_left (Nat.le_of_lt h)).symm
  · exact (Nat.max_eq_right (Nat.le_of_not_lt h)).symm

theorem timelyBranch_cases (cfg : CcConfig) (slowstart : Bool) (newRtt : BitVec 32) (gradient : BitVec 64) :
    (timelyBranch cfg slowstart newRtt gradient = .aboveThigh → cfg.timelyThigh < newRtt) ∧
      (timelyBranch cfg slowstart newRtt gradient = .rising → 0 < gradient.toInt) := by
  rw [timelyBranch]
  split_ifs with h₁ h₂ h₃ h₄
  · exact ⟨fun h => absurd h (by decide), fun h => absurd h (by decide)⟩
  · exact ⟨fun h => absurd h (by decide), fun h => absurd h (by decide)⟩
  · exact ⟨fun _ => h₃, fun h => absurd h (by decide)⟩
  · exact ⟨fun h => absurd h (by decide), fun h => absurd h (by decide)⟩
  · exact ⟨fun h => absurd h (by decide), fun _ => Int.lt_of_not_ge h₄⟩

theorem RateStep.val_raised (old new : BitVec 32) : (RateStep.raised old new).rate.val = new := rfl

theorem timelyAdjust_spec {slowstart : Bool} (haiCnt rate : BitVec 32) (hg : gradient.IsInt g) (hle : g.natAbs ≤ 99999 * 32767)
    (hbranch : branch = timelyBranch cfg slowstart newRtt gradient.val) :
    (timelyAdjust cfg branch haiCnt newRtt rate gradient).rate.ok = true ∧
      (branch.raises = false → (timelyAdjust cfg branch haiCnt newRtt rate gradient).raise = none ∧
        (timelyAdjust cfg branch haiCnt newRtt rate gradient).rate.val.toNat ≤ rate.toNat) ∧
      (branch.raises = true → timelyAdjust cfg branch haiCnt newRtt rate gradient =
        .raised rate (rate + timelyIncrement cfg haiCnt rate branch)) := by
  obtain ⟨hhigh, hrising⟩ := timelyBranch_cases cfg slowstart newRtt gradient.val
  rw [← hbranch] at hhigh hrising
  cases branch with
  | slowStart | belowTlow | falling => exact ⟨rfl, fun h => absurd h (by decide), fun _ => rfl⟩
  | aboveThigh =>
    obtain ⟨hok, hval⟩ := timelyHigh_spec rate (hhigh rfl)
    exact ⟨hok, fun _ => ⟨rfl, hval⟩, fun h => absurd h (by decide)⟩
  | rising =>
    obtain ⟨hok, hval⟩ := timelyDecrease_spec cfg rate hg (hg.val ▸ hrising rfl) hle
    exact ⟨hok, fun _ => ⟨rfl, hval⟩, fun h => absurd h (by decide)⟩

end Branches

/-! ## Updates -/

/-- What holds of an update that works with the rate `old` and takes this branch. -/
structure TimelyUpdated (cfg : CcConfig) (old : BitVec 32) (branch : TimelyBranch) (u : Updated Timely) : Prop where
  exact : u.exact = true
  diff : u.conn.cc.rttDiff.toInt.natAbs < 100000
  least : max cfg.timelyMinRate.toNat (old.toNat / 2) ≤ u.conn.rate.toNat
  lowered : branch.raises = false → u.conn.rate.toNat ≤ max old.toNat cfg.timelyMinRate.toNat
  raised : branch.raises = true → old.toNat ≤ u.conn.rate.toNat

/-- Statistics, and the time they are read at. -/
structure CcOp where
  stats : ConnStats
  curTs : BitVec 32

def timelyStep (cfg : CcConfig) (c : CcConn Timely) (op : CcOp) : Option (CcConn Timely) :=
  (timelyUpdate cfg c op.stats op.curTs).map (·.conn)

/-- A branch that raises the rate `old`: the sum with what it adds fits 32 bits, or the rate is at most the minimum anyway. -/
def TimelyRaises (cfg : CcConfig) (haiCnt old : BitVec 32) (branch : TimelyBranch) : Prop :=
  branch.raises = true → old.toNat ≤ cfg.timelyMinRate.toNat ∨
    old.toNat + (timelyIncrement cfg haiCnt old branch).toNat < 2 ^ 32
deriving Decidable

/-- The branch that the update takes does not wrap. -/
def TimelyFits (cfg : CcConfig) (c : CcConn Timely) (op : CcOp) : Prop :=
  ∀ act ∈ measuredRate op.stats.ackb c.cc.lastTs op.curTs, ∀ g ∈ timelyGradient cfg c.cc op.stats.rtt,
    TimelyRaises cfg c.cc.haiCnt (timelyRate cfg c op.stats.rtt act) (c.branch cfg op.stats.rtt g.2)

-- the instance for options by name: the other one for `∀ act` goes through all the words
instance (cfg : CcConfig) (c : CcConn Timely) (op : CcOp) : Decidable (TimelyFits cfg c op) :=
  @Option.decidableForallMem _ _ (fun _ => Option.decidableForallMem _) _

section Updates

variable {cfg : CcConfig} {c : CcConn Timely} {op : CcOp} {newRtt curTs act : BitVec 32} {diff : Checked 32}
  {gradient : Checked 64} {g : Int}

theorem sub_ne_zero_of_ne {lastTs : BitVec 32} (h : curTs ≠ lastTs) : curTs - lastTs ≠ 0 := by
  intro hzero
  have hcancel := BitVec.sub_add_cancel curTs lastTs
  rw [hzero] at hcancel
  exact h ((BitVec.zero_add lastTs).symm.trans hcancel).symm

theorem measuredRate_isSome {lastTs : BitVec 32} (ackb : BitVec 32) (h : lastTs ≠ 0 → curTs ≠ lastTs) :
    ∃ act, measuredRate ackb lastTs curTs = some act := by
  rw [measuredRate]
  split_ifs with h₁ h₂
  · exact ⟨_, rfl⟩
  · exact absurd h₂ (sub_ne_zero_of_ne (h h₁))
  · exact ⟨_, rfl⟩

theorem measuredRate_dt {ackb lastTs : BitVec 32} (h : measuredRate ackb lastTs curTs = some act) (hne : lastTs ≠ 0) :
    curTs ≠ lastTs := by
  rintro rfl
  rw [measuredRate, if_neg hne, if_pos (show curTs - curTs = 0 from BitVec.sub_self curTs)] at h
  cases h

/-- The branches, for a gradient that is exact and in range: all but the sum of a branch that raises
the rate is within its bounds. -/
theorem timelyApply_spec (hdok : diff.ok = true) (hdiff : diff.val.toInt.natAbs < 100000) (hg : gradient.IsInt g)
    (hle : g.natAbs ≤ 99999 * 32767) :
    TimelyUpdated cfg (timelyRate cfg c newRtt act) (c.branch cfg newRtt gradient)
        (timelyApply cfg c newRtt curTs act diff gradient) ↔
      TimelyRaises cfg c.cc.haiCnt (timelyRate cfg c newRtt act) (c.branch cfg newRtt gradient) := by
  obtain ⟨hok, hlow, hraise⟩ := timelyAdjust_spec c.cc.haiCnt (timelyRate cfg c newRtt act) hg hle
    (rfl : c.branch cfg newRtt gradient = _)
  have hrate : (timelyApply cfg c newRtt curTs act diff gradient).conn.rate.toNat =
      max cfg.timelyMinRate.toNat (max ((timelyRate cfg c newRtt act).toNat / 2) (timelyAdjust cfg
        (c.branch cfg newRtt gradient) c.cc.haiCnt newRtt (timelyRate cfg c newRtt act) gradient).rate.val.toNat) := by
    rw [timelyApply, atLeast_toNat, atLeast_toNat, toNat_udiv]
    rfl
  constructor
  · intro hupdated hb
    have hle := hupdated.raised hb
    rw [hrate, hraise hb, RateStep.val_raised, toNat_add] at hle
    omega
  · intro hfits
    refine ⟨?_, hdiff, ?_, fun hb => ?_, fun hb => ?_⟩
    · show (diff.ok && gradient.ok && _) = true
      rw [hdok, hg.ok, hok]
      rfl
    · rw [hrate]
      omega
    · have := (hlow hb).2
      rw [hrate]
      omega
    · rw [hrate, hraise hb, RateStep.val_raised, toNat_add]
      rcases hfits hb with hmin | hsum
      · omega
      · rw [Nat.mod_eq_of_lt hsum]
        omega

/-- An update with a round trip time goes through after an interval that is not empty, and is within its bounds if
its branch does not wrap. -/
theorem timelyUpdate_spec (h : TimelyInv c.cc) (hmin : cfg.timelyMinRtt ≠ 0) (hrtt : op.stats.rtt.toNat < 100000)
    (hne : op.stats.rtt ≠ 0) :
    (∃ act g u, measuredRate op.stats.ackb c.cc.lastTs op.curTs = some act ∧
      timelyGradient cfg c.cc op.stats.rtt = some g ∧ timelyUpdate cfg c op.stats op.curTs = some u ∧
      TimelyUpdated cfg (timelyRate cfg c op.stats.rtt act) (c.branch cfg op.stats.rtt g.2) u) ↔
    (c.cc.lastTs ≠ 0 → op.curTs ≠ c.cc.lastTs) ∧ TimelyFits cfg c op := by
  obtain ⟨⟨diff, gradient⟩, hgrad⟩ := timelyGradient_isSome c.cc op.stats.rtt hmin
  obtain ⟨hdok, hdiff, g, hg, hle⟩ := timelyGradient_spec h hrtt hgrad
  have hupd : ∀ act, measuredRate op.stats.ackb c.cc.lastTs op.curTs = some act →
      timelyUpdate cfg c op.stats op.curTs = some (timelyApply cfg c op.stats.rtt op.curTs act diff gradient) := by
    intro act hact
    rw [timelyUpdate, hact, bind_some, if_neg hne, hgrad]
    rfl
  have hbounds : ∀ act, TimelyUpdated cfg (timelyRate cfg c op.stats.rtt act) (c.branch cfg op.stats.rtt gradient)
        (timelyApply cfg c op.stats.rtt op.curTs act diff gradient) ↔
      TimelyRaises cfg c.cc.haiCnt (timelyRate cfg c op.stats.rtt act) (c.branch cfg op.stats.rtt gradient) :=
    fun act => timelyApply_spec hdok hdiff hg hle
  constructor
  · rintro ⟨act, g', u, hact, hgrad', hu, hupdated⟩
    refine ⟨measuredRate_dt hact, fun act' hact' g'' hgrad'' => ?_⟩
    cases hgrad.symm.trans hgrad'
    cases hgrad.symm.trans hgrad''
    cases hact.symm.trans hact'
    cases (hupd act hact).symm.trans hu
    exact (hbounds act).mp hupdated
  · rintro ⟨hdt, hfits⟩
    obtain ⟨act, hact⟩ := measuredRate_isSome op.stats.ackb hdt
    have hraises := hfits act hact (diff, gradient) hgrad
    exact ⟨act, (diff, gradient), _, hact, hgrad, hupd act hact, (hbounds act).mpr hraises⟩

/-- Every update keeps the differences of round trip times in range. -/
theorem timelyUpdate_inv {stats : ConnStats} {u : Updated Timely} (h : TimelyInv c.cc) (hrtt : stats.rtt.toNat < 100000)
    (hu : timelyUpdate cfg c stats curTs = some u) : TimelyInv u.conn.cc := by
  obtain ⟨act, -, hu⟩ := bind_eq_some_iff.mp hu
  split_ifs at hu with hzero
  · cases hu
    exact ⟨h.prev, h.diff⟩
  · obtain ⟨grad, hgrad, rfl⟩ := map_eq_some_iff.mp hu
    exact ⟨hrtt, (timelyGradient_spec h hrtt hgrad).2.1⟩

theorem timelyStep_inv (c : CcConn Timely) (op : CcOp) (c' : CcConn Timely) (h : TimelyInv c.cc)
    (hrtt : op.stats.rtt.toNat < 100000) (hs : timelyStep cfg c op = some c') : TimelyInv c'.cc := by
  obtain ⟨u, hu, rfl⟩ := map_eq_some_iff.mp hs
  exact timelyUpdate_inv h hrtt hu

/-- `timely_init` leaves no difference of round trip times. -/
theorem timelyInit_inv (cfg : CcConfig) (c : CcConn Timely) : TimelyInv (timelyInit cfg c).cc :=
  ⟨show (0 : BitVec 32).toNat < 100000 by decide, show (0 : BitVec 32).toInt.natAbs < 100000 by decide⟩

end Updates

/-- In a state that is reachable from `timely_init`, an update overflows no signed word, has a difference of round trip
times below 100 ms and a rate of at least the minimum and half of what it was, and moves the rate the way
of its branch, exactly when the interval is not empty and the branch does not wrap. -/
theorem timely_bounded_iff {cfg : CcConfig} (hmin : cfg.timelyMinRtt ≠ 0) {c s : CcConn Timely} {ops : List CcOp} {op : CcOp}
    (hrtt : ∀ o ∈ op :: ops, o.stats.rtt < tcpMaxRtt) (hs : Run.exec (timelyStep cfg) (timelyInit cfg c) ops = some s)
    (hne : op.stats.rtt ≠ 0) :
    (∃ act g u, measuredRate op.stats.ackb s.cc.lastTs op.curTs = some act ∧
      timelyGradient cfg s.cc op.stats.rtt = some g ∧ timelyUpdate cfg s op.stats op.curTs = some u ∧
      TimelyUpdated cfg (timelyRate cfg s op.stats.rtt act) (s.branch cfg op.stats.rtt g.2) u) ↔
    (s.cc.lastTs ≠ 0 → op.curTs ≠ s.cc.lastTs) ∧ TimelyFits cfg s op := by
  have hall : Run.All (timelyStep cfg) (fun _ o => o.stats.rtt.toNat < 100000) (timelyInit cfg c) ops :=
    .of_mem fun o ho => hrtt o (List.mem_cons_of_mem _ ho)
  have hinv : TimelyInv s.cc := Run.exec_inv (I := fun c => TimelyInv c.cc) timelyStep_inv (timelyInit_inv cfg c) hall hs
  exact timelyUpdate_spec hinv hmin (hrtt op (List.mem_cons_self ..)) hne

/-- An update with round trip time `rtt`, after 10000 bytes were acknowledged. -/
def timelyOp (rtt curTs : BitVec 32) : CcOp := ⟨⟨0, 8, 10000, 0, true, rtt⟩, curTs⟩

/-- Slow start, a round trip time above `Thigh`, and a falling one. -/
theorem timely_bounded_iff_falling : ∃ s, Run.exec (timelyStep ccDefaults) (timelyInit ccDefaults (freshConn ⟨0, 0, 0, 0, 0, false⟩))
      [timelyOp 50 2000, timelyOp 60 3000, timelyOp 200 4000] = some s ∧
    ∃ act g u, measuredRate 10000 s.cc.lastTs 5000 = some act ∧ timelyGradient ccDefaults s.cc 140 = some g ∧
      timelyUpdate ccDefaults s (timelyOp 140 5000).stats 5000 = some u ∧
      TimelyUpdated ccDefaults (timelyRate ccDefaults s 140 act) (s.branch ccDefaults 140 g.2) u := by
  obtain ⟨s, hs, hts, hfits⟩ : ∃ s, Run.exec (timelyStep ccDefaults) (timelyInit ccDefaults (freshConn ⟨0, 0, 0, 0, 0, false⟩))
      [timelyOp 50 2000, timelyOp 60 3000, timelyOp 200 4000] = some s ∧ s.cc.lastTs ≠ 5000 ∧
      TimelyFits ccDefaults s (timelyOp 140 5000) := by decide +kernel
  exact ⟨s, hs, (@timely_bounded_iff ccDefaults (by decide) _ s _ (timelyOp 140 5000) (by decide) hs (by decide)).mpr
    ⟨fun _ => hts.symm, hfits⟩⟩

/-- With the default values slow start comes to a rate of more than 2^31, and doubling that wraps. -/
theorem timely_wraps : ¬ ∀ (cfg : CcConfig), cfg.timelyMinRtt ≠ 0 → ∀ (c s : CcConn Timely) (ops : List CcOp) (op : CcOp),
    (∀ o ∈ op :: ops, o.stats.rtt < tcpMaxRtt) → Run.exec (timelyStep cfg) (timelyInit cfg c) ops = some s →
    op.stats.rtt ≠ 0 → (s.cc.lastTs ≠ 0 → op.curTs ≠ s.cc.lastTs) →
    ∃ act g u, measuredRate op.stats.ackb s.cc.lastTs op.curTs = some act ∧
      timelyGradient cfg s.cc op.stats.rtt = some g ∧ timelyUpdate cfg s op.stats op.curTs = some u ∧
      TimelyUpdated cfg (timelyRate cfg s op.stats.rtt act) (s.branch cfg op.stats.rtt g.2) u := by
  intro h
  obtain ⟨s, hs, hts, hrate, hslow, hupd⟩ : ∃ s,
      Run.exec (timelyStep ccDefaults) (timelyInit ccDefaults (freshConn ⟨0, 0, 0, 0, 0, false⟩))
        ((List.range 18).map fun i => timelyOp 50 (BitVec.ofNat 32 (1000 + 100 * i))) = some s ∧ s.cc.lastTs ≠ 9000 ∧
      s.rate = 2621440000 ∧ timelySlowstart ccDefaults s.cc 50 = true ∧
      (timelyUpdate ccDefaults s (timelyOp 50 9000).stats 9000).map (·.conn.rate) = some 1310720000 := by
    decide +kernel
  obtain ⟨act, g, u, -, -, hu, hupdated⟩ :=
    h ccDefaults (by decide) (freshConn ⟨0, 0, 0, 0, 0, false⟩) s _ (timelyOp 50 9000) (by decide) hs (by decide) fun _ => hts.symm
  have hold : timelyRate ccDefaults s 50 act = 2621440000 := by rw [timelyRate, if_pos hslow, hrate]
  have hraises : (s.branch ccDefaults 50 g.2).raises = true := by rw [CcConn.branch, timelyBranch, if_pos hslow]; rfl
  have hle := hupdated.raised hraises
  have hu' : timelyUpdate ccDefaults s (timelyOp 50 9000).stats 9000 = some u := hu
  rw [hu', map_some, some.injEq] at hupd
  rw [hupd, show timelyRate ccDefaults s (timelyOp 50 9000).stats.rtt act = 2621440000 from hold] at hle
  exact absurd hle (by decide)

end TasNic
