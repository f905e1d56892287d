import TasNic.Slow.Timely

/-!
# The limit of a rate

The queue manager takes a rate of 0 for no limit. DCTCP with a rate and TIMELY compute the rate of a flow from the one
that was measured (`measured_rate_iff`), and a fast retransmit halves it.

An update is a move (`RateMove`): from the rate after the clamp to the measured one, up by an increment or down by at
most a half. It keeps the limit (`poll_spec`) if the rate before, the rate used and the configuration leave room for
the increment (`RaiseFits`) and something to be lowered (`LowerFits`), and so does a run of such updates
(`rate_limit_kept`).
-/

namespace TasNic

open Checked Option

/-! ## The measured rate -/

/-- An update that measures the rate of `b` bytes since `lastTs`, with the average `old` before and `new` after it. -/
inductive RateUpdate (cfg : CcConfig) (stats : ConnStats) (curTs : BitVec 32) : (b lastTs old new : BitVec 32) → Prop
  | dctcp (c : CcConn DctcpRate) (u : Updated DctcpRate) (hacks : ¬ (rateStats c.cc stats).acks < cfg.dctcpMinpkts)
      (hu : dctcpRateUpdate cfg c stats curTs = some u) :
      RateUpdate cfg stats curTs (rateStats c.cc stats).ackb c.lastTs c.cc.actRate u.conn.cc.actRate
  | timely (c : CcConn Timely) (u : Updated Timely) (hu : timelyUpdate cfg c stats curTs = some u) :
      RateUpdate cfg stats curTs stats.ackb c.cc.lastTs c.cc.actRate u.conn.cc.actRate

/-- The words that the measured rate and its average are computed in do not wrap, or the average is so far above the
rate that what is lost leaves it there; the time stamp 0 stands for none. -/
def MeasureFits (b lastTs curTs old : BitVec 32) : Prop :=
  let dt := (curTs - lastTs).toNat
  let rate := 8000 * b.toNat / dt
  8000 * b.toNat < 2 ^ 32 ∧ (lastTs = 0 → 8000 * b.toNat < dt) ∧
    (7 * old.toNat + rate < 2 ^ 32 ∨
      rate ≤ old.toNat ∧ (7 * old.toNat + rate) / 2 ^ 32 * 2 ^ 32 ≤ 7 * (old.toNat - rate))

section Measure

variable {cfg : CcConfig} {stats : ConnStats} {b lastTs curTs old new act : BitVec 32}

theorem RateUpdate.measured (h : RateUpdate cfg stats curTs b lastTs old new) :
    ∃ act, measuredRate b lastTs curTs = some act ∧ new = smoothedRate old act := by
  cases h with
  | dctcp c u hacks hu =>
    rw [dctcpRateUpdate] at hu
    rw [if_neg hacks] at hu
    obtain ⟨act, hact, rfl⟩ := map_eq_some_iff.mp hu
    exact ⟨act, hact, rfl⟩
  | timely c u hu =>
    obtain ⟨act, hact, hu⟩ := bind_eq_some_iff.mp hu
    refine ⟨act, hact, ?_⟩
    split_ifs at hu
    · cases hu
      rfl
    · obtain ⟨g, -, rfl⟩ := map_eq_some_iff.mp hu
      rfl

theorem toNat_mul_8000 (b : BitVec 32) : (b * 8 * 1000).toNat = 8000 * b.toNat % 2 ^ 32 := by
  rw [BitVec.toNat_mul, BitVec.toNat_mul, Nat.mod_mul_mod, show (8 : BitVec 32).toNat = 8 from rfl,
    show (1000 : BitVec 32).toNat = 1000 from rfl]
  congr 1
  omega

/-- A product that wraps is too small by more than the interval. -/
theorem mod_div_eq_iff {n dt : Nat} (hpos : 0 < dt) (hdt : dt < 2 ^ 32) : n % 2 ^ 32 / dt = n / dt ↔ n < 2 ^ 32 := by
  constructor
  · intro h
    by_contra hge
    have hstep : (n % 2 ^ 32 + dt) / dt ≤ n / dt := Nat.div_le_div_right (by omega)
    rw [Nat.add_div_right _ hpos] at hstep
    omega
  · intro h
    rw [Nat.mod_eq_of_lt h]

/-- The rate is exact if the product does not wrap; at the time stamp 0 it is taken for 0. -/
theorem measuredRate_eq_iff (hdt : curTs ≠ lastTs) (h : measuredRate b lastTs curTs = some act) :
    act.toNat = 8000 * b.toNat / (curTs - lastTs).toNat ↔
      8000 * b.toNat < 2 ^ 32 ∧ (lastTs = 0 → 8000 * b.toNat < (curTs - lastTs).toNat) := by
  have hpos : 0 < (curTs - lastTs).toNat :=
    Nat.pos_of_ne_zero fun e => sub_ne_zero_of_ne hdt (BitVec.eq_of_toNat_eq e)
  have hlt := (curTs - lastTs).isLt
  rw [measuredRate] at h
  split_ifs at h with hzero
  · cases h
    rw [show (0 : BitVec 32).toNat = 0 from rfl, eq_comm, Nat.div_eq_zero_iff]
    constructor
    · intro h
      exact ⟨by omega, fun _ => by omega⟩
    · rintro ⟨-, h⟩
      exact .inr (h hzero)
  · cases h
    rw [BitVec.toNat_udiv, toNat_mul_8000, mod_div_eq_iff hpos hlt]
    exact ⟨fun h => ⟨h, fun e => absurd e hzero⟩, And.left⟩

/-- The average is between the two rates, unless the sum wraps too far. -/
theorem smoothedRate_between_iff : (min old.toNat act.toNat ≤ (smoothedRate old act).toNat ∧
      (smoothedRate old act).toNat ≤ max old.toNat act.toNat) ↔
    (7 * old.toNat + act.toNat < 2 ^ 32 ∨
      act.toNat ≤ old.toNat ∧ (7 * old.toNat + act.toNat) / 2 ^ 32 * 2 ^ 32 ≤ 7 * (old.toNat - act.toNat)) := by
  have hsum : (smoothedRate old act).toNat = (7 * old.toNat + act.toNat) % 2 ^ 32 / 8 := by
    rw [smoothedRate, BitVec.toNat_udiv, BitVec.toNat_add, BitVec.toNat_mul, Nat.mod_add_mod,
      show (7 : BitVec 32).toNat = 7 from rfl, show (8 : BitVec 32).toNat = 8 from rfl]
  have hsplit := Nat.div_add_mod (7 * old.toNat + act.toNat) (2 ^ 32)
  have hrest : (7 * old.toNat + act.toNat) % 2 ^ 32 < 2 ^ 32 := Nat.mod_lt _ (by decide)
  rw [hsum]
  rcases Nat.le_total old.toNat act.toNat with hle | hle
  · rw [Nat.min_eq_left hle, Nat.max_eq_right hle]
    omega
  · rw [Nat.min_eq_right hle, Nat.max_eq_left hle]
    omega

end Measure

/-- DCTCP and TIMELY measure the rate exactly, and keep the average between the one before and the rate,
exactly when the words do not wrap. -/
theorem measured_rate_iff {cfg : CcConfig} {stats : ConnStats} {b lastTs curTs old new : BitVec 32}
    (hu : RateUpdate cfg stats curTs b lastTs old new) (hdt : curTs ≠ lastTs) :
    (∃ act, measuredRate b lastTs curTs = some act ∧ act.toNat = 8000 * b.toNat / (curTs - lastTs).toNat ∧
      min old.toNat act.toNat ≤ new.toNat ∧ new.toNat ≤ max old.toNat act.toNat) ↔ MeasureFits b lastTs curTs old := by
  obtain ⟨act, hact, rfl⟩ := hu.measured
  constructor
  · rintro ⟨act', hact', heq, hbetween⟩
    cases hact.symm.trans hact'
    obtain ⟨hfits, hzero⟩ := (measuredRate_eq_iff hdt hact).mp heq
    have hsum := smoothedRate_between_iff.mp hbetween
    rw [heq] at hsum
    exact ⟨hfits, hzero, hsum⟩
  · rintro ⟨hfits, hzero, hsum⟩
    have heq := (measuredRate_eq_iff hdt hact).mpr ⟨hfits, hzero⟩
    refine ⟨act, hact, heq, smoothedRate_between_iff.mpr ?_⟩
    rw [heq]
    exact hsum

/-- A connection under TIMELY without an estimate of the round trip time. -/
def unmeasured (lastTs actRate : BitVec 32) : CcConn Timely := freshConn ⟨0, 0, 0, actRate, lastTs, true⟩

/-- 10000 bytes in a millisecond, after an average of 90 Mbit/s. -/
theorem measured_rate_iff_average : ∃ act, measuredRate 10000 1000 2000 = some act ∧
    act.toNat = 8000 * (10000 : BitVec 32).toNat / ((2000 : BitVec 32) - 1000).toNat ∧
    min (90000 : BitVec 32).toNat act.toNat ≤ (88750 : BitVec 32).toNat ∧
    (88750 : BitVec 32).toNat ≤ max (90000 : BitVec 32).toNat act.toNat := by
  have hu : RateUpdate ccDefaults ⟨0, 8, 10000, 0, true, 0⟩ 2000 10000 1000 90000 88750 :=
    .timely (unmeasured 1000 90000) ⟨unmeasured 1000 88750, true, none⟩ (by decide)
  exact (measured_rate_iff hu (by decide)).mpr ⟨by decide, by decide, .inl (by decide)⟩

/-- The rate of 536871 bytes in 10 ms is measured as 0. -/
theorem measured_rate_wraps : ¬ ∀ (cfg : CcConfig) (stats : ConnStats) (b lastTs curTs old new : BitVec 32),
    RateUpdate cfg stats curTs b lastTs old new → curTs ≠ lastTs → 8000 * b.toNat / (curTs - lastTs).toNat < 2 ^ 32 →
    ∃ act, measuredRate b lastTs curTs = some act ∧ act.toNat = 8000 * b.toNat / (curTs - lastTs).toNat ∧
      min old.toNat act.toNat ≤ new.toNat ∧ new.toNat ≤ max old.toNat act.toNat := by
  intro h
  have hu : RateUpdate ccDefaults ⟨0, 8, 536871, 0, true, 0⟩ 11000 536871 1000 0 0 :=
    .timely (unmeasured 1000 0) ⟨unmeasured 1000 0, true, none⟩ (by decide)
  obtain ⟨act, hact, hrate, -⟩ := h _ _ _ _ _ _ _ hu (by decide) (by decide)
  have hzero : measuredRate 536871 1000 11000 = some 0 := by decide
  cases hzero.symm.trans hact
  exact absurd hrate (by decide)

/-! ## Moves -/

/-- A move of the rate `old`: up by `inc`, or down, which leaves `one` of the rate 1. -/
structure RateMove where
  old : BitVec 32
  inc : BitVec 32
  raises : Bool
  one : BitVec 32

/-- The move does not wrap, and does not come to 0 unless there is a minimum. -/
def RateMove.Fits (min : BitVec 32) (m : RateMove) : Prop :=
  (m.raises = true → m.old.toNat + m.inc.toNat < 2 ^ 32 ∧ (min = 0 → m.old ≠ 0 ∨ m.inc ≠ 0)) ∧
    (m.raises = false → min = 0 → 2 ≤ m.old.toNat ∨ m.old = 1 ∧ m.one ≠ 0)

/-- What an update makes of a move: the new rate and, if it was to be raised, the rate before and after that. -/
structure RateMove.Done (min : BitVec 32) (m : RateMove) (new : BitVec 32) (raise : Option (BitVec 32 × BitVec 32)) : Prop where
  least : min.toNat ≤ new.toNat
  raised : m.raises = true → raise = some (m.old, m.old + m.inc) ∧ (m.old + m.inc).toNat ≤ new.toNat
  lowered : m.raises = false → raise = none ∧ new.toNat ≤ max m.old.toNat min.toNat ∧
    (2 ≤ m.old.toNat ∨ m.old = 1 ∧ m.one ≠ 0 → 0 < new.toNat)

theorem RateMove.Fits.kept {min new : BitVec 32} {m : RateMove} {raise : Option (BitVec 32 × BitVec 32)} (h : m.Fits min)
    (hdone : m.Done min new raise) : 0 < new.toNat ∧ ∀ p ∈ raise, p.1 ≤ p.2 := by
  have hmin : ¬ 0 < new.toNat → min = 0 := fun hnew =>
    BitVec.eq_of_toNat_eq (Nat.le_zero.mp (Nat.le_trans hdone.least (Nat.le_of_not_lt hnew)))
  cases hup : m.raises with
  | true =>
    obtain ⟨hwrap, hzero⟩ := h.1 hup
    obtain ⟨rfl, hsum⟩ := hdone.raised hup
    have hadd : (m.old + m.inc).toNat = m.old.toNat + m.inc.toNat := by
      rw [BitVec.toNat_add, Nat.mod_eq_of_lt hwrap]
    refine ⟨?_, ?_⟩
    · by_contra hnew
      obtain hne | hne := hzero (hmin hnew)
      · exact hne (BitVec.eq_of_toNat_eq (show m.old.toNat = 0 by omega))
      · exact hne (BitVec.eq_of_toNat_eq (show m.inc.toNat = 0 by omega))
    · rintro p ⟨⟩
      show m.old.toNat ≤ (m.old + m.inc).toNat
      omega
  | false =>
    obtain ⟨rfl, -, hpos⟩ := hdone.lowered hup
    refine ⟨?_, fun p hp => absurd hp (by simp)⟩
    by_contra hnew
    exact hnew (hpos (h.2 hup (hmin hnew)))

theorem RateMove.done_raised {min old inc new one : BitVec 32} (h : (old + inc).toNat ≤ new.toNat) :
    RateMove.Done min ⟨old, inc, true, one⟩ (atLeast min new) (some (old, old + inc)) := by
  have hnew := atLeast_toNat min new
  exact ⟨by omega, fun _ => ⟨rfl, by dsimp only; omega⟩, fun h => absurd h.symm Bool.false_ne_true⟩

theorem RateMove.done_lowered {min old inc new one : BitVec 32} (h : new.toNat ≤ old.toNat)
    (hpos : 2 ≤ old.toNat ∨ old = 1 ∧ one ≠ 0 → 0 < new.toNat) :
    RateMove.Done min ⟨old, inc, false, one⟩ (atLeast min new) none := by
  have hnew := atLeast_toNat min new
  refine ⟨by omega, fun h => absurd h Bool.false_ne_true, fun _ => ⟨rfl, ?_, fun hold => ?_⟩⟩
  · dsimp only
    omega
  · have := hpos hold
    omega

/-- Without a minimum, the step is to leave a rate: `limit` is 1.2 times the rate that was used. The increment of the
rate before, or of the limit, does not wrap, and if nothing was used there is one. -/
def RaiseFits (min rate : BitVec 32) (limit : Nat) (inc : BitVec 32 → BitVec 32) : Prop :=
  (rate.toNat + (inc rate).toNat < 2 ^ 32 ∨ limit + (inc (.ofNat 32 limit)).toNat < 2 ^ 32) ∧
    (min = 0 → 0 < limit ∨ inc 0 ≠ 0)
deriving Decidable

/-- A rate that is lowered and the limit are at least 2, or 1 and the rate 1 is left as it is. -/
def LowerFits (min rate : BitVec 32) (limit : Nat) (one : BitVec 32) : Prop :=
  min = 0 → 2 ≤ rate.toNat ∧ 2 ≤ limit ∨ 0 < limit ∧ one ≠ 0
deriving Decidable

section Fits

variable {min rate old : BitVec 32} {limit : Nat}

theorem RaiseFits.fits {inc : BitVec 32 → BitVec 32} (h : RaiseFits min rate limit inc) (hrate : 0 < rate.toNat)
    (hold : old.toNat = Nat.min rate.toNat limit)
    (hmono : ∀ y : BitVec 32, old.toNat ≤ y.toNat → y.toNat + (inc y).toNat < 2 ^ 32 →
      old.toNat + (inc old).toNat < 2 ^ 32) (one : BitVec 32) : RateMove.Fits min ⟨old, inc old, true, one⟩ := by
  obtain ⟨hwrap, hzero⟩ := h
  have hle := Nat.min_le_left rate.toNat limit
  have hle' := Nat.min_le_right rate.toNat limit
  refine ⟨fun _ => ⟨?_, fun hmin => ?_⟩, fun h => absurd h.symm Bool.false_ne_true⟩
  · rcases hwrap with h | h
    · exact hmono rate (hold ▸ hle) h
    · have hto : (BitVec.ofNat 32 limit).toNat = limit := by
        rw [BitVec.toNat_ofNat]
        omega
      refine hmono (.ofNat 32 limit) ?_ (by rwa [hto])
      rw [hto, hold]
      exact hle'
  · by_cases h0 : old = 0
    · rcases hzero hmin with h | h
      · have : 0 < old.toNat := hold ▸ Nat.lt_min.mpr ⟨hrate, h⟩
        rw [h0] at this
        exact absurd this (by decide)
      · exact .inr (h0 ▸ h)
    · exact .inl h0

theorem LowerFits.fits {one : BitVec 32} (h : LowerFits min rate limit one) (hrate : 0 < rate.toNat)
    (hold : old.toNat = Nat.min rate.toNat limit) (inc : BitVec 32) : RateMove.Fits min ⟨old, inc, false, one⟩ := by
  refine ⟨fun h => absurd h Bool.false_ne_true, fun _ hmin => ?_⟩
  rcases h hmin with h | ⟨h, hone⟩
  · exact .inl (hold ▸ Nat.le_min.mpr h)
  · have hpos : 0 < old.toNat := hold ▸ Nat.lt_min.mpr ⟨hrate, h⟩
    by_cases h1 : old.toNat = 1
    · exact .inr ⟨BitVec.eq_of_toNat_eq h1, hone⟩
    · exact .inl (show 2 ≤ old.toNat by omega)

end Fits

/-! ## Connections with a rate -/

/-- 1.2 times the rate that was used, with the average before and the measured rate. -/
def rateLimit (avg act : BitVec 32) : Nat := 12 * (usedRate avg act).toNat / 10

/-- TIMELY's slow start does not clamp the rate. -/
def timelyLimit (cfg : CcConfig) (c : CcConn Timely) (newRtt act : BitVec 32) : Nat :=
  if timelySlowstart cfg c.cc newRtt then c.rate.toNat else rateLimit c.cc.actRate act

/-- A connection under one of the two algorithms. -/
inductive RateConn where
  | dctcp (c : CcConn DctcpRate)
  | timely (c : CcConn Timely)
deriving DecidableEq

/-- What `dctcp_rate_update` adds to the rate without congestion. -/
def rateIncrement (cfg : CcConfig) (slowstart : Bool) (rate : BitVec 32) : BitVec 32 :=
  if slowstart then if rate ≤ rate * 2 then rate else uint32Max - rate
  else if cfg.dctcpMimd = 0 then cfg.dctcpStep
  else (scaled rate cfg.dctcpMimd).val.setWidth 32

namespace RateConn

def rate : RateConn → BitVec 32
  | dctcp c => c.rate
  | timely c => c.rate

/-- `dctcp_rate_init` and `timely_init`. -/
def init (cfg : CcConfig) : RateConn → RateConn
  | dctcp c => dctcp (dctcpRateInit cfg c)
  | timely c => timely (timelyInit cfg c)

/-- The turn of a connection in `cc_poll`: its new state and, if the rate was to be raised, the rate before and after. -/
def poll (cfg : CcConfig) (stats : ConnStats) (rexmits curTs : BitVec 32) :
    RateConn → Option (RateConn × Option (BitVec 32 × BitVec 32))
  | dctcp c => (dctcpRateUpdate cfg { c with rexmits := rexmits } stats curTs).map fun u =>
    (dctcp { u.conn with lastTs := curTs }, u.raise)
  | timely c => (timelyUpdate cfg { c with rexmits := rexmits } stats curTs).map fun u =>
    (timely { u.conn with lastTs := curTs }, u.raise)

def minRate (cfg : CcConfig) : RateConn → BitVec 32
  | dctcp _ => cfg.dctcpMin
  | timely _ => cfg.timelyMinRate

/-- The move of the rate that an update is about to make, if it makes one. -/
def move (cfg : CcConfig) (stats : ConnStats) (rexmits curTs : BitVec 32) : RateConn → Option RateMove
  | dctcp c =>
    let s := rateStats c.cc stats
    if s.acks < cfg.dctcpMinpkts then none
    else (measuredRate s.ackb c.lastTs curTs).map fun act =>
      let old := clampRate c.rate (usedRate c.cc.actRate act)
      ⟨old, rateIncrement cfg c.cc.slowstart old, !s.congested rexmits,
        (rateAvoid cfg s rexmits c.cc.ecnRate 1).1.rate.val⟩
  | timely c =>
    if stats.rtt = 0 then none
    else (measuredRate stats.ackb c.cc.lastTs curTs).bind fun act =>
      (timelyGradient cfg c.cc stats.rtt).map fun g =>
        let old := timelyRate cfg c stats.rtt act
        let branch := c.branch cfg stats.rtt g.2
        ⟨old, timelyIncrement cfg c.cc.haiCnt old branch, branch.raises,
          (timelyAdjust cfg branch c.cc.haiCnt stats.rtt 1 g.2).rate.val⟩

def congested (cfg : CcConfig) (stats : ConnStats) (rexmits : BitVec 32) : RateConn → Bool
  | dctcp c => (rateStats c.cc stats).congested rexmits
  | timely c => (timelyGradient cfg c.cc stats.rtt).any fun g => !(c.branch cfg stats.rtt g.2).raises

/-- The condition for an update, if it is one that makes a new rate: on `cc_rate`, the rate that was used by the bytes
acknowledged and the time since the last update, and the configuration. -/
def Fits (cfg : CcConfig) (stats : ConnStats) (rexmits curTs : BitVec 32) : RateConn → Prop
  | dctcp c =>
    cfg.dctcpMinpkts ≤ (rateStats c.cc stats).acks → ∀ act ∈ measuredRate (rateStats c.cc stats).ackb c.lastTs curTs,
      if (rateStats c.cc stats).congested rexmits then
        LowerFits cfg.dctcpMin c.rate (rateLimit c.cc.actRate act)
          (rateAvoid cfg (rateStats c.cc stats) rexmits c.cc.ecnRate 1).1.rate.val
      else RaiseFits cfg.dctcpMin c.rate (rateLimit c.cc.actRate act) (rateIncrement cfg c.cc.slowstart)
  | timely c =>
    stats.rtt ≠ 0 → ∀ act ∈ measuredRate stats.ackb c.cc.lastTs curTs, ∀ g ∈ timelyGradient cfg c.cc stats.rtt,
      if (c.branch cfg stats.rtt g.2).raises then
        RaiseFits cfg.timelyMinRate c.rate (timelyLimit cfg c stats.rtt act)
          fun rate => timelyIncrement cfg c.cc.haiCnt rate (c.branch cfg stats.rtt g.2)
      else LowerFits cfg.timelyMinRate c.rate (timelyLimit cfg c stats.rtt act)
        (timelyAdjust cfg (c.branch cfg stats.rtt g.2) c.cc.haiCnt stats.rtt 1 g.2).rate.val

instance (cfg : CcConfig) (stats : ConnStats) (rexmits curTs : BitVec 32) :
    (conn : RateConn) → Decidable (conn.Fits cfg stats rexmits curTs)
  -- the rate is an option's only member: the instance for a finite type would try every word
  | dctcp _ => have {p} [DecidablePred p] := Option.decidableForallMem (α := BitVec 32) (p := p)
    inferInstanceAs (Decidable (_ → _))
  | timely _ => have {p} [DecidablePred p] := Option.decidableForallMem (α := BitVec 32) (p := p)
    inferInstanceAs (Decidable (_ → _))

/-- The differences of round trip times are in range. -/
def Inv : RateConn → Prop
  | dctcp _ => True
  | timely c => TimelyInv c.cc

/-- The fast path reports round trip times below `TCP_MAX_RTT`; only TIMELY depends on that. -/
def RttFits (stats : ConnStats) : RateConn → Prop
  | dctcp _ => True
  | timely _ => stats.rtt < tcpMaxRtt

instance (stats : ConnStats) : (conn : RateConn) → Decidable (conn.RttFits stats)
  | dctcp _ => isTrue trivial
  | timely _ => inferInstanceAs (Decidable (_ < _))

end RateConn

section Updates

variable {cfg : CcConfig} {stats : ConnStats} {rate used rexmits curTs ecnRate : BitVec 32} {s : RateStats} {cc : DctcpRate}

theorem clampRate_toNat (rate used : BitVec 32) : (clampRate rate used).toNat = Nat.min rate.toNat (12 * used.toNat / 10) := by
  have hlimit : (used.setWidth 64 * 12 / 10).toNat = 12 * used.toNat / 10 := by
    rw [BitVec.toNat_udiv, BitVec.toNat_mul, BitVec.toNat_setWidth, show (12 : BitVec 64).toNat = 12 from rfl,
      show (10 : BitVec 64).toNat = 10 from rfl]
    omega
  have hrate : (rate.setWidth 64).toNat = rate.toNat := by
    rw [BitVec.toNat_setWidth]
    omega
  rw [clampRate]
  split_ifs with h
  · rw [BitVec.lt_def, hlimit, hrate] at h
    rw [BitVec.toNat_setWidth, hlimit, Nat.mod_eq_of_lt (by omega)]
    exact (Nat.min_eq_right (Nat.le_of_lt h)).symm
  · rw [BitVec.lt_def, hlimit, hrate, Nat.not_lt] at h
    exact (Nat.min_eq_left h).symm

theorem timelyRate_toNat (c : CcConn Timely) (newRtt act : BitVec 32) :
    (timelyRate cfg c newRtt act).toNat = Nat.min c.rate.toNat (timelyLimit cfg c newRtt act) := by
  rw [timelyRate, timelyLimit]
  split_ifs
  · exact (Nat.min_self _).symm
  · exact clampRate_toNat _ _

theorem ecnCut_pos (ecnRate : BitVec 32) (h : 2 ≤ rate.toNat) : 0 < (ecnCut rate ecnRate).val.toNat := by
  rw [(ecnCut_is rate ecnRate).val]
  refine Nat.div_pos ?_ (by decide)
  calc 4294967295 ≤ 2 * (4294967295 - ecnRate.toNat / 2) := by omega
    _ ≤ rate.toNat * (4294967295 - ecnRate.toNat / 2) := Nat.mul_le_mul_right _ h

theorem RateStats.congested_eq_false : s.congested rexmits = false ↔ s.drops = 0 ∧ s.ecnb = 0 ∧ rexmits = 0 := by
  simp [RateStats.congested, and_assoc]

theorem rateSlowStart_eq (cfg : CcConfig) (rate : BitVec 32) :
    rateSlowStart rate = .raised rate (rate + rateIncrement cfg true rate) := by
  have hdouble : rate * 2 = rate + rate := by
    apply BitVec.eq_of_toNat_eq
    rw [BitVec.toNat_mul, BitVec.toNat_add, show (2 : BitVec 32).toNat = 2 from rfl, Nat.mul_two]
  have hmax : rate + (uint32Max - rate) = uint32Max := by
    rw [BitVec.add_comm, BitVec.sub_add_cancel]
  rw [rateSlowStart, rateIncrement, if_pos rfl]
  split_ifs with h
  · rw [hdouble]
  · rw [hmax]

theorem rateAvoid_raised (hdrops : s.drops = 0) (hecnb : s.ecnb = 0) (hrexmits : rexmits = 0) :
    (rateAvoid cfg s rexmits ecnRate rate).1 = .raised rate (rate + rateIncrement cfg false rate) := by
  rw [rateAvoid, if_neg (by simp [hdrops, hrexmits]), rateIncrement, if_neg Bool.false_ne_true]
  rw [if_neg (not_not.mpr (ecnBytes_eq_zero.mpr hecnb))]
  split_ifs
  · rfl
  · rfl

/-- A smaller rate is raised to a smaller one. -/
theorem rateIncrement_mono {slowstart : Bool} {x y : BitVec 32} (hle : x.toNat ≤ y.toNat)
    (h : y.toNat + (rateIncrement cfg slowstart y).toNat < 2 ^ 32) :
    x.toNat + (rateIncrement cfg slowstart x).toNat < 2 ^ 32 := by
  have hscaled : ∀ z : BitVec 32, ((scaled z cfg.dctcpMimd).val.setWidth 32).toNat =
      z.toNat * cfg.dctcpMimd.toNat / 4294967295 := fun z => (scaled_narrow_is z cfg.dctcpMimd).val
  cases slowstart with
  | true =>
    rw [rateIncrement, if_pos rfl]
    split_ifs with hx
    · rw [BitVec.le_def, BitVec.toNat_mul, show (2 : BitVec 32).toNat = 2 from rfl] at hx
      omega
    · rw [BitVec.toNat_sub_of_le (by rw [BitVec.le_def, show uint32Max.toNat = 4294967295 from rfl]; omega),
        show uint32Max.toNat = 4294967295 from rfl]
      omega
  | false =>
    rw [rateIncrement, if_neg Bool.false_ne_true] at h ⊢
    split_ifs at h ⊢
    · omega
    · rw [hscaled] at h ⊢
      have := Nat.div_le_div_right (c := 4294967295) (Nat.mul_le_mul_right cfg.dctcpMimd.toNat hle)
      omega

theorem timelyIncrement_mono {haiCnt x y : BitVec 32} {branch : TimelyBranch} (hle : x.toNat ≤ y.toNat)
    (h : y.toNat + (timelyIncrement cfg haiCnt y branch).toNat < 2 ^ 32) :
    x.toNat + (timelyIncrement cfg haiCnt x branch).toNat < 2 ^ 32 := by
  cases branch <;> simp only [timelyIncrement] at h ⊢ <;> omega

theorem rateAvoid_lowered (cfg : CcConfig) (ecnRate rate : BitVec 32) (h : s.congested rexmits = true) :
    (rateAvoid cfg s rexmits ecnRate rate).1.raise = none ∧
    (rateAvoid cfg s rexmits ecnRate rate).1.rate.val.toNat ≤ rate.toNat ∧
    (2 ≤ rate.toNat → 0 < (rateAvoid cfg s rexmits ecnRate rate).1.rate.val.toNat) := by
  rw [rateAvoid]
  split_ifs with hdrops hecnb
  · have hhalf : (Checked.of (rate / 2)).val.toNat = rate.toNat / 2 := BitVec.toNat_udiv
    refine ⟨rfl, ?_, fun htwo => ?_⟩
    · dsimp only
      omega
    · dsimp only
      omega
  · exact ⟨rfl, ecnCut_le _ _, ecnCut_pos _⟩
  all_goals
    obtain ⟨hd, hr⟩ := not_or.mp hdrops
    rw [RateStats.congested_eq_false.mpr ⟨not_not.mp hd, ecnBytes_eq_zero.mp (not_not.mp hecnb), not_not.mp hr⟩] at h
    cases h

theorem rateAdjust_done (cfg : CcConfig) (s : RateStats) (rexmits : BitVec 32) (cc : DctcpRate) (rate : BitVec 32) :
    RateMove.Done cfg.dctcpMin ⟨rate, rateIncrement cfg cc.slowstart rate, !s.congested rexmits,
        (rateAvoid cfg s rexmits cc.ecnRate 1).1.rate.val⟩
      (atLeast cfg.dctcpMin (rateAdjust cfg s rexmits cc rate).1.rate.val) (rateAdjust cfg s rexmits cc rate).1.raise := by
  cases hcong : s.congested rexmits with
  | false =>
    obtain ⟨hdrops, hecnb, hrexmits⟩ := RateStats.congested_eq_false.mp hcong
    have hstep : (rateAdjust cfg s rexmits cc rate).1 = .raised rate (rate + rateIncrement cfg cc.slowstart rate) := by
      rw [rateAdjust, hcong]
      cases cc.slowstart with
      | true => exact rateSlowStart_eq cfg rate
      | false => exact rateAvoid_raised hdrops hecnb hrexmits
    rw [hstep]
    exact RateMove.done_raised (Nat.le_refl _)
  | true =>
    have hstep : rateAdjust cfg s rexmits cc rate = rateAvoid cfg s rexmits cc.ecnRate rate := by
      rw [rateAdjust, if_neg (by simp [hcong])]
    obtain ⟨hraise, hle, hpos⟩ := rateAvoid_lowered cfg cc.ecnRate rate hcong
    rw [hstep, hraise]
    refine RateMove.done_lowered hle ?_
    rintro (htwo | ⟨rfl, hone⟩)
    · exact hpos htwo
    · exact Nat.pos_of_ne_zero fun e => hone (BitVec.eq_of_toNat_eq e)

theorem timelyApply_done {c : CcConn Timely} {newRtt act : BitVec 32} {diff : Checked 32} {gradient : Checked 64} {g : Int}
    (hg : gradient.IsInt g) (hle : g.natAbs ≤ 99999 * 32767) :
    RateMove.Done cfg.timelyMinRate
      ⟨timelyRate cfg c newRtt act, timelyIncrement cfg c.cc.haiCnt (timelyRate cfg c newRtt act) (c.branch cfg newRtt gradient),
        (c.branch cfg newRtt gradient).raises,
        (timelyAdjust cfg (c.branch cfg newRtt gradient) c.cc.haiCnt newRtt 1 gradient).rate.val⟩
      (timelyApply cfg c newRtt curTs act diff gradient).conn.rate (timelyApply cfg c newRtt curTs act diff gradient).raise := by
  obtain ⟨-, hlow, hraise⟩ := timelyAdjust_spec c.cc.haiCnt (timelyRate cfg c newRtt act) hg hle
    (rfl : c.branch cfg newRtt gradient = _)
  have hhalf := atLeast_toNat (timelyRate cfg c newRtt act / 2) (timelyAdjust cfg (c.branch cfg newRtt gradient) c.cc.haiCnt
    newRtt (timelyRate cfg c newRtt act) gradient).rate.val
  rw [BitVec.toNat_udiv, show (2 : BitVec 32).toNat = 2 from rfl] at hhalf
  rw [timelyApply]
  cases hbranch : (c.branch cfg newRtt gradient).raises with
  | true =>
    rw [hraise hbranch] at hhalf ⊢
    refine RateMove.done_raised ?_
    rw [hhalf]
    exact Nat.le_max_right _ _
  | false =>
    obtain ⟨hnone, hle⟩ := hlow hbranch
    rw [hnone]
    refine RateMove.done_lowered (by omega) ?_
    rintro (htwo | ⟨hone, hne⟩)
    · omega
    · rw [← hone] at hne
      have hpos := Nat.pos_of_ne_zero fun e => hne (BitVec.eq_of_toNat_eq e)
      omega

/-- A turn of `cc_poll` leaves the rate, or makes the move. -/
theorem poll_spec {conn conn' : RateConn} {raise : Option (BitVec 32 × BitVec 32)} (h : conn.Inv) (hrtt : conn.RttFits stats)
    (hp : conn.poll cfg stats rexmits curTs = some (conn', raise)) : conn'.Inv ∧
      (conn.move cfg stats rexmits curTs = none ∧ conn'.rate = conn.rate ∧ raise = none ∨
        ∃ m, conn.move cfg stats rexmits curTs = some m ∧ m.old.toNat ≤ conn.rate.toNat ∧
          m.Done (conn.minRate cfg) conn'.rate raise) := by
  cases conn with
  | dctcp c =>
    obtain ⟨u, hu, heq⟩ := map_eq_some_iff.mp hp
    cases heq
    refine ⟨trivial, ?_⟩
    rw [dctcpRateUpdate] at hu
    split_ifs at hu with hacks
    · cases hu
      exact .inl ⟨if_pos hacks, rfl, rfl⟩
    · obtain ⟨act, hact, rfl⟩ := map_eq_some_iff.mp hu
      refine .inr ⟨_, (if_neg hacks).trans (congrArg (Option.map _) hact), ?_, ?_⟩
      · rw [clampRate_toNat]
        exact Nat.min_le_left _ _
      · exact rateAdjust_done cfg (rateStats c.cc stats) rexmits c.cc (clampRate c.rate (usedRate c.cc.actRate act))
  | timely c =>
    obtain ⟨u, hu, heq⟩ := map_eq_some_iff.mp hp
    cases heq
    refine ⟨timelyUpdate_inv (c := { c with rexmits := rexmits }) h hrtt hu, ?_⟩
    obtain ⟨act, hact, hu⟩ := bind_eq_some_iff.mp hu
    split_ifs at hu with hzero
    · cases hu
      exact .inl ⟨if_pos hzero, rfl, rfl⟩
    · obtain ⟨grad, hgrad, rfl⟩ := map_eq_some_iff.mp hu
      obtain ⟨-, -, g, hg, hle⟩ := timelyGradient_spec h hrtt hgrad
      refine .inr ⟨_, ?_, ?_, timelyApply_done hg hle⟩
      · rw [RateConn.move, if_neg hzero, hact, bind_some, hgrad]
        rfl
      · rw [timelyRate_toNat]
        exact Nat.min_le_left _ _

/-- An update that meets the condition makes a move that fits. -/
theorem RateConn.Fits.move {conn : RateConn} (h : conn.Fits cfg stats rexmits curTs) (hrate : 0 < conn.rate.toNat)
    {m : RateMove} (hm : conn.move cfg stats rexmits curTs = some m) : m.Fits (conn.minRate cfg) := by
  cases conn with
  | dctcp c =>
    rw [RateConn.move] at hm
    split_ifs at hm with hacks
    obtain ⟨act, hact, rfl⟩ := map_eq_some_iff.mp hm
    have hfits := h (BitVec.not_lt.mp hacks) act hact
    have hold := clampRate_toNat c.rate (usedRate c.cc.actRate act)
    cases hcong : (rateStats c.cc stats).congested rexmits with
    | true =>
      rw [if_pos hcong] at hfits
      exact hfits.fits hrate hold _
    | false =>
      rw [if_neg (by rw [hcong]; decide)] at hfits
      exact hfits.fits hrate hold (fun _ => rateIncrement_mono) _
  | timely c =>
    rw [RateConn.move] at hm
    split_ifs at hm with hzero
    obtain ⟨act, hact, hm⟩ := bind_eq_some_iff.mp hm
    obtain ⟨g, hg, rfl⟩ := map_eq_some_iff.mp hm
    have hfits := h hzero act hact g hg
    have hold := @timelyRate_toNat cfg c stats.rtt act
    dsimp only
    cases hb : (c.branch cfg stats.rtt g.2).raises with
    | true =>
      rw [if_pos hb] at hfits
      exact hfits.fits hrate hold (fun _ => timelyIncrement_mono) _
    | false =>
      rw [if_neg (by rw [hb]; decide)] at hfits
      exact hfits.fits hrate hold _

theorem congested_move {conn : RateConn} {m : RateMove} (h : conn.congested cfg stats rexmits = true)
    (hm : conn.move cfg stats rexmits curTs = some m) : m.raises = false := by
  cases conn with
  | dctcp c =>
    rw [RateConn.move] at hm
    split_ifs at hm
    obtain ⟨act, -, rfl⟩ := map_eq_some_iff.mp hm
    show (!(rateStats c.cc stats).congested rexmits) = false
    rw [show (rateStats c.cc stats).congested rexmits = true from h]
    rfl
  | timely c =>
    obtain ⟨grad, hgrad, hraises⟩ := (any_eq_true _ _).mp h
    rw [RateConn.move] at hm
    split_ifs at hm
    obtain ⟨act, -, hm⟩ := bind_eq_some_iff.mp hm
    obtain ⟨grad', hgrad', rfl⟩ := map_eq_some_iff.mp hm
    cases hgrad.symm.trans hgrad'
    exact Bool.not_eq_true' _ ▸ hraises

end Updates

/-! ## Runs -/

structure RateFlow where
  conn : RateConn
  fs : FlowSt

/-- What changes the rate of a flow: its turn in `cc_poll`, and `flow_reset_retransmit`. -/
inductive RateOp where
  | poll (stats : ConnStats) (rexmits curTs : BitVec 32)
  | reset

/-- The new rate is given to the flow by `nicif_connection_setrate`. -/
def rateStep (cfg : CcConfig) (s : RateFlow) : RateOp → Option RateFlow
  | .poll stats rexmits curTs => (s.conn.poll cfg stats rexmits curTs).map fun r =>
    { conn := r.1, fs := { s.fs with txRate := r.1.rate } }
  | .reset => some { s with fs := flowResetRetransmit s.fs }

/-- The step leaves a rate; an increase does not come to a smaller one, and congestion not to a larger one than before or
the minimum. -/
def LimitKept (cfg : CcConfig) (s : RateFlow) : RateOp → Prop
  | .poll stats rexmits curTs => ∀ conn raise, s.conn.poll cfg stats rexmits curTs = some (conn, raise) →
    0 < conn.rate.toNat ∧ (∀ p ∈ raise, p.1 ≤ p.2) ∧
      (s.conn.congested cfg stats rexmits = true → conn.rate.toNat ≤ max s.conn.rate.toNat (s.conn.minRate cfg).toNat)
  | .reset => 0 < (flowResetRetransmit s.fs).txRate.toNat ∧ (flowResetRetransmit s.fs).txRate.toNat ≤ s.fs.txRate.toNat

/-- The rate that is used and the configuration fit; the first halving of a control interval finds more than 1. -/
def LimitFits (cfg : CcConfig) (s : RateFlow) : RateOp → Prop
  | .poll stats rexmits curTs => s.conn.RttFits stats ∧ s.conn.Fits cfg stats rexmits curTs
  | .reset => s.fs.cntTxDrops = 0 → s.fs.txRate ≠ 1

instance (cfg : CcConfig) (s : RateFlow) : (op : RateOp) → Decidable (LimitFits cfg s op)
  | .poll .. => inferInstanceAs (Decidable (_ ∧ _))
  | .reset => inferInstanceAs (Decidable (_ → _ ≠ _))

section Runs

variable {cfg : CcConfig}

theorem flowResetRetransmit_txRate {fs : FlowSt} (h : 0 < fs.txRate.toNat) (hone : fs.cntTxDrops = 0 → fs.txRate ≠ 1) :
    0 < (flowResetRetransmit fs).txRate.toNat ∧ (flowResetRetransmit fs).txRate.toNat ≤ fs.txRate.toNat := by
  rw [flowResetRetransmit]
  split_ifs with hdrops
  · have hne : fs.txRate.toNat ≠ 1 := fun e => hone hdrops (BitVec.eq_of_toNat_eq e)
    rw [BitVec.toNat_udiv, show (2 : BitVec 32).toNat = 2 from rfl]
    omega
  · exact ⟨h, Nat.le_refl _⟩

/-- A turn of `cc_poll` whose move fits keeps the limit. -/
theorem poll_kept {s : RateFlow} {stats : ConnStats} {rexmits curTs : BitVec 32} (hinv : s.conn.Inv)
    (hrate : 0 < s.conn.rate.toNat) (hfits : LimitFits cfg s (.poll stats rexmits curTs)) :
    LimitKept cfg s (.poll stats rexmits curTs) := by
  obtain ⟨hrtt, hfits⟩ := hfits
  intro conn raise hp
  obtain ⟨-, ⟨-, hsame, rfl⟩ | ⟨m, hm, hold, hdone⟩⟩ := poll_spec hinv hrtt hp
  · rw [hsame]
    exact ⟨hrate, fun p hp => absurd hp (by simp), fun _ => Nat.le_max_left _ _⟩
  · obtain ⟨hpos, hraise⟩ := (hfits.move hrate hm).kept hdone
    refine ⟨hpos, hraise, fun hcong => ?_⟩
    have hle := (hdone.lowered (congested_move hcong hm)).2.1
    omega

theorem rateStep_kept (s : RateFlow) (op : RateOp) (h : s.conn.Inv ∧ 0 < s.conn.rate.toNat ∧ 0 < s.fs.txRate.toNat)
    (hfits : LimitFits cfg s op) : LimitKept cfg s op ∧
      ∀ s', rateStep cfg s op = some s' → s'.conn.Inv ∧ 0 < s'.conn.rate.toNat ∧ 0 < s'.fs.txRate.toNat := by
  obtain ⟨hinv, hrate, htx⟩ := h
  cases op with
  | poll stats rexmits curTs =>
    have hkept := poll_kept hinv hrate hfits
    refine ⟨hkept, fun s' hs => ?_⟩
    obtain ⟨⟨conn, raise⟩, hp, rfl⟩ := map_eq_some_iff.mp hs
    have hpos := (hkept conn raise hp).1
    exact ⟨(poll_spec hinv hfits.1 hp).1, hpos, hpos⟩
  | reset =>
    have hkept := flowResetRetransmit_txRate htx hfits
    refine ⟨hkept, ?_⟩
    rintro s' ⟨⟩
    exact ⟨hinv, hrate, hkept.1⟩

theorem init_inv (cfg : CcConfig) (conn : RateConn) : (conn.init cfg).Inv := by
  cases conn with
  | dctcp c => trivial
  | timely c => exact timelyInit_inv cfg c

end Runs

/-- In a run from a positive rate whose moves fit, every step keeps the limit. -/
theorem rate_limit_kept {cfg : CcConfig} {conn : RateConn} {fs : FlowSt} {ops : List RateOp}
    (hrate : 0 < (conn.init cfg).rate.toNat) (htx : 0 < fs.txRate.toNat)
    (hfits : Run.All (rateStep cfg) (LimitFits cfg) ⟨conn.init cfg, fs⟩ ops) :
    Run.All (rateStep cfg) (LimitKept cfg) ⟨conn.init cfg, fs⟩ ops :=
  Run.All.of_inv (I := fun s => s.conn.Inv ∧ 0 < s.conn.rate.toNat ∧ 0 < s.fs.txRate.toNat) rateStep_kept
    ⟨init_inv cfg conn, hrate, htx⟩ hfits

/-- A connection under DCTCP, before its initialisation. -/
def newDctcp : RateConn := .dctcp (freshConn ⟨0, 0, 0, 0, 0, 0, false⟩)

def flowWithRate (rate : BitVec 32) : FlowSt := { zeroedFlow 64 0 0 with txRate := rate }

/-- With the default values: slow start, drops, and a fast retransmit. -/
theorem rate_limit_kept_drops : Run.All (rateStep ccDefaults) (LimitKept ccDefaults) ⟨newDctcp.init ccDefaults, flowWithRate 10000⟩
    [.poll ⟨0, 60, 100000, 0, true, 50⟩ 0 2000, .reset, .poll ⟨1, 60, 100000, 0, true, 50⟩ 0 3000] :=
  rate_limit_kept (by decide) (by decide) (by decide +kernel)

/-- With the default values: 50 acknowledgements of no bytes are a measured rate of 0, and slow start doubles that. -/
theorem rate_limit_removed : ¬ ∀ (cfg : CcConfig) (conn : RateConn) (fs : FlowSt) (ops : List RateOp),
    0 < (conn.init cfg).rate.toNat → 0 < fs.txRate.toNat →
    Run.All (rateStep cfg) (LimitKept cfg) ⟨conn.init cfg, fs⟩ ops := by
  intro h
  have hkept := (h ccDefaults newDctcp (flowWithRate 10000) [.poll ⟨0, 50, 0, 0, true, 50⟩ 0 2000] (by decide) (by decide)).1
  obtain ⟨⟨conn, raise⟩, hp, hrate⟩ :
      ∃ r, (newDctcp.init ccDefaults).poll ccDefaults ⟨0, 50, 0, 0, true, 50⟩ 0 2000 = some r ∧ r.1.rate = 0 := by
    decide +kernel
  have hpos := (hkept conn raise hp).1
  rw [hrate] at hpos
  exact absurd hpos (by decide)

end TasNic
