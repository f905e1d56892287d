import TasNic.Fast.Reuse
import TasNic.Lib.Checked

/-!
# Congestion control (`slow/cc.c`)

The slow path visits every connection once in a control interval and computes a new rate, with one of
three algorithms: DCTCP with a window, DCTCP with a rate, and TIMELY. Numbers are words of the width that
the code gives them. Where it computes with 64 bits the words are `Checked`. `none` is a failed assertion
or a division by zero.
-/

namespace TasNic

open Checked

/-- The part of `config` about congestion control. -/
structure CcConfig where
  tcpRttInit : BitVec 32
  tcpLinkBw : BitVec 32
  controlInterval : BitVec 32
  rexmitInts : BitVec 32
  dctcpWeight : BitVec 32
  dctcpInit : BitVec 32
  dctcpStep : BitVec 32
  dctcpMimd : BitVec 32
  dctcpMin : BitVec 32
  dctcpMinpkts : BitVec 32
  timelyTlow : BitVec 32
  timelyThigh : BitVec 32
  timelyStep : BitVec 32
  timelyInit : BitVec 32
  timelyAlpha : BitVec 32
  timelyBeta : BitVec 32
  timelyMinRtt : BitVec 32
  timelyMinRate : BitVec 32
deriving DecidableEq

/-- The values of `config_defaults`; the weights are the fractions 0.02 and 0.8 of `UINT32_MAX`. -/
def ccDefaults : CcConfig where
  tcpRttInit := 50
  tcpLinkBw := 10
  controlInterval := 2
  rexmitInts := 4
  dctcpWeight := 0xffffffff / 16
  dctcpInit := 10000
  dctcpStep := 10000
  dctcpMimd := 0
  dctcpMin := 0
  dctcpMinpkts := 50
  timelyTlow := 30
  timelyThigh := 150
  timelyStep := 10000
  timelyInit := 10000
  timelyAlpha := 85899345
  timelyBeta := 3435973836
  timelyMinRtt := 11
  timelyMinRate := 10000

/-- The part of `struct connection` about congestion control; `cc` is the data of the algorithm. -/
structure CcConn (α : Type) where
  lastTs : BitVec 32
  lastDrops : BitVec 16
  lastAcks : BitVec 16
  lastAckb : BitVec 32
  lastEcnb : BitVec 32
  rtt : BitVec 32
  rate : BitVec 32
  rexmits : BitVec 32
  cntTxPending : BitVec 32
  tsTxPending : BitVec 32
  cc : α
deriving DecidableEq

/-- A connection whose flow was registered at time 1000. -/
def freshConn {α : Type} (cc : α) : CcConn α := ⟨1000, 0, 0, 0, 0, 50, 0, 0, 0, 0, cc⟩

/-- `struct connection_cc_dctcp_win`. -/
structure DctcpWin where
  ecnRate : BitVec 32
  window : BitVec 32
  slowstart : Bool
deriving DecidableEq

/-- `struct connection_cc_dctcp_rate`. -/
structure DctcpRate where
  unprocAcks : BitVec 32
  unprocAckb : BitVec 32
  unprocEcnb : BitVec 32
  unprocDrops : BitVec 32
  ecnRate : BitVec 32
  actRate : BitVec 32
  slowstart : Bool
deriving DecidableEq

/-- `struct connection_cc_timely`; `rtt_diff` is a signed word. -/
structure Timely where
  rttPrev : BitVec 32
  rttDiff : BitVec 32
  haiCnt : BitVec 32
  actRate : BitVec 32
  lastTs : BitVec 32
  slowstart : Bool
deriving DecidableEq

/-- A connection after an update: whether the computations with 64 bits were exact, and, if
the update was to raise the rate, the rate before and after that. -/
structure Updated (α : Type) where
  conn : CcConn α
  exact : Bool
  raise : Option (BitVec 32 × BitVec 32)
deriving DecidableEq

def uint32Max : BitVec 32 := 0xffffffff
def confMss : BitVec 32 := 1400

/-- A word in a computation with 64 bits. -/
def u64 (x : BitVec 32) : Checked 64 := .of (x.setWidth 64)

/-- A signed word in a computation with 64 bits. -/
def s64 (x : BitVec 32) : Checked 64 := .of (x.signExtend 64)

/-- A part of a word: `x * frac / UINT32_MAX`. -/
def scaled (x frac : BitVec 32) : Checked 64 := u64 x * u64 frac / u64 uint32Max

def rttOr (cfg : CcConfig) (stats : ConnStats) : BitVec 32 := if stats.rtt = 0 then cfg.tcpRttInit else stats.rtt

/-! ## ECN -/

/-- The bytes with ECN marks that are used. -/
def ecnBytes (ecnb ackb : BitVec 32) : BitVec 32 :=
  if ackb ≠ 0 then if ecnb ≤ ackb then ecnb else ackb else ecnb

/-- The ECN rate, averaged with the one before. -/
def ecnEwma (cfg : CcConfig) (old ecnb ackb : BitVec 32) : Checked 64 :=
  let ecnRate := u64 ecnb * u64 uint32Max / u64 ackb
  (ecnRate * u64 cfg.dctcpWeight + u64 old * u64 (uint32Max - cfg.dctcpWeight)) / u64 uint32Max

def ecnUpdate (cfg : CcConfig) (old ecnb ackb : BitVec 32) : Checked 32 :=
  if ackb ≠ 0 then (ecnEwma cfg old (ecnBytes ecnb ackb) ackb).narrow 32 else .of old

/-- What is left of a window or a rate after ECN marks. -/
def ecnCut (x ecnRate : BitVec 32) : Checked 32 := (scaled x (uint32Max - ecnRate / 2)).narrow 32

/-! ## DCTCP with a window -/

/-- The time in which `window_to_rate` sends a window: as long as it takes, and at least a round trip. -/
def windowTime (cfg : CcConfig) (window rtt : BitVec 32) : Checked 64 :=
  let time := u64 window * 8 * 1000 / u64 cfg.tcpLinkBw / 1000
  -- the product is one of 32 bits
  let wait := (rtt * 1000).setWidth 64
  if time.val < wait then ⟨wait, time.ok⟩ else time

def windowToRate (cfg : CcConfig) (window rtt : BitVec 32) : Option (Checked 32) :=
  if cfg.tcpLinkBw = 0 then none
  else if (windowTime cfg window rtt).val = 0 then none
  else
    let rate := u64 window * 8 * 1000000 / windowTime cfg window rtt
    some (if uint32Max.setWidth 64 < rate.val then ⟨uint32Max, rate.ok⟩ else rate.narrow 32)

def dctcpWinInit {α : Type} (cfg : CcConfig) (c : CcConn α) : Option (CcConn DctcpWin) :=
  (windowToRate cfg (2 * confMss) cfg.tcpRttInit).map fun rate =>
    { c with rate := rate.val, cc := ⟨0, 2 * confMss, true⟩ }

/-- Slow start: the window grows by the bytes acknowledged, unless that wraps. -/
def winSlowStart (win ackb : BitVec 32) : BitVec 32 := if win < win + ackb then win + ackb else win

/-- Additive increase, unless that wraps. -/
def winIncrease (win ackb : BitVec 32) : Checked 32 :=
  let sum := u64 win + u64 ackb * u64 confMss / u64 win
  if win < sum.val.setWidth 32 then ⟨sum.val.setWidth 32, sum.ok⟩ else ⟨win, sum.ok⟩

/-- Congestion avoidance, with the new ECN rate. -/
def winAvoid (cfg : CcConfig) (stats : ConnStats) (rexmits ecnRate win : BitVec 32) : Option (Checked 32 × Checked 32) :=
  if stats.drops ≠ 0 ∨ rexmits ≠ 0 then some (.of (win / 2), .of ecnRate)
  else
    let ecn := ecnUpdate cfg ecnRate stats.ecnb stats.ackb
    if ecnBytes stats.ecnb stats.ackb ≠ 0 then some (ecnCut win ecn.val, ecn)
    else if win = 0 then none
    else some (winIncrease win stats.ackb, ecn)

/-- A window of at least one segment, and not larger than the send buffer. -/
def winClamp (bufferSize : BitVec 64) (win : BitVec 32) : BitVec 32 :=
  let win := if win < confMss then confMss else win
  if bufferSize < win.setWidth 64 then bufferSize.setWidth 32 else win

def congested (stats : ConnStats) (rexmits : BitVec 32) : Bool := stats.drops != 0 || stats.ecnb != 0 || rexmits != 0

/-- The new window and ECN rate of `dctcp_win_update`. -/
def winAdjust (cfg : CcConfig) (stats : ConnStats) (rexmits : BitVec 32) (cc : DctcpWin) :
    Option (Checked 32 × Checked 32) :=
  if cc.slowstart && !congested stats rexmits then some (.of (winSlowStart cc.window stats.ackb), .of cc.ecnRate)
  else winAvoid cfg stats rexmits cc.ecnRate cc.window

/-- `dctcp_win_update`, for a send buffer of this size. -/
def dctcpWinUpdate (cfg : CcConfig) (bufferSize : BitVec 64) (c : CcConn DctcpWin) (stats : ConnStats) :
    Option (Updated DctcpWin) :=
  if c.cc.window < confMss then none
  else
    (winAdjust cfg stats c.rexmits c.cc).bind fun (adjusted, ecn) =>
      let win := winClamp bufferSize adjusted.val
      (windowToRate cfg win (rttOr cfg stats)).bind fun rate =>
        if win < confMss then none
        else some
          { conn := { c with
              rtt := rttOr cfg stats, rate := rate.val, rexmits := 0
              cc := ⟨ecn.val, win, c.cc.slowstart && !congested stats c.rexmits⟩ }
            exact := adjusted.ok && ecn.ok && rate.ok
            raise := none }

/-! ## The measured rate -/

/-- The rate in kbit/s at which bytes were acknowledged; the product is one of 32 bits. -/
def measuredRate (ackb lastTs curTs : BitVec 32) : Option (BitVec 32) :=
  if lastTs = 0 then some 0
  else if curTs - lastTs = 0 then none
  else some (ackb * 8 * 1000 / (curTs - lastTs))

def smoothedRate (old new : BitVec 32) : BitVec 32 := (7 * old + new) / 8

def usedRate (old new : BitVec 32) : BitVec 32 := if smoothedRate old new ≤ new then new else smoothedRate old new

/-- A rate of at most 1.2 times the one that is used. -/
def clampRate (rate used : BitVec 32) : BitVec 32 :=
  let limit := used.setWidth 64 * 12 / 10
  if limit < rate.setWidth 64 then limit.setWidth 32 else rate

/-! ## DCTCP with a rate -/

def dctcpRateInit (cfg : CcConfig) (c : CcConn DctcpRate) : CcConn DctcpRate :=
  { c with
    rate := cfg.dctcpInit
    cc := { c.cc with ecnRate := 0, slowstart := true, unprocEcnb := 0, unprocAcks := 0, unprocAckb := 0, unprocDrops := 0 } }

/-- A new rate: whether it is exact, and the rate before and after if it was to be raised. -/
structure RateStep where
  rate : Checked 32
  raise : Option (BitVec 32 × BitVec 32)

def RateStep.raised (old new : BitVec 32) : RateStep := ⟨.of new, some (old, new)⟩

/-- The statistics that `dctcp_rate_update` works with, those of earlier updates included. -/
structure RateStats where
  ecnb : BitVec 32
  acks : BitVec 32
  ackb : BitVec 32
  drops : BitVec 32

def rateStats (cc : DctcpRate) (stats : ConnStats) : RateStats where
  ecnb := cc.unprocEcnb + stats.ecnb
  acks := cc.unprocAcks + stats.acks.setWidth 32
  ackb := cc.unprocAckb + stats.ackb
  drops := cc.unprocDrops + stats.drops.setWidth 32

def RateStats.congested (s : RateStats) (rexmits : BitVec 32) : Bool := s.drops != 0 || s.ecnb != 0 || rexmits != 0

def rateSlowStart (rate : BitVec 32) : RateStep := .raised rate (if rate ≤ rate * 2 then rate * 2 else uint32Max)

/-- Congestion avoidance, with the new ECN rate. -/
def rateAvoid (cfg : CcConfig) (s : RateStats) (rexmits ecnRate rate : BitVec 32) : RateStep × Checked 32 :=
  if s.drops ≠ 0 ∨ rexmits ≠ 0 then (⟨.of (rate / 2), none⟩, .of ecnRate)
  else
    let ecn := ecnUpdate cfg ecnRate s.ecnb s.ackb
    if ecnBytes s.ecnb s.ackb ≠ 0 then (⟨ecnCut rate ecn.val, none⟩, ecn)
    else if cfg.dctcpMimd = 0 then (.raised rate (rate + cfg.dctcpStep), ecn)
    else (.raised rate (rate + (scaled rate cfg.dctcpMimd).val.setWidth 32), ecn)

/-- The rate that `dctcp_rate_update` comes to, before the minimum. -/
def rateAdjust (cfg : CcConfig) (s : RateStats) (rexmits : BitVec 32) (cc : DctcpRate) (rate : BitVec 32) :
    RateStep × Checked 32 :=
  if cc.slowstart && !s.congested rexmits then (rateSlowStart rate, .of cc.ecnRate)
  else rateAvoid cfg s rexmits cc.ecnRate rate

def atLeast (min rate : BitVec 32) : BitVec 32 := if rate < min then min else rate

def dctcpRateUpdate (cfg : CcConfig) (c : CcConn DctcpRate) (stats : ConnStats) (curTs : BitVec 32) :
    Option (Updated DctcpRate) :=
  let s := rateStats c.cc stats
  if s.acks < cfg.dctcpMinpkts then some
    { conn := { c with
        rtt := rttOr cfg stats
        cc := { c.cc with unprocEcnb := s.ecnb, unprocAcks := s.acks, unprocAckb := s.ackb, unprocDrops := s.drops } }
      exact := true
      raise := none }
  else
    (measuredRate s.ackb c.lastTs curTs).map fun act =>
      let rate := clampRate c.rate (usedRate c.cc.actRate act)
      let (step, ecn) := rateAdjust cfg s c.rexmits c.cc rate
      { conn := { c with
          rtt := rttOr cfg stats, rate := atLeast cfg.dctcpMin step.rate.val, rexmits := 0
          cc := ⟨0, 0, 0, 0, ecn.val, smoothedRate c.cc.actRate act, c.cc.slowstart && !s.congested c.rexmits⟩ }
        exact := step.rate.ok && ecn.ok
        raise := step.raise }

/-! ## TIMELY -/

def int32Max : BitVec 32 := 0x7fffffff
def int16Max : BitVec 32 := 0x7fff

def timelyInit (cfg : CcConfig) (c : CcConn Timely) : CcConn Timely :=
  { c with
    rate := cfg.timelyInit
    cc := { c.cc with rttPrev := 0, rttDiff := 0, haiCnt := 0, lastTs := 0, slowstart := true } }

def timelyRttDiff (cfg : CcConfig) (rttDiff newRttDiff : BitVec 32) : Checked 32 :=
  let factor := cfg.timelyAlpha / 2
  let x := ((u64 int32Max - u64 factor).smul (s64 rttDiff)).sadd ((u64 factor).smul (s64 newRttDiff))
  (x.sdiv (u64 int32Max)).snarrow 32

/-- The difference of round trip times and `normalized_gradient`, if there is a round trip time from
before. -/
def timelyGradient (cfg : CcConfig) (cc : Timely) (newRtt : BitVec 32) : Option (Checked 32 × Checked 64) :=
  if cc.rttPrev = 0 then some (.of cc.rttDiff, 0)
  else if cfg.timelyMinRtt = 0 then none
  else
    let diff := timelyRttDiff cfg cc.rttDiff (newRtt - cc.rttPrev)
    some (diff, ((s64 diff.val).smul (u64 int16Max)).sdiv (u64 cfg.timelyMinRtt))

/-- The rate with a round trip time above `Thigh`. -/
def timelyHigh (cfg : CcConfig) (newRtt rate : BitVec 32) : Checked 32 :=
  let d := (u64 uint32Max * u64 cfg.timelyThigh / u64 newRtt).narrow 32
  let a := (scaled cfg.timelyBeta (uint32Max - d.val)).narrow 32
  let r := (scaled rate (uint32Max - a.val)).narrow 32
  { r with ok := r.ok && a.ok && d.ok }

/-- The fraction of `INT32_MAX` that is left of a rate with a positive gradient. -/
def timelyFactor (cfg : CcConfig) (gradient : Checked 64) : Checked 64 :=
  let b := ((u64 (cfg.timelyBeta / 2)).smul gradient).sdiv (u64 int16Max)
  if b.val.toInt ≤ int32Max.toInt then (u64 int32Max).ssub b else ⟨0, b.ok⟩

/-- The rate with a positive gradient. -/
def timelyDecrease (cfg : CcConfig) (gradient : Checked 64) (rate : BitVec 32) : Checked 32 :=
  (((u64 rate).smul (timelyFactor cfg gradient)).sdiv (u64 int32Max)).narrow 32

/-- The branches of `timely_update`. -/
inductive TimelyBranch where
  | slowStart
  | belowTlow
  | aboveThigh
  | falling
  | rising
deriving DecidableEq

def TimelyBranch.raises : TimelyBranch → Bool
  | .slowStart | .belowTlow | .falling => true
  | .aboveThigh | .rising => false

def timelyBranch (cfg : CcConfig) (slowstart : Bool) (newRtt : BitVec 32) (gradient : BitVec 64) : TimelyBranch :=
  if slowstart then .slowStart
  else if newRtt < cfg.timelyTlow then .belowTlow
  else if cfg.timelyThigh < newRtt then .aboveThigh
  else if gradient.toInt ≤ 0 then .falling
  else .rising

/-- What a branch that raises the rate adds to it; slow start doubles the rate. -/
def timelyIncrement (cfg : CcConfig) (haiCnt rate : BitVec 32) : TimelyBranch → BitVec 32
  | .slowStart => rate
  | .falling => if 5 ≤ haiCnt + 1 then cfg.timelyStep * 5 else cfg.timelyStep
  | _ => cfg.timelyStep

/-- `hai_cnt` after a branch. -/
def timelyHai (haiCnt : BitVec 32) : TimelyBranch → BitVec 32
  | .slowStart => haiCnt
  | .falling => if 5 ≤ haiCnt + 1 then haiCnt else haiCnt + 1
  | _ => 0

def timelyAdjust (cfg : CcConfig) (branch : TimelyBranch) (haiCnt newRtt rate : BitVec 32) (gradient : Checked 64) : RateStep :=
  match branch with
  | .aboveThigh => ⟨timelyHigh cfg newRtt rate, none⟩
  | .rising => ⟨timelyDecrease cfg gradient rate, none⟩
  | branch => .raised rate (rate + timelyIncrement cfg haiCnt rate branch)

def timelySlowstart (cfg : CcConfig) (cc : Timely) (newRtt : BitVec 32) : Bool :=
  cc.slowstart && !decide ((cfg.timelyTlow + cfg.timelyThigh) / 2 < newRtt)

/-- The rate that `timely_update` works with. -/
def timelyRate (cfg : CcConfig) (c : CcConn Timely) (newRtt act : BitVec 32) : BitVec 32 :=
  if timelySlowstart cfg c.cc newRtt then c.rate else clampRate c.rate (usedRate c.cc.actRate act)

/-- The branch of an update, given the gradient. -/
def CcConn.branch (cfg : CcConfig) (c : CcConn Timely) (newRtt : BitVec 32) (gradient : Checked 64) : TimelyBranch :=
  timelyBranch cfg (timelySlowstart cfg c.cc newRtt) newRtt gradient.val

/-- The rest of `timely_update`, from the branches on. -/
def timelyApply (cfg : CcConfig) (c : CcConn Timely) (newRtt curTs act : BitVec 32) (diff : Checked 32)
    (gradient : Checked 64) : Updated Timely :=
  let rate := timelyRate cfg c newRtt act
  let branch := c.branch cfg newRtt gradient
  let step := timelyAdjust cfg branch c.cc.haiCnt newRtt rate gradient
  { conn := { c with
      rtt := newRtt, rexmits := 0
      rate := atLeast cfg.timelyMinRate (atLeast (rate / 2) step.rate.val)
      cc :=
        { rttPrev := newRtt
          rttDiff := diff.val
          haiCnt := timelyHai c.cc.haiCnt branch
          actRate := smoothedRate c.cc.actRate act
          lastTs := curTs
          slowstart := timelySlowstart cfg c.cc newRtt } }
    exact := diff.ok && gradient.ok && step.rate.ok
    raise := step.raise }

def timelyUpdate (cfg : CcConfig) (c : CcConn Timely) (stats : ConnStats) (curTs : BitVec 32) : Option (Updated Timely) :=
  (measuredRate stats.ackb c.cc.lastTs curTs).bind fun act =>
    if stats.rtt = 0 then
      some { conn := { c with cc := { c.cc with actRate := smoothedRate c.cc.actRate act } }, exact := true, raise := none }
    else (timelyGradient cfg c.cc stats.rtt).map fun g => timelyApply cfg c stats.rtt curTs act g.1 g.2

/-! ## Fractions -/

section Words

variable {cfg : CcConfig} {x frac old ecnb ackb ecnRate : BitVec 32}

theorem u64_is (x : BitVec 32) : (u64 x).Is x.toNat := by
  refine ⟨rfl, ?_⟩
  rw [show (u64 x).val = x.setWidth 64 from rfl, BitVec.toNat_setWidth]
  omega

theorem toNat_uint32Max : uint32Max.toNat = 4294967295 := rfl

theorem u64_mul_is (x y : BitVec 32) : (u64 x * u64 y).Is (x.toNat * y.toNat) := by
  refine (u64_is x).mul (u64_is y) ?_
  calc x.toNat * y.toNat ≤ 4294967295 * 4294967295 :=
        Nat.mul_le_mul (Nat.le_of_lt_succ x.isLt) (Nat.le_of_lt_succ y.isLt)
    _ < 2 ^ 64 := by decide

theorem scaled_is (x frac : BitVec 32) : (scaled x frac).Is (x.toNat * frac.toNat / 4294967295) :=
  (u64_mul_is x frac).div (u64_is uint32Max)

theorem mul_div_le {a b m : Nat} (h : b ≤ m) : a * b / m ≤ a := by
  rcases Nat.eq_zero_or_pos m with rfl | hm
  · simp
  · exact Nat.div_le_of_le_mul (Nat.mul_comm m a ▸ Nat.mul_le_mul_left a h)

theorem scaled_narrow_is (x frac : BitVec 32) :
    ((scaled x frac).narrow 32).Is (x.toNat * frac.toNat / 4294967295) := by
  refine (scaled_is x frac).narrow ?_
  have := mul_div_le (a := x.toNat) (Nat.le_of_lt_succ frac.isLt)
  exact Nat.lt_of_le_of_lt this x.isLt

theorem toNat_uint32Max_sub (x : BitVec 32) : (uint32Max - x).toNat = 4294967295 - x.toNat := by
  rw [BitVec.toNat_sub_of_le (by rw [BitVec.le_def, toNat_uint32Max]; omega), toNat_uint32Max]

theorem ecnBytes_le (ecnb : BitVec 32) (h : ackb ≠ 0) : (ecnBytes ecnb ackb).toNat ≤ ackb.toNat := by
  rw [ecnBytes, if_pos h]
  split_ifs with hle
  · exact hle
  · exact Nat.le_refl _

theorem ecnBytes_eq_zero : ecnBytes ecnb ackb = 0 ↔ ecnb = 0 := by
  rw [ecnBytes]
  split_ifs with h hle
  · rfl
  · have hlt : ackb < ecnb := BitVec.not_le.mp hle
    refine ⟨fun e => absurd e h, fun e => ?_⟩
    rw [e] at hlt
    exact absurd hlt BitVec.not_lt_zero
  · rfl

theorem ewma_le {e old w m : Nat} (he : e ≤ m) (ho : old ≤ m) (hw : w ≤ m) : e * w + old * (m - w) ≤ m * m := by
  calc e * w + old * (m - w) ≤ m * w + m * (m - w) :=
        Nat.add_le_add (Nat.mul_le_mul_right w he) (Nat.mul_le_mul_right _ ho)
    _ = m * m := by rw [← Nat.mul_add, Nat.add_sub_cancel' hw]

theorem ecnEwma_is (cfg : CcConfig) (old : BitVec 32) (hle : ecnb.toNat ≤ ackb.toNat) :
    ∃ n, n < 2 ^ 32 ∧ (ecnEwma cfg old ecnb ackb).Is n := by
  have hrate : ecnb.toNat * 4294967295 / ackb.toNat ≤ 4294967295 :=
    Nat.div_le_of_le_mul (Nat.mul_le_mul_right _ hle)
  have hold := old.isLt
  have hw := cfg.dctcpWeight.isLt
  have hsum := ewma_le hrate (Nat.le_of_lt_succ hold) (Nat.le_of_lt_succ hw)
  have hdiv : (u64 ecnb * u64 uint32Max / u64 ackb).Is (ecnb.toNat * 4294967295 / ackb.toNat) :=
    (u64_mul_is ecnb uint32Max).div (u64_is ackb)
  have hfirst := hdiv.mul (u64_is cfg.dctcpWeight) (by omega)
  have hsecond := u64_mul_is old (uint32Max - cfg.dctcpWeight)
  rw [toNat_uint32Max_sub] at hsecond
  refine ⟨_, ?_, (hfirst.add hsecond (by omega)).div (u64_is uint32Max)⟩
  rw [toNat_uint32Max]
  omega

theorem ecnUpdate_ok (cfg : CcConfig) (old ecnb ackb : BitVec 32) : (ecnUpdate cfg old ecnb ackb).ok = true := by
  rw [ecnUpdate]
  split_ifs with h
  · obtain ⟨n, hn, hewma⟩ := ecnEwma_is cfg old (ecnBytes_le ecnb h)
    exact (hewma.narrow hn).ok
  · rfl

theorem ecnCut_is (x ecnRate : BitVec 32) : (ecnCut x ecnRate).Is (x.toNat * (4294967295 - ecnRate.toNat / 2) / 4294967295) := by
  have h := scaled_narrow_is x (uint32Max - ecnRate / 2)
  rwa [toNat_uint32Max_sub, BitVec.toNat_udiv] at h

theorem ecnCut_le (x ecnRate : BitVec 32) : (ecnCut x ecnRate).val.toNat ≤ x.toNat := by
  rw [(ecnCut_is x ecnRate).val]
  exact mul_div_le (Nat.sub_le _ _)

end Words

end TasNic
