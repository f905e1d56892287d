import TasNic.Slow.Cc
import TasNic.Lib.Run

/-!
# DCTCP with a window

The window stays between one segment and the send buffer, all computations with 64 bits are exact,
and the rate is positive (`dctcp_win_bounded`): products of two words of 32 bits fit 64 bits (`scaled_is`), the
average of two ECN rates is one (`ecnEwma_is`), and a window of at least one segment and a round
trip time below 100 ms give a rate (`windowToRate_pos`).
-/

namespace TasNic

open Checked

/-! ## One update -/

section Update

variable {cfg : CcConfig} {window rtt : BitVec 32}

theorem u64_mul_eight_is (hwin : window.toNat < 2 ^ 31) : (u64 window * 8).Is (window.toNat * 8) :=
  (u64_is window).mul (is_ofNat (n := 8) (by decide)) (by omega)

theorem windowTime_is (hwin : window.toNat < 2 ^ 31) (hrtt : rtt.toNat < 100000) : (windowTime cfg window rtt).Is
    (max (window.toNat * 8 * 1000 / cfg.tcpLinkBw.toNat / 1000) (rtt.toNat * 1000)) := by
  have hk : (1000 : Checked 64).Is 1000 := is_ofNat (by decide)
  have hsend := (((u64_mul_eight_is hwin).mul hk (by omega)).div (u64_is cfg.tcpLinkBw)).div hk
  have hwait : ((rtt * 1000).setWidth 64).toNat = rtt.toNat * 1000 := by
    rw [BitVec.toNat_setWidth, BitVec.toNat_mul, show (1000 : BitVec 32).toNat = 1000 from rfl,
      Nat.mod_eq_of_lt (by omega), Nat.mod_eq_of_lt (by omega)]
  rw [windowTime]
  split_ifs with hlt
  · rw [BitVec.lt_def, hsend.val, hwait] at hlt
    rw [Nat.max_eq_right (Nat.le_of_lt hlt)]
    exact ⟨hsend.ok, hwait⟩
  · rw [BitVec.lt_def, hsend.val, hwait] at hlt
    rw [Nat.max_eq_left (Nat.le_of_not_lt hlt)]
    exact hsend

theorem windowToRate_eq {time : Nat} (hbw : cfg.tcpLinkBw ≠ 0) (hwin : window.toNat < 2 ^ 31)
    (htime : (windowTime cfg window rtt).Is time) (hpos : 0 < time) :
    ∃ rate, windowToRate cfg window rtt = some rate ∧ rate.Is (min (window.toNat * 8 * 1000000 / time) 4294967295) := by
  have hm : (1000000 : Checked 64).Is 1000000 := is_ofNat (by decide)
  have hrate := ((u64_mul_eight_is hwin).mul hm (by omega)).div htime
  have hmax : (uint32Max.setWidth 64).toNat = 4294967295 := rfl
  have hne : (windowTime cfg window rtt).val ≠ 0 := by
    intro e
    have hzero := htime.val
    rw [e, show (0 : BitVec 64).toNat = 0 from rfl] at hzero
    omega
  rw [windowToRate, if_neg hbw, if_neg hne]
  refine ⟨_, rfl, ?_⟩
  split_ifs with hlt
  · rw [BitVec.lt_def, hrate.val, hmax] at hlt
    rw [Nat.min_eq_right (Nat.le_of_lt hlt)]
    exact ⟨hrate.ok, rfl⟩
  · rw [BitVec.lt_def, hrate.val, hmax] at hlt
    rw [Nat.min_eq_left (Nat.le_of_not_lt hlt)]
    exact hrate.narrow (by omega)

theorem windowToRate_pos (window : BitVec 32) (hbw : cfg.tcpLinkBw ≠ 0) (hmss : 1400 ≤ window.toNat) (hwin : window.toNat < 2 ^ 31)
    (hrtt : 0 < rtt.toNat) (hrtt' : rtt.toNat < 100000) :
    ∃ rate, windowToRate cfg window rtt = some rate ∧ rate.ok = true ∧ 0 < rate.val.toNat := by
  have hpos : 0 < max (window.toNat * 8 * 1000 / cfg.tcpLinkBw.toNat / 1000) (rtt.toNat * 1000) :=
    Nat.lt_of_lt_of_le (by omega) (Nat.le_max_right _ (rtt.toNat * 1000))
  obtain ⟨rate, hrate, his⟩ := windowToRate_eq hbw hwin (windowTime_is hwin hrtt') hpos
  refine ⟨rate, hrate, his.ok, ?_⟩
  have hsend : window.toNat * 8 * 1000 / cfg.tcpLinkBw.toNat / 1000 ≤ window.toNat * 8 * 1000 :=
    Nat.le_trans (Nat.div_le_self _ _) (Nat.div_le_self _ _)
  have hle : max (window.toNat * 8 * 1000 / cfg.tcpLinkBw.toNat / 1000) (rtt.toNat * 1000) ≤ window.toNat * 8 * 1000000 := by
    omega
  have hdiv := Nat.div_pos hle hpos
  rw [his.val]
  omega

variable {stats : ConnStats} {rexmits ecnRate win ackb : BitVec 32} {cc : DctcpWin} {bufferSize : BitVec 64}

theorem le_winSlowStart (win ackb : BitVec 32) : win.toNat ≤ (winSlowStart win ackb).toNat := by
  rw [winSlowStart]
  split_ifs with h
  · exact Nat.le_of_lt h
  · exact Nat.le_refl _

/-- Additive increase is exact, and wraps in no case. -/
theorem winIncrease_spec (hmss : 1400 ≤ win.toNat) (ackb : BitVec 32) :
    (winIncrease win ackb).ok = true ∧ win.toNat ≤ (winIncrease win ackb).val.toNat := by
  have hincr := (u64_mul_is ackb confMss).div (u64_is win)
  have hle : ackb.toNat * confMss.toNat / win.toNat ≤ ackb.toNat * confMss.toNat := Nat.div_le_self _ _
  have hconf : confMss.toNat = 1400 := rfl
  rw [hconf] at hincr hle
  have hsum := (u64_is win).add hincr (by omega)
  rw [winIncrease]
  split_ifs with h
  · exact ⟨hsum.ok, Nat.le_of_lt h⟩
  · exact ⟨hsum.ok, Nat.le_refl _⟩

/-- What the statistics say about a new window. -/
structure WinMoves (stats : ConnStats) (rexmits old new : BitVec 32) : Prop where
  halved : stats.drops ≠ 0 ∨ rexmits ≠ 0 → new.toNat ≤ old.toNat / 2
  marked : stats.drops = 0 → rexmits = 0 → stats.ecnb ≠ 0 → new.toNat ≤ old.toNat
  raised : stats.drops = 0 → rexmits = 0 → stats.ecnb = 0 → old.toNat ≤ new.toNat

theorem winAvoid_spec (hmss : 1400 ≤ win.toNat) : ∃ adjusted ecn, winAvoid cfg stats rexmits ecnRate win = some (adjusted, ecn) ∧
    adjusted.ok = true ∧ ecn.ok = true ∧ WinMoves stats rexmits win adjusted.val := by
  have hecn := ecnUpdate_ok cfg ecnRate stats.ecnb stats.ackb
  rw [winAvoid]
  by_cases hdrop : stats.drops ≠ 0 ∨ rexmits ≠ 0
  · rw [if_pos hdrop]
    refine ⟨_, _, rfl, rfl, rfl, fun _ => ?_, fun h h' => ?_, fun h h' => ?_⟩
    · exact Nat.le_of_eq (BitVec.toNat_udiv ..)
    · exact absurd hdrop (by simp [h, h'])
    · exact absurd hdrop (by simp [h, h'])
  rw [if_neg hdrop]
  by_cases hmark : ecnBytes stats.ecnb stats.ackb ≠ 0
  · rw [if_pos hmark]
    refine ⟨_, _, rfl, (ecnCut_is _ _).ok, hecn, fun h => absurd h hdrop, fun _ _ _ => ecnCut_le _ _, fun _ _ h => ?_⟩
    exact absurd (ecnBytes_eq_zero.mpr h) hmark
  · have hne : win ≠ 0 := by
      rintro rfl
      exact absurd hmss (by decide)
    obtain ⟨hok, hle⟩ := winIncrease_spec hmss stats.ackb
    rw [if_neg hmark, if_neg hne]
    refine ⟨_, _, rfl, hok, hecn, fun h => absurd h hdrop, fun _ _ h => ?_, fun _ _ _ => hle⟩
    exact absurd (fun e => h (ecnBytes_eq_zero.mp e)) hmark

theorem winAdjust_spec (cfg : CcConfig) (stats : ConnStats) (rexmits : BitVec 32) (hmss : 1400 ≤ cc.window.toNat) :
    ∃ adjusted ecn, winAdjust cfg stats rexmits cc = some (adjusted, ecn) ∧ adjusted.ok = true ∧ ecn.ok = true ∧
      WinMoves stats rexmits cc.window adjusted.val := by
  rw [winAdjust]
  split_ifs with h
  · -- slow start, without a sign of congestion
    have hnone : stats.drops = 0 ∧ stats.ecnb = 0 ∧ rexmits = 0 := by
      simpa [congested, and_assoc] using (Bool.and_eq_true_iff.mp h).2
    refine ⟨_, _, rfl, rfl, rfl, fun h => ?_, fun _ _ h => absurd hnone.2.1 h, fun _ _ _ => le_winSlowStart _ _⟩
    exact absurd h (by simp [hnone.1, hnone.2.2])
  · exact winAvoid_spec hmss

theorem winClamp_toNat (hbuf : bufferSize.toNat < 2 ^ 31) (win : BitVec 32) :
    (winClamp bufferSize win).toNat = min (max 1400 win.toNat) bufferSize.toNat := by
  have hmss : (if win < confMss then confMss else win).toNat = max 1400 win.toNat := by
    have hconf : confMss.toNat = 1400 := rfl
    split_ifs with h
    · rw [BitVec.lt_def] at h
      omega
    · rw [BitVec.lt_def] at h
      omega
  rw [winClamp]
  generalize (if win < confMss then confMss else win) = w at hmss
  have hw : (w.setWidth 64).toNat = w.toNat := (u64_is w).val
  rw [← hmss]
  split_ifs with h
  · rw [BitVec.lt_def, hw] at h
    rw [Nat.min_eq_right (Nat.le_of_lt h), BitVec.toNat_setWidth, Nat.mod_eq_of_lt (by omega)]
  · rw [BitVec.lt_def, hw] at h
    exact (Nat.min_eq_left (Nat.le_of_not_lt h)).symm

/-- What holds of an update of a connection with the window `old`. The exactness includes that the
new ECN rate fits 32 bits. -/
structure WinUpdated (bufferSize : BitVec 64) (stats : ConnStats) (rexmits old : BitVec 32) (u : Updated DctcpWin) : Prop where
  low : 1400 ≤ u.conn.cc.window.toNat
  high : u.conn.cc.window.toNat ≤ bufferSize.toNat
  exact : u.exact = true
  rate : 0 < u.conn.rate.toNat
  halved : stats.drops ≠ 0 ∨ rexmits ≠ 0 → u.conn.cc.window.toNat ≤ max 1400 (old.toNat / 2)
  marked : stats.drops = 0 → rexmits = 0 → stats.ecnb ≠ 0 → u.conn.cc.window.toNat ≤ old.toNat
  raised : stats.drops = 0 → rexmits = 0 → stats.ecnb = 0 → min old.toNat bufferSize.toNat ≤ u.conn.cc.window.toNat

theorem rttOr_bounds (hinit : 0 < cfg.tcpRttInit.toNat) (hinit' : cfg.tcpRttInit.toNat < 100000)
    (hrtt : stats.rtt.toNat < 100000) : 0 < (rttOr cfg stats).toNat ∧ (rttOr cfg stats).toNat < 100000 := by
  rw [rttOr]
  split_ifs with h
  · exact ⟨hinit, hinit'⟩
  · exact ⟨Nat.pos_of_ne_zero fun e => h (BitVec.eq_of_toNat_eq e), hrtt⟩

theorem dctcpWinUpdate_spec {c : CcConn DctcpWin} (hbuf : 1400 ≤ bufferSize.toNat) (hbuf' : bufferSize.toNat < 2 ^ 31)
    (hbw : cfg.tcpLinkBw ≠ 0) (hinit : 0 < cfg.tcpRttInit.toNat) (hinit' : cfg.tcpRttInit.toNat < 100000)
    (hrtt : stats.rtt.toNat < 100000) (hmss : 1400 ≤ c.cc.window.toNat) :
    ∃ u, dctcpWinUpdate cfg bufferSize c stats = some u ∧ WinUpdated bufferSize stats c.rexmits c.cc.window u := by
  have hconf : confMss.toNat = 1400 := rfl
  obtain ⟨adjusted, ecn, hadj, hok, hecn, hmoves⟩ := winAdjust_spec cfg stats c.rexmits hmss
  have hclamp := winClamp_toNat hbuf' adjusted.val
  obtain ⟨hpos, hlt⟩ := rttOr_bounds hinit hinit' hrtt
  obtain ⟨rate, hrate, hrok, hrpos⟩ := windowToRate_pos (winClamp bufferSize adjusted.val) hbw
    (by omega) (by omega) hpos hlt
  have hlow : ¬ winClamp bufferSize adjusted.val < confMss := by
    rw [BitVec.lt_def]
    omega
  rw [dctcpWinUpdate, if_neg (by rw [BitVec.lt_def]; omega), hadj, Option.bind_some]
  dsimp only
  rw [hrate, Option.bind_some, if_neg hlow]
  refine ⟨_, rfl, ?_, ?_, ?_, hrpos, ?_, ?_, ?_⟩
  · dsimp only
    omega
  · dsimp only
    omega
  · rw [hok, hecn, hrok]
    rfl
  · intro h
    have := hmoves.halved h
    dsimp only
    omega
  · intro h₁ h₂ h₃
    have := hmoves.marked h₁ h₂ h₃
    dsimp only
    omega
  · intro h₁ h₂ h₃
    have := hmoves.raised h₁ h₂ h₃
    dsimp only
    omega

end Update

/-! ## Runs -/

/-- Statistics, and how often the slow path had the flow retransmit. -/
structure WinOp where
  stats : ConnStats
  rexmits : BitVec 32

/-- An update of a connection after these retransmits. -/
def winUpdate (cfg : CcConfig) (bufferSize : BitVec 64) (c : CcConn DctcpWin) (op : WinOp) : Option (Updated DctcpWin) :=
  dctcpWinUpdate cfg bufferSize { c with rexmits := op.rexmits } op.stats

def winStep (cfg : CcConfig) (bufferSize : BitVec 64) (c : CcConn DctcpWin) (op : WinOp) : Option (CcConn DctcpWin) :=
  (winUpdate cfg bufferSize c op).map (·.conn)

theorem winStep_total {cfg : CcConfig} {bufferSize : BitVec 64} (hbuf : 1400 ≤ bufferSize.toNat)
    (hbuf' : bufferSize.toNat < 2 ^ 31) (hbw : cfg.tcpLinkBw ≠ 0) (hinit : 0 < cfg.tcpRttInit.toNat)
    (hinit' : cfg.tcpRttInit.toNat < 100000) (c : CcConn DctcpWin) (op : WinOp) (hmss : 1400 ≤ c.cc.window.toNat)
    (hrtt : op.stats.rtt.toNat < 100000) : ∃ c', winStep cfg bufferSize c op = some c' ∧ 1400 ≤ c'.cc.window.toNat := by
  obtain ⟨u, hu, hupdated⟩ := dctcpWinUpdate_spec (c := { c with rexmits := op.rexmits }) hbuf hbuf' hbw hinit hinit' hrtt hmss
  refine ⟨u.conn, ?_, hupdated.low⟩
  rw [winStep, winUpdate, hu]
  rfl

/-- From `dctcp_win_init` on, every update goes through, with a window between one segment and the send
buffer, exact computations and a positive rate. Drops and retransmits halve the window or leave one
segment, ECN marks do not raise it, and without either it does not fall. -/
theorem dctcp_win_bounded {α : Type} {cfg : CcConfig} {bufferSize : BitVec 64} (hbuf : 1400 ≤ bufferSize.toNat)
    (hbuf' : bufferSize.toNat < 2 ^ 31) (hbw : cfg.tcpLinkBw ≠ 0) (hinit : 0 < cfg.tcpRttInit.toNat)
    (hinit' : cfg.tcpRttInit.toNat < 100000) (c : CcConn α) (ops : List WinOp) (op : WinOp)
    (hops : ∀ o ∈ op :: ops, o.stats.rtt < tcpMaxRtt) :
    ∃ c₀ c₁ u, dctcpWinInit cfg c = some c₀ ∧ Run.exec (winStep cfg bufferSize) c₀ ops = some c₁ ∧
      winUpdate cfg bufferSize c₁ op = some u ∧ WinUpdated bufferSize op.stats op.rexmits c₁.cc.window u := by
  obtain ⟨rate, hrate, -⟩ := windowToRate_pos (2 * confMss) hbw (by decide) (by decide) hinit hinit'
  have hall : Run.All (winStep cfg bufferSize) (fun _ o => o.stats.rtt.toNat < 100000)
      { c with rate := rate.val, cc := ⟨0, 2 * confMss, true⟩ } ops :=
    .of_mem fun o ho => hops o (List.mem_cons_of_mem _ ho)
  obtain ⟨c₁, hexec, hmss⟩ := Run.exec_total (I := fun c => 1400 ≤ c.cc.window.toNat)
    (winStep_total hbuf hbuf' hbw hinit hinit') (show 1400 ≤ (2 * confMss).toNat by decide) hall
  obtain ⟨u, hu, hupdated⟩ := dctcpWinUpdate_spec (c := { c₁ with rexmits := op.rexmits }) hbuf hbuf' hbw hinit hinit'
    (hops op (List.mem_cons_self ..)) hmss
  refine ⟨_, c₁, u, ?_, hexec, hu, hupdated⟩
  rw [dctcpWinInit, hrate]
  rfl

/-- Slow start, then a drop: with a buffer of 8192 bytes the window is 4800 and then 2400. -/
theorem dctcp_win_bounded_drop : ∃ c₀ c₁ u, dctcpWinInit ccDefaults (freshConn ()) = some c₀ ∧
    Run.exec (winStep ccDefaults 8192) c₀ [⟨⟨0, 2, 2000, 0, true, 40⟩, 0⟩] = some c₁ ∧
    winUpdate ccDefaults 8192 c₁ ⟨⟨1, 1, 1000, 0, true, 60⟩, 0⟩ = some u ∧
    WinUpdated 8192 ⟨1, 1, 1000, 0, true, 60⟩ 0 c₁.cc.window u :=
  dctcp_win_bounded (by decide) (by decide) (by decide) (by decide) (by decide) (freshConn ())
    [⟨⟨0, 2, 2000, 0, true, 40⟩, 0⟩] ⟨⟨1, 1, 1000, 0, true, 60⟩, 0⟩ (by simp [tcpMaxRtt])

end TasNic
