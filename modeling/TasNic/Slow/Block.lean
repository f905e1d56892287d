import Mathlib.Order.Bounds.Basic
import TasNic.Slow.Tcp
import TasNic.Utils.TimeoutOrder

/-!
# How long the slow path sleeps (`slow/kernel.c`, `slowpath_block`)

The slow path waits no longer than until the first timeout expires (`util_timeout_next`) and a connection
is due for congestion control (`cc_next_ts`). Both are words of microseconds, and -1 if there is no such
time. With one of the two absent `slowpath_block` takes the absent one, and then sleeps for 10 ms. With
both it takes the earlier one; a connection that is overdue by more than 2^31 µs is then taken for one
that is not due (`CcTimer.Stale`).
-/

namespace TasNic

open List Option BitVec

/-- The part of `config` about the control intervals. -/
structure ControlConfig where
  interval : BitVec 32
  granularity : BitVec 32

/-- The values of `config_defaults`. -/
def controlDefaults : ControlConfig := ⟨2, 50⟩

/-- The part of `struct connection` that says when its control interval ends. -/
structure CcTimer where
  status : ConnStatus
  rtt : BitVec 32
  lastTs : BitVec 32

/-- `next_ts` of a connection, a signed word. -/
def CcTimer.nextTs (cfg : ControlConfig) (curTs : BitVec 32) (c : CcTimer) : BitVec 32 :=
  c.rtt * cfg.interval - (curTs - c.lastTs)

/-- A turn of the loop of `cc_next_ts`. -/
def ccNextTsTurn (cfg : ControlConfig) (curTs ts : BitVec 32) (c : CcTimer) : BitVec 32 :=
  if c.status ≠ .opened then ts
  else if (0 : BitVec 32).sle (c.nextTs cfg curTs) then
    if c.nextTs cfg curTs < ts then c.nextTs cfg curTs else ts
  else 0

/-- `cc_next_ts`, for the connections of `cc_conns` and the time of the last `cc_poll`; `none` is the
failed assertion. -/
def ccNextTs (cfg : ControlConfig) (conns : List CcTimer) (lastTs curTs : BitVec 32) : Option (BitVec 32) :=
  if lastTs ≤ curTs then
    let ts := conns.foldl (ccNextTsTurn cfg curTs) (-1)
    let wait := cfg.granularity - (curTs - lastTs)
    some (if ts = -1 then -1 else if ts < wait then wait else ts)
  else none

/-- `timeout_us` of `slowpath_block`, from the results of `cc_next_ts` and `util_timeout_next`. -/
def blockUs (ccTimeout utilTimeout : BitVec 32) : BitVec 32 :=
  if ccTimeout ≠ -1 ∧ utilTimeout ≠ -1 then if utilTimeout < ccTimeout then utilTimeout else ccTimeout
  else if ccTimeout ≠ -1 then utilTimeout
  else ccTimeout

/-- `timeout_ms` of `slowpath_block`. -/
def blockMs (timeoutUs : BitVec 32) : Int :=
  let timeoutMs : Int := if timeoutUs ≠ -1 then (timeoutUs / 1000).toNat else -1
  if timeoutMs = -1 ∨ timeoutMs > 1000 then 10 else timeoutMs

/-- The milliseconds that `slowpath_block` passes to `epoll_wait`. -/
def slowpathBlock (cfg : ControlConfig) (m : TimeoutManager) (conns : List CcTimer) (lastTs curTs : BitVec 32) : Option Int :=
  (ccNextTs cfg conns lastTs curTs).map fun ccTimeout => blockMs (blockUs ccTimeout (m.utilTimeoutNext curTs))

/-! ## What it is to do -/

def openConns (conns : List CcTimer) : List CcTimer := conns.filter (·.status = .opened)

namespace CcTimer

variable (cfg : ControlConfig) (curTs : BitVec 32) (c : CcTimer)

/-- The microseconds until the control interval of a connection ends. -/
def due : Nat := c.rtt.toNat * cfg.interval.toNat - (curTs - c.lastTs).toNat

/-- The control interval ended more than 2^31 µs ago. -/
def Stale : Prop := c.rtt.toNat * cfg.interval.toNat + 2 ^ 31 < (curTs - c.lastTs).toNat

/-- The microseconds as `cc_next_ts` computes them. -/
def seen : Nat := if (0 : BitVec 32).sle (c.nextTs cfg curTs) then (c.nextTs cfg curTs).toNat else 0

end CcTimer

/-- The timeouts that are armed are those of `D` and `W`, at a time that is less than half the range of
time stamps from when those of `W` expire. -/
structure TimeoutsAt (m : TimeoutManager) (now : Nat) (D W : List Armed) : Prop where
  holds : m.Holds D W
  sorted : W.Pairwise (·.expiry ≤ ·.expiry)
  near : ∀ r ∈ W, now < r.expiry + 2 ^ 27 ∧ r.expiry < now + 2 ^ 27

/-- Every state that the timeout manager reaches, if time stamps move on by less than half their range. -/
theorem TimeoutInv.timeoutsAt {s : TimeoutState} {D W : List Armed} (h : TimeoutInv s D W) (gap : Nat) (hgap : gap < 2 ^ 27) :
    TimeoutsAt s.m (s.now + gap) D W :=
  ⟨h.holds, h.sorted, h.near hgap⟩

/-- A sleep of `ms` milliseconds ends before the timeouts expire, and before the end of the control
interval of a connection or the granularity, whichever is later. -/
structure WakesInTime (cfg : ControlConfig) (conns : List CcTimer) (curTs : BitVec 32) (now : Nat) (armed : List Armed)
    (ms : Int) : Prop where
  nonneg : 0 ≤ ms
  timeouts : ∀ r ∈ armed, 1000 * ms ≤ (r.expiry - now : Nat)
  intervals : ∀ c ∈ openConns conns, 1000 * ms ≤ (max (c.due cfg curTs) cfg.granularity.toNat : Nat)

/-! ## The two times -/

section CcNextTs

variable (cfg : ControlConfig) (curTs : BitVec 32)

theorem CcTimer.seen_lt (c : CcTimer) : c.seen cfg curTs < 2 ^ 31 := by
  rw [seen]
  split_ifs with h
  · rw [sle_iff_toInt_le, show (0 : BitVec 32).toInt = 0 from rfl, toInt_eq_toNat_cond] at h
    split_ifs at h <;> omega
  · decide

/-- Words wrap, but a connection is seen too late only if it is overdue for long. -/
theorem CcTimer.seen_le_due {c : CcTimer} (h : ¬ c.Stale cfg curTs) : c.seen cfg curTs ≤ c.due cfg curTs := by
  have hseen := c.seen_lt cfg curTs
  have hprod : (c.rtt * cfg.interval).toNat = c.rtt.toNat * cfg.interval.toNat % 2 ^ 32 := toNat_mul ..
  have hnext : (c.nextTs cfg curTs).toNat = (2 ^ 32 - (curTs - c.lastTs).toNat + (c.rtt * cfg.interval).toNat) % 2 ^ 32 :=
    toNat_sub ..
  rw [Stale] at h
  rw [due, seen] at *
  split_ifs with hs
  · rw [if_pos hs] at hseen
    omega
  · exact Nat.zero_le _

theorem ccNextTs_loop (conns : List CcTimer) (ts : BitVec 32) :
    (conns.foldl (ccNextTsTurn cfg curTs) ts).toNat ≤ ts.toNat ∧
    (∀ c ∈ openConns conns, (conns.foldl (ccNextTsTurn cfg curTs) ts).toNat ≤ c.seen cfg curTs) ∧
    (conns.foldl (ccNextTsTurn cfg curTs) ts = ts ∨
      ∃ c ∈ openConns conns, c.seen cfg curTs = (conns.foldl (ccNextTsTurn cfg curTs) ts).toNat) := by
  induction conns generalizing ts with
  | nil => exact ⟨Nat.le_refl _, fun _ hc => absurd hc not_mem_nil, .inl rfl⟩
  | cons c conns ih =>
    obtain ⟨hle, hall, hsome⟩ := ih (ccNextTsTurn cfg curTs ts c)
    rw [foldl_cons]
    by_cases hopen : c.status = .opened
    · have hmem : openConns (c :: conns) = c :: openConns conns := filter_cons_of_pos (by simpa using hopen)
      have hturn : (ccNextTsTurn cfg curTs ts c).toNat = min ts.toNat (c.seen cfg curTs) := by
        rw [ccNextTsTurn, if_neg (not_not.mpr hopen), CcTimer.seen]
        split_ifs with hs hlt
        · rw [lt_def] at hlt
          omega
        · rw [lt_def] at hlt
          omega
        · exact (Nat.min_zero _).symm
      rw [hmem]
      refine ⟨by omega, forall_mem_cons.mpr ⟨by omega, hall⟩, ?_⟩
      rcases hsome with e | ⟨d, hd, e⟩
      · rw [e]
        rcases Nat.le_total ts.toNat (c.seen cfg curTs) with h | h
        · exact .inl (eq_of_toNat_eq (by omega))
        · exact .inr ⟨c, mem_cons_self .., by omega⟩
      · exact .inr ⟨d, mem_cons_of_mem _ hd, e⟩
    · have hmem : openConns (c :: conns) = openConns conns := filter_cons_of_neg (by simpa using hopen)
      have hturn : ccNextTsTurn cfg curTs ts c = ts := by rw [ccNextTsTurn, if_pos hopen]
      rw [hmem]
      rw [hturn] at hle hall hsome ⊢
      exact ⟨hle, hall, hsome⟩

variable {conns : List CcTimer}

theorem ccNextTs_none (h : openConns conns = []) : ccNextTs cfg conns curTs curTs = some (-1) := by
  have hloop : conns.foldl (ccNextTsTurn cfg curTs) (-1) = -1 := by
    obtain ⟨-, -, e | ⟨c, hc, -⟩⟩ := ccNextTs_loop cfg curTs conns (-1)
    · exact e
    · rw [h] at hc
      exact absurd hc not_mem_nil
  rw [ccNextTs, if_pos (BitVec.le_refl _), hloop]
  rfl

theorem ccNextTs_some (h : openConns conns ≠ []) : ∃ v ts, ccNextTs cfg conns curTs curTs = some ts ∧
    IsLeast {v | ∃ c ∈ openConns conns, c.seen cfg curTs = v} v ∧ ts.toNat = max v cfg.granularity.toNat := by
  obtain ⟨-, hall, hsome⟩ := ccNextTs_loop cfg curTs conns (-1)
  rw [ccNextTs, if_pos (BitVec.le_refl _)]
  generalize conns.foldl (ccNextTsTurn cfg curTs) (-1) = ts at hall hsome
  obtain ⟨c, hc⟩ := exists_mem_of_ne_nil _ h
  have hne : ts ≠ -1 := by
    rintro rfl
    have hle : (-1 : BitVec 32).toNat ≤ c.seen cfg curTs := hall c hc
    have hlt := c.seen_lt cfg curTs
    have hmax : (-1 : BitVec 32).toNat = 2 ^ 32 - 1 := by decide
    omega
  have hwait : cfg.granularity - (curTs - curTs) = cfg.granularity := by
    rw [BitVec.sub_self, BitVec.sub_zero]
  refine ⟨ts.toNat, _, rfl, ⟨hsome.resolve_left hne, ?_⟩, ?_⟩
  · rintro v ⟨d, hd, rfl⟩
    exact hall d hd
  · rw [if_neg hne, hwait]
    split_ifs with hlt
    · rw [lt_def] at hlt
      omega
    · rw [lt_def] at hlt
      omega

end CcNextTs

/-- The microseconds until the timeouts expire, as `util_timeout_next` takes them. -/
def armedTimes (now : Nat) (D W : List Armed) : List Nat := D.map (fun _ => 0) ++ W.map (·.expiry - now)

theorem armedTimes_le (now : Nat) {D W : List Armed} {r : Armed} (hr : r ∈ D ++ W) :
    ∃ v ∈ armedTimes now D W, v ≤ r.expiry - now := by
  rcases mem_append.mp hr with hr | hr
  · exact ⟨0, mem_append_left _ (mem_map_of_mem hr), Nat.zero_le _⟩
  · exact ⟨r.expiry - now, mem_append_right _ (mem_map_of_mem hr), Nat.le_refl _⟩

namespace TimeoutsAt

variable {m : TimeoutManager} {now : Nat} {D W : List Armed} {curTs : BitVec 32}

theorem next_none (h : TimeoutsAt m now D W) (hne : D ++ W = []) : m.utilTimeoutNext curTs = -1 := by
  obtain ⟨rfl, rfl⟩ := append_eq_nil_iff.mp hne
  have hd : m.dueFirst = none := h.holds.lists.due.first_eq
  have hw : m.timeoutsFirst = none := h.holds.lists.waiting.first_eq
  rw [TimeoutManager.utilTimeoutNext, hd, hw]
  rfl

theorem relTime_clip (h : TimeoutsAt m now D W) (hcur : curTs.toNat % 2 ^ 28 = now % 2 ^ 28) {r : Armed} (hr : r ∈ W) :
    (if (m.relTime (curTs &&& timeoutMask) r.id).slt 0 then 0 else m.relTime (curTs &&& timeoutMask) r.id).toNat =
      r.expiry - now := by
  have hword := h.holds.word r (mem_append_right _ hr)
  have hc : (curTs &&& timeoutMask).toNat = now % 2 ^ 28 := (toNat_and_timeoutMask curTs).trans hcur
  obtain ⟨hpast, hfar⟩ := h.near r hr
  have hval := TimeoutManager.relTime_toInt hword hc hpast hfar
  simp only [slt_iff_toInt_lt, show (0 : BitVec 32).toInt = 0 from rfl]
  generalize m.relTime (curTs &&& timeoutMask) r.id = v at hval ⊢
  split_ifs with hneg
  · show 0 = _
    omega
  · rw [toInt_eq_toNat_cond] at hval hneg
    split at hval <;> omega

theorem next_some (h : TimeoutsAt m now D W) (hcur : curTs.toNat % 2 ^ 28 = now % 2 ^ 28) (hne : D ++ W ≠ []) :
    IsLeast {v | v ∈ armedTimes now D W} (m.utilTimeoutNext curTs).toNat ∧ (m.utilTimeoutNext curTs).toNat < 2 ^ 27 := by
  have hd : m.dueFirst = (D.map (·.id)).head? := h.holds.lists.due.first_eq
  have hw : m.timeoutsFirst = (W.map (·.id)).head? := h.holds.lists.waiting.first_eq
  rw [TimeoutManager.utilTimeoutNext, hd, hw]
  cases D with
  | cons r D => exact ⟨⟨mem_cons_self .., fun v _ => Nat.zero_le v⟩, Nat.two_pow_pos 27⟩
  | nil =>
    cases W with
    | nil => exact absurd rfl hne
    | cons r W =>
      have hclip := h.relTime_clip hcur (mem_cons_self (a := r))
      have hfar := (h.near r (mem_cons_self ..)).2
      simp only [map_nil, head?_nil, isSome_none, Bool.false_eq_true, if_false, map_cons,
        head?_cons, hclip]
      refine ⟨⟨mem_cons_self .., fun v hv => ?_⟩, by omega⟩
      rcases mem_cons.mp hv with rfl | hv
      · exact Nat.le_refl _
      · obtain ⟨x, hx, rfl⟩ := mem_map.mp hv
        have hle := (pairwise_cons.mp h.sorted).1 x hx
        omega

end TimeoutsAt

/-! ## The sleep -/

theorem blockUs_one {ccTimeout utilTimeout : BitVec 32} (h : ccTimeout = -1 ∨ utilTimeout = -1) :
    blockUs ccTimeout utilTimeout = -1 := by
  rw [blockUs, if_neg fun hb => h.elim hb.1 hb.2]
  split_ifs with hc
  · exact h.resolve_left hc
  · exact not_not.mp hc

theorem blockUs_both {ccTimeout utilTimeout : BitVec 32} (hc : ccTimeout ≠ -1) (hu : utilTimeout ≠ -1) :
    blockUs ccTimeout utilTimeout ≠ -1 ∧ (blockUs ccTimeout utilTimeout).toNat = min ccTimeout.toNat utilTimeout.toNat := by
  rw [blockUs, if_pos ⟨hc, hu⟩]
  split_ifs with hlt
  · rw [lt_def] at hlt
    exact ⟨hu, by omega⟩
  · rw [lt_def] at hlt
    exact ⟨hc, by omega⟩

/-- The sleep in whole milliseconds, or 10 ms if that is more than a second. -/
def sleepMs (us : Nat) : Nat := if 1000 < us / 1000 then 10 else us / 1000

theorem blockMs_eq {timeoutUs : BitVec 32} (h : timeoutUs ≠ -1) : blockMs timeoutUs = sleepMs timeoutUs.toNat := by
  rw [blockMs, if_pos h, toNat_udiv, show (1000 : BitVec 32).toNat = 1000 from rfl, sleepMs]
  by_cases hlong : 1000 < timeoutUs.toNat / 1000
  · rw [if_pos (.inr (by omega)), if_pos hlong]
    rfl
  · rw [if_neg (by omega), if_neg hlong]

section Sleep

variable (cfg : ControlConfig) (conns : List CcTimer) (curTs : BitVec 32) (now : Nat) (D W : List Armed)

/-- The times that `slowpath_block` takes the least of. -/
def seenTimes : List Nat := (openConns conns).map (·.seen cfg curTs) ++ armedTimes now D W

/-- When the sleep is short enough. It is one of 10 ms with only timeouts or only connections; with both, no connection is overdue for
long, or the granularity leaves time for the sleep. -/
def BlockOk : Prop :=
  if openConns conns = [] ∨ cfg.granularity = -1 then ∀ r ∈ D ++ W, 10000 ≤ r.expiry - now
  else if D ++ W = [] then 10000 ≤ cfg.granularity.toNat ∨ ∀ c ∈ openConns conns, 10000 ≤ c.due cfg curTs
  else (∀ c ∈ openConns conns, ¬ c.Stale cfg curTs) ∨
    (∃ v ∈ seenTimes cfg conns curTs now D W, v / 1000 * 1000 ≤ cfg.granularity.toNat) ∨
    10000 ≤ cfg.granularity.toNat ∧ ∀ v ∈ seenTimes cfg conns curTs now D W, 1001000 ≤ v

variable {cfg conns curTs now D W} {m : TimeoutManager}

theorem wakesInTime_ten : WakesInTime cfg conns curTs now (D ++ W) 10 ↔
    (∀ r ∈ D ++ W, 10000 ≤ r.expiry - now) ∧ ∀ c ∈ openConns conns, 10000 ≤ max (c.due cfg curTs) cfg.granularity.toNat := by
  constructor
  · intro h
    exact ⟨fun r hr => by have := h.timeouts r hr; omega, fun c hc => by have := h.intervals c hc; omega⟩
  · rintro ⟨ht, hi⟩
    exact ⟨by decide, fun r hr => by have := ht r hr; omega, fun c hc => by have := hi c hc; omega⟩

/-- Without an open connection, or with a granularity that is taken for no time, the sleep is one of 10 ms. -/
theorem slowpathBlock_noConn (halone : openConns conns = [] ∨ cfg.granularity = -1) :
    slowpathBlock cfg m conns curTs curTs = some 10 := by
  have hcc : ccNextTs cfg conns curTs curTs = some (-1) := by
    by_cases hopen : openConns conns = []
    · exact ccNextTs_none cfg curTs hopen
    · obtain ⟨v, ts, e, -, hts⟩ := ccNextTs_some cfg curTs hopen
      have hmax : (-1 : BitVec 32).toNat = 2 ^ 32 - 1 := by decide
      rw [halone.resolve_left hopen] at hts
      rw [e, eq_of_toNat_eq (x := ts) (y := -1) (by omega)]
  rw [slowpathBlock, hcc, map_some, blockUs_one (.inl rfl)]
  rfl

theorem slowpathBlock_noTimeout (h : TimeoutsAt m now D W) (hnone : D ++ W = []) :
    slowpathBlock cfg m conns curTs curTs = some 10 := by
  obtain ⟨ts, hts⟩ : ∃ ts, ccNextTs cfg conns curTs curTs = some ts := by
    rw [ccNextTs, if_pos (BitVec.le_refl _)]
    exact ⟨_, rfl⟩
  rw [slowpathBlock, hts, map_some, blockUs_one (.inr (h.next_none hnone))]
  rfl

theorem slowpathBlock_both (h : TimeoutsAt m now D W) (hcur : curTs.toNat % 2 ^ 28 = now % 2 ^ 28)
    (hconn : ¬ (openConns conns = [] ∨ cfg.granularity = -1)) (harmed : D ++ W ≠ []) :
    ∃ a b us, IsLeast {v | ∃ c ∈ openConns conns, c.seen cfg curTs = v} a ∧ IsLeast {v | v ∈ armedTimes now D W} b ∧
      us = min (max a cfg.granularity.toNat) b ∧
      slowpathBlock cfg m conns curTs curTs = some (sleepMs us : Int) := by
  obtain ⟨hopen, hgran⟩ := not_or.mp hconn
  obtain ⟨a, ts, e, ha, hts⟩ := ccNextTs_some cfg curTs hopen
  obtain ⟨hb, hlt⟩ := h.next_some hcur harmed
  have hmax : (-1 : BitVec 32).toNat = 2 ^ 32 - 1 := by decide
  have hcc : ts ≠ -1 := by
    rintro rfl
    obtain ⟨c, -, rfl⟩ := ha.1
    have hseen := c.seen_lt cfg curTs
    exact hgran (eq_of_toNat_eq (by omega))
  have hutil : m.utilTimeoutNext curTs ≠ -1 := by
    intro e
    rw [e] at hlt
    omega
  obtain ⟨hne, hus⟩ := blockUs_both hcc hutil
  refine ⟨a, _, _, ha, hb, rfl, ?_⟩
  rw [slowpathBlock, e, map_some, blockMs_eq hne, hus, hts]

theorem sleepMs_le (us : Nat) : 1000 * sleepMs us ≤ us := by
  rw [sleepMs]
  split_ifs <;> omega

theorem sleepMs_le_iff (a b g : Nat) :
    1000 * sleepMs (min (max a g) b) ≤ g ↔ min a b / 1000 * 1000 ≤ g ∨ 10000 ≤ g ∧ 1001000 ≤ min a b := by
  rw [sleepMs]
  split_ifs <;> omega

theorem isLeast_seenTimes {a b : Nat} (ha : IsLeast {v | ∃ c ∈ openConns conns, c.seen cfg curTs = v} a)
    (hb : IsLeast {v | v ∈ armedTimes now D W} b) : IsLeast {v | v ∈ seenTimes cfg conns curTs now D W} (min a b) := by
  have hunion := ha.union hb
  refine ⟨?_, fun v hv => ?_⟩
  · rcases hunion.1 with ⟨c, hc, e⟩ | h
    · exact mem_append.mpr (.inl (mem_map.mpr ⟨c, hc, e⟩))
    · exact mem_append.mpr (.inr h)
  · refine hunion.2 ?_
    rcases mem_append.mp hv with hv | hv
    · exact .inl (mem_map.mp hv)
    · exact .inr hv

theorem sleepMs_le_granularity {a b : Nat} (hleast : IsLeast {v | v ∈ seenTimes cfg conns curTs now D W} (min a b)) :
    1000 * sleepMs (min (max a cfg.granularity.toNat) b) ≤ cfg.granularity.toNat ↔
      (∃ v ∈ seenTimes cfg conns curTs now D W, v / 1000 * 1000 ≤ cfg.granularity.toNat) ∨
      10000 ≤ cfg.granularity.toNat ∧ ∀ v ∈ seenTimes cfg conns curTs now D W, 1001000 ≤ v := by
  rw [sleepMs_le_iff]
  refine or_congr ⟨fun h => ⟨_, hleast.1, h⟩, ?_⟩
    (and_congr_right fun _ => ⟨fun h v hv => h.trans (hleast.2 hv), fun h => h _ hleast.1⟩)
  rintro ⟨v, hv, h⟩
  exact (Nat.mul_le_mul_right 1000 (Nat.div_le_div_right (hleast.2 hv))).trans h

theorem wakesInTime_noConn (hconn : openConns conns = [] ∨ cfg.granularity = -1) :
    WakesInTime cfg conns curTs now (D ++ W) 10 ↔ ∀ r ∈ D ++ W, 10000 ≤ r.expiry - now := by
  refine wakesInTime_ten.trans (and_iff_left fun c hc => ?_)
  rcases hconn with hconn | hconn
  · rw [hconn] at hc
    exact absurd hc not_mem_nil
  · rw [hconn]
    exact (by decide : 10000 ≤ (-1 : BitVec 32).toNat).trans (Nat.le_max_right ..)

theorem wakesInTime_noTimeout (harmed : D ++ W = []) : WakesInTime cfg conns curTs now (D ++ W) 10 ↔
    10000 ≤ cfg.granularity.toNat ∨ ∀ c ∈ openConns conns, 10000 ≤ c.due cfg curTs := by
  rw [wakesInTime_ten, harmed]
  constructor
  · rintro ⟨-, hi⟩
    by_cases hg : 10000 ≤ cfg.granularity.toNat
    · exact .inl hg
    · exact .inr fun c hc => by have := hi c hc; omega
  · intro hor
    refine ⟨fun r hr => absurd hr not_mem_nil, fun c hc => ?_⟩
    rcases hor with hg | hdue
    · omega
    · have := hdue c hc
      omega

theorem wakesInTime_both {a b : Nat} (ha : IsLeast {v | ∃ c ∈ openConns conns, c.seen cfg curTs = v} a)
    (hb : IsLeast {v | v ∈ armedTimes now D W} b) :
    WakesInTime cfg conns curTs now (D ++ W) (sleepMs (min (max a cfg.granularity.toNat) b)) ↔
      (∀ c ∈ openConns conns, ¬ c.Stale cfg curTs) ∨
        1000 * sleepMs (min (max a cfg.granularity.toNat) b) ≤ cfg.granularity.toNat := by
  have hle := sleepMs_le (min (max a cfg.granularity.toNat) b)
  constructor
  · intro hw
    refine or_iff_not_imp_left.mpr fun hstale => ?_
    -- nothing but the granularity leaves time for a sleep
    push Not at hstale
    obtain ⟨c, hc, hstale⟩ := hstale
    have hi := hw.intervals c hc
    rw [CcTimer.Stale] at hstale
    rw [CcTimer.due] at hi
    omega
  · intro hok
    refine ⟨Int.natCast_nonneg _, fun r hr => ?_, fun c hc => ?_⟩
    · obtain ⟨v, hv, hvr⟩ := armedTimes_le now hr
      have hbv : b ≤ v := hb.2 hv
      omega
    · have hac : a ≤ c.seen cfg curTs := ha.2 ⟨c, hc, rfl⟩
      rcases hok with hfresh | hgran
      · have hdue := CcTimer.seen_le_due cfg curTs (hfresh c hc)
        omega
      · omega

end Sleep

/-- At the time of the last `cc_poll`, `slowpath_block` wakes in time if, and only if, `BlockOk`. -/
theorem slowpath_block_in_time_iff (cfg : ControlConfig) (conns : List CcTimer) {m : TimeoutManager} {curTs : BitVec 32}
    {now : Nat} {D W : List Armed} (h : TimeoutsAt m now D W) (hcur : curTs.toNat % 2 ^ 28 = now % 2 ^ 28) :
    ∃ ms, slowpathBlock cfg m conns curTs curTs = some ms ∧
      (WakesInTime cfg conns curTs now (D ++ W) ms ↔ BlockOk cfg conns curTs now D W) := by
  rw [BlockOk]
  split_ifs with hconn harmed
  · exact ⟨10, slowpathBlock_noConn hconn, wakesInTime_noConn hconn⟩
  · exact ⟨10, slowpathBlock_noTimeout h harmed, wakesInTime_noTimeout harmed⟩
  · obtain ⟨a, b, us, ha, hb, rfl, e⟩ := slowpathBlock_both h hcur hconn harmed
    refine ⟨_, e, ?_⟩
    rw [wakesInTime_both ha hb, sleepMs_le_granularity (isLeast_seenTimes ha hb)]

/-- A timeout that expires in 4 ms, and a connection whose control interval ends in 90 µs. -/
theorem slowpath_block_in_time_iff_both :
    ∃ s, Run.exec timeoutStep (timeoutStart (fun _ => ⟨0, none, none⟩) 0) [.arm 0 5000 1 0] = some s ∧
    ∃ (D W : List Armed) (ms : Int), slowpathBlock controlDefaults s.m [⟨.opened, 50, 990⟩] 1000 1000 = some ms ∧
      (WakesInTime controlDefaults [⟨.opened, 50, 990⟩] 1000 1000 (D ++ W) ms ↔
        BlockOk controlDefaults [⟨.opened, 50, 990⟩] 1000 1000 D W) := by
  obtain ⟨s, hs, D, W, h⟩ := @timeoutRun_inv (fun _ => ⟨0, none, none⟩) 0 [.arm 0 5000 1 0] (by decide +kernel)
  have hnow : (Run.exec timeoutStep (timeoutStart (fun _ => ⟨0, none, none⟩) 0) [.arm 0 5000 1 0]).map (·.now) = some 0 := by
    decide +kernel
  rw [hs, map_some, some.injEq] at hnow
  have hat : TimeoutsAt s.m 1000 D W := by
    have hlater := h.timeoutsAt 1000 (by decide)
    rwa [hnow] at hlater
  have hcur : (1000 : BitVec 32).toNat % 2 ^ 28 = 1000 % 2 ^ 28 := rfl
  obtain ⟨ms, e, hiff⟩ := slowpath_block_in_time_iff controlDefaults [⟨.opened, 50, 990⟩] hat hcur
  exact ⟨s, hs, D, W, ms, e, hiff⟩

/-- No timeout is armed, and the control interval of a connection ends in 100 µs. -/
theorem slowpath_block_oversleeps : ¬ ∀ (cfg : ControlConfig) (conns : List CcTimer) (m : TimeoutManager) (curTs : BitVec 32)
    (now : Nat) (D W : List Armed), TimeoutsAt m now D W → curTs.toNat % 2 ^ 28 = now % 2 ^ 28 →
    ∀ ms, slowpathBlock cfg m conns curTs curTs = some ms → WakesInTime cfg conns curTs now (D ++ W) ms := by
  intro h
  have hstart := (timeoutStart_inv (fun _ => ⟨0, none, none⟩) 0).timeoutsAt 0 (by decide)
  have hwakes := h controlDefaults [⟨.opened, 50, 0⟩] _ 0 _ [] [] hstart rfl 10 (by decide +kernel)
  have hlate := hwakes.intervals ⟨.opened, 50, 0⟩ (mem_singleton_self _)
  exact absurd hlate (by decide)

end TasNic
