import Mathlib.Algebra.Order.Ring.Int
import TasNic.Fast.RssSteering
import TasNic.Lib.Settle

/-!
# The load monitor (`tas_nic/tas_nic.c`, `flexnic_loadmon`)

The slow path calls the load monitor every 10 ms. It adds up the busy cycles of the cores, smooths
them and the cycles that have passed, and asks for a core less if more than 1.25 cores are idle, and
for one more if less than 0.2 of a core is. The gap between the two bounds is more than a core, so
that a decision is not taken back (`loadmonTarget_oneWay`), although the product of cores and cycles
may wrap. Core 0 may scale while the load monitor runs.
-/

namespace TasNic.Scaling

open Function Run Settle BitVec

/-- The counters of a core that the load monitor reads. -/
structure CoreCtx where
  loadmonCycBusy : BitVec 64
  kernelDrop : BitVec 64

/-- The state of the load monitor: `ctxs`, `core_loads`, and the static variables of
`flexnic_loadmon`. `rss.numCores` is its `num_cores` while a call is under way. -/
structure Loadmon where
  rss : Rss
  calling : Bool
  ctxs : Nat → Option CoreCtx
  coreLoads : Nat → BitVec 64
  ewmaBusy : BitVec 64
  ewmaCycles : BitVec 64
  lastTsc : BitVec 64
  kdrops : BitVec 64
  waiting : Bool
  waitingN : Nat
  count : Nat

def loadmonInit (rss : Rss) (ctxs : Nat → Option CoreCtx) : Loadmon :=
  ⟨rss, false, ctxs, fun _ => 0, 0, 0, 0, 0, true, 0, 0⟩

/-- `id_cyc`. -/
def idleCycles (numCores : Nat) (ewmaBusy ewmaCycles : BitVec 64) : BitVec 64 :=
  let all := BitVec.ofNat 64 numCores * ewmaCycles
  if ewmaBusy < all then all - ewmaBusy else 0

/-- The number of cores that `flexnic_loadmon` asks for. -/
def loadmonTarget (coresMax : Nat) (ewmaBusy ewmaCycles : BitVec 64) (numCores : Nat) : Option Nat :=
  let idCyc := idleCycles numCores ewmaBusy ewmaCycles
  if 1 < numCores ∧ ewmaCycles * 5 / 4 < idCyc then some (numCores - 1)
  else if numCores < coresMax ∧ idCyc < ewmaCycles / 5 then some (numCores + 1)
  else none

namespace Loadmon

/-- A turn of the loop over the cores, with `cyc_busy`. The call returns if there is no core. -/
def sumTurn (sb : Loadmon × BitVec 64) (i : Nat) : Except Loadmon (Loadmon × BitVec 64) :=
  match sb.1.ctxs i with
  | none => .error sb.1
  | some ctx =>
    let x := ctx.loadmonCycBusy
    .ok ({ sb.1 with
        coreLoads := update sb.1.coreLoads i x
        kdrops := sb.1.kdrops + ctx.kernelDrop
        ctxs := update sb.1.ctxs i (some { ctx with kernelDrop := 0 }) },
      sb.2 + (x - sb.1.coreLoads i))

/-- The averages, and the statistics of every hundredth call. -/
def smooth (s : Loadmon) (cycBusy tsc : BitVec 64) : Loadmon :=
  { s with
    lastTsc := tsc
    ewmaBusy := (7 * s.ewmaBusy + cycBusy) / 8
    ewmaCycles := (7 * s.ewmaCycles + (tsc - s.lastTsc)) / 8
    kdrops := if s.count % 100 = 0 then 0 else s.kdrops
    count := s.count + 1 }

/-- `flexnic_loadmon` until it has smoothed the cycles; `error` if it returns before. -/
def measure (s : Loadmon) (tsc : BitVec 64) : Except Loadmon Loadmon := do
  let sb ← (List.range s.rss.numCores).foldlM sumTurn (s, 0)
  if sb.1.lastTsc = 0 then .error { sb.1 with lastTsc := tsc } else .ok (sb.1.smooth sb.2 tsc)

/-- The rest of `flexnic_loadmon`. -/
def adjust (s : Loadmon) : Loadmon :=
  let s := { s with waitingN := if s.waiting then s.waitingN + 1 else s.waitingN }
  if s.waiting ∧ s.waitingN < 10 then s
  else match loadmonTarget s.rss.coresMax s.ewmaBusy s.ewmaCycles s.rss.numCores with
    | none => s
    | some n => { s with rss := s.rss.flexnicScaleTo n, waiting := true, waitingN := 0 }

/-- `flexnic_loadmon`, from where it has read `fp_cores_cur`. -/
def flexnicLoadmon (s : Loadmon) (tsc : BitVec 64) : Loadmon :=
  match s.measure tsc with
  | .error s => s
  | .ok s => s.adjust

end Loadmon

/-! ## Runs -/

/-- The cores count cycles and drops, the load monitor is called with a time stamp and reads
`fp_cores_cur`, the rest of it runs, and core 0 polls. -/
inductive LoadmonOp where
  | work (ctxs : Nat → Option CoreCtx)
  | start
  | finish (tsc : BitVec 64)
  | pollScale (ok : Bool)

/-- The load monitor, and the numbers of cores that were scaled to. -/
structure LoadmonRun where
  s : Loadmon
  counts : List Nat

def loadmonStep (r : LoadmonRun) : LoadmonOp → Option LoadmonRun
  | .work ctxs => some { r with s := { r.s with ctxs := ctxs } }
  | .start =>
    if r.s.calling then none
    else some { r with s := { r.s with calling := true, rss := { r.s.rss with numCores := r.s.rss.coresCur } } }
  | .finish tsc =>
    if r.s.calling then some { r with s := { r.s.flexnicLoadmon tsc with calling := false } } else none
  | .pollScale ok => match r.s.rss.pollScale ok with
    | .error _ => none
    | .ok rss => some
      { s := { r.s with rss := rss }
        counts := if rss.coresCur = r.s.rss.coresCur then r.counts else r.counts ++ [rss.coresCur] }

/-- A call that smooths the cycles comes to these values. -/
def LoadIs (ewmaBusy ewmaCycles : BitVec 64) (r : LoadmonRun) : LoadmonOp → Prop
  | .finish tsc => ∀ s, r.s.measure tsc = .ok s → s.ewmaBusy = ewmaBusy ∧ s.ewmaCycles = ewmaCycles
  | _ => True

/-! ## Decisions -/

section Target

variable {coresMax n m : Nat} {ewmaBusy ewmaCycles : BitVec 64}

/-- The cycles of `n` cores, in 64 bits. -/
def allCycles (n : Nat) (ewmaCycles : BitVec 64) : Nat := n * ewmaCycles.toNat % 2 ^ 64

/-- One core more, with and without a wrap. -/
theorem allCycles_succ (n : Nat) (ewmaCycles : BitVec 64) :
    allCycles (n + 1) ewmaCycles = allCycles n ewmaCycles + ewmaCycles.toNat ∧ allCycles (n + 1) ewmaCycles < 2 ^ 64 ∨
      allCycles (n + 1) ewmaCycles + 2 ^ 64 = allCycles n ewmaCycles + ewmaCycles.toNat := by
  have hmod : allCycles n ewmaCycles < 2 ^ 64 := Nat.mod_lt _ (by decide)
  have hsucc : allCycles (n + 1) ewmaCycles = (allCycles n ewmaCycles + ewmaCycles.toNat) % 2 ^ 64 := by
    rw [allCycles, allCycles, Nat.succ_mul, Nat.mod_add_mod]
  omega

theorem toNat_idleCycles (n : Nat) (ewmaBusy ewmaCycles : BitVec 64) :
    (idleCycles n ewmaBusy ewmaCycles).toNat = allCycles n ewmaCycles - ewmaBusy.toNat := by
  have hall : (BitVec.ofNat 64 n * ewmaCycles).toNat = allCycles n ewmaCycles := by
    rw [toNat_mul, toNat_ofNat, Nat.mod_mul_mod, allCycles]
  rw [idleCycles]
  split_ifs with h
  · rw [toNat_sub_of_le (BitVec.le_of_lt h), hall]
  · rw [lt_def, hall] at h
    rw [Nat.sub_eq_zero_of_le (Nat.le_of_not_lt h)]
    rfl

theorem loadmonTarget_some (hcyc : ewmaCycles.toNat < 2 ^ 61) (h : loadmonTarget coresMax ewmaBusy ewmaCycles n = some m) :
    1 < n ∧ m = n - 1 ∧ ewmaCycles.toNat * 5 / 4 < allCycles n ewmaCycles - ewmaBusy.toNat ∨
      n < coresMax ∧ m = n + 1 ∧ allCycles n ewmaCycles - ewmaBusy.toNat < ewmaCycles.toNat / 5 := by
  have hfive : (ewmaCycles * 5).toNat = ewmaCycles.toNat * 5 := by
    rw [toNat_mul]
    exact Nat.mod_eq_of_lt (show ewmaCycles.toNat * 5 < 2 ^ 64 by omega)
  rw [loadmonTarget] at h
  split_ifs at h with hdown hup
  · rw [lt_def, toNat_idleCycles, toNat_udiv, hfive] at hdown
    exact .inl ⟨hdown.1, (Option.some.inj h).symm, hdown.2⟩
  · rw [lt_def, toNat_idleCycles, toNat_udiv] at hup
    exact .inr ⟨hup.1, (Option.some.inj h).symm, hup.2⟩

theorem loadmonTarget_oneWay (hcyc : ewmaCycles.toNat < 2 ^ 61) :
    OneWay (loadmonTarget coresMax ewmaBusy ewmaCycles) 1 coresMax where
  byOne n m _ _ h := by
    rcases loadmonTarget_some hcyc h with h | h <;> omega
  within n m hlo hhi h := by
    rcases loadmonTarget_some hcyc h with h | h <;> omega
  noReturn n m hlo hhi h hback := by
    rcases loadmonTarget_some hcyc h with ⟨hone, rfl, hidle⟩ | ⟨-, rfl, hidle⟩
    · obtain ⟨k, rfl⟩ : ∃ k, n = k + 1 := Nat.exists_eq_add_one.mpr (by omega)
      have hsucc := allCycles_succ k ewmaCycles
      rcases loadmonTarget_some hcyc hback with ⟨-, hm, -⟩ | ⟨-, -, hidle'⟩
      · omega
      · rw [Nat.add_sub_cancel] at hidle'
        omega
    · have hsucc := allCycles_succ n ewmaCycles
      rcases loadmonTarget_some hcyc hback with ⟨-, -, hidle'⟩ | ⟨-, hm, -⟩
      · omega
      · omega

end Target

/-! ## Calls -/

section Calls

variable {s t : Loadmon} {tsc : BitVec 64}

/-- The loop over the cores does not scale. -/
theorem sumTurn_rss (s : Loadmon) (n : Nat) (cycBusy : BitVec 64) : Ends (fun e : Loadmon => e.rss = s.rss)
    (fun sb => sb.1.rss = s.rss) ((List.range n).foldlM Loadmon.sumTurn (s, cycBusy)) := by
  refine Ends.foldlM_range (I := fun _ (sb : Loadmon × BitVec 64) => sb.1.rss = s.rss) rfl fun i sb _ hsb => ?_
  rw [Loadmon.sumTurn]
  cases sb.1.ctxs i with
  | none => exact hsb
  | some ctx => exact hsb

theorem measure_spec (s : Loadmon) (tsc : BitVec 64) : Ends (fun e : Loadmon => e.rss = s.rss)
    (fun t : Loadmon => t.rss = s.rss ∧ t.ewmaCycles.toNat < 2 ^ 61) (s.measure tsc) := by
  rw [Loadmon.measure]
  refine (sumTurn_rss s _ 0).bind fun sb hsb => ?_
  split_ifs
  · exact hsb
  · refine ⟨hsb, ?_⟩
    show ((7 * sb.1.ewmaCycles + (tsc - sb.1.lastTsc)) / 8).toNat < 2 ^ 61
    rw [toNat_udiv]
    rw [show (8 : BitVec 64).toNat = 8 from rfl]
    omega

/-- What the rest of a call does: nothing, or it asks for the number of cores that is decided on. -/
theorem adjust_rss (s : Loadmon) : s.adjust.rss = s.rss ∨
    ∃ n, loadmonTarget s.rss.coresMax s.ewmaBusy s.ewmaCycles s.rss.numCores = some n ∧ s.adjust.rss = s.rss.flexnicScaleTo n := by
  rw [Loadmon.adjust]
  generalize (if s.waiting = true then s.waitingN + 1 else s.waitingN) = waitingN
  by_cases hwait : s.waiting = true ∧ waitingN < 10
  · rw [if_pos hwait]
    exact .inl rfl
  · rw [if_neg hwait]
    cases loadmonTarget s.rss.coresMax s.ewmaBusy s.ewmaCycles s.rss.numCores with
    | none => exact .inl rfl
    | some n => exact .inr ⟨n, rfl, rfl⟩

theorem flexnicLoadmon_rss {ewmaBusy ewmaCycles : BitVec 64}
    (hload : ∀ t, s.measure tsc = .ok t → t.ewmaBusy = ewmaBusy ∧ t.ewmaCycles = ewmaCycles) :
    (s.flexnicLoadmon tsc).rss = s.rss ∨ ∃ n, ewmaCycles.toNat < 2 ^ 61 ∧
      loadmonTarget s.rss.coresMax ewmaBusy ewmaCycles s.rss.numCores = some n ∧
      (s.flexnicLoadmon tsc).rss = s.rss.flexnicScaleTo n := by
  have hspec := measure_spec s tsc
  rw [Loadmon.flexnicLoadmon]
  cases hm : s.measure tsc with
  | error t =>
    rw [hm] at hspec
    exact .inl hspec
  | ok t =>
    rw [hm] at hspec
    obtain ⟨hrss, hcyc⟩ := hspec
    obtain ⟨rfl, rfl⟩ := hload t hm
    rw [← hrss]
    exact (adjust_rss t).imp_right fun ⟨n, hn, e⟩ => ⟨n, hcyc, hn, e⟩

theorem ScaleInv.pollScale_cores {s t : Rss} {ok : Bool} (h : ScaleInv s) (e : s.pollScale ok = .ok t) :
    ScaleInv t ∧ t.coresMax = s.coresMax ∧ t.numCores = s.numCores ∧ t.scaleTo = 0 ∧
      t.coresCur = if s.scaleTo = 0 then s.coresCur else s.scaleTo := by
  have hinv := h.pollScale ok
  rw [e] at hinv
  refine ⟨hinv, ?_⟩
  rw [Rss.pollScale] at e
  split_ifs at e ⊢ with h0
  · cases e
    exact ⟨rfl, rfl, h0, rfl⟩
  · obtain ⟨u, hu, rfl⟩ := map_ok e
    have hsame := h.scale h0 ok
    rw [hu] at hsame
    exact ⟨hsame.2.coresMax, hsame.2.numCores, rfl, rfl⟩

end Calls

/-! ## The numbers of cores of a run -/

/-- The numbers of cores are those that `f` leads to, and what is asked for comes next. A call that has read the number of cores
before core 0 scaled asks for that number again. -/
structure CountsInv (f : Nat → Option Nat) (coresMax n : Nat) (r : LoadmonRun) : Prop where
  inv : ScaleInv r.s.rss
  coresMax : r.s.rss.coresMax = coresMax
  counts : r.counts = path f r.counts.length n
  cur : r.s.rss.coresCur = r.counts.getLastD n
  asked : r.s.rss.scaleTo = 0 ∨ r.s.rss.scaleTo = r.s.rss.coresCur ∨ f r.s.rss.coresCur = some r.s.rss.scaleTo
  called : r.s.calling = true → r.s.rss.numCores = r.s.rss.coresCur ∨
    r.s.rss.scaleTo = 0 ∧ f r.s.rss.numCores = some r.s.rss.coresCur

section Counts

variable {f : Nat → Option Nat} {coresMax n : Nat} {r : LoadmonRun}

theorem CountsInv.pollScale (h : CountsInv f coresMax n r) {ok : Bool} {rss : Rss}
    (e : r.s.rss.pollScale ok = .ok rss) : CountsInv f coresMax n
      { s := { r.s with rss := rss }
        counts := if rss.coresCur = r.s.rss.coresCur then r.counts else r.counts ++ [rss.coresCur] } := by
  obtain ⟨hinv, hmax, hnum, hto, hcur⟩ := h.inv.pollScale_cores e
  by_cases hsame : rss.coresCur = r.s.rss.coresCur
  · rw [if_pos hsame]
    refine ⟨hinv, hmax.trans h.coresMax, h.counts, hsame.trans h.cur, .inl hto, fun hcall => ?_⟩
    rw [hnum, hsame]
    exact (h.called hcall).imp_right fun hread => ⟨hto, hread.2⟩
  · -- the number that was asked for is the next one
    have hne : r.s.rss.scaleTo ≠ 0 := by
      intro h0
      rw [if_pos h0] at hcur
      exact hsame hcur
    rw [if_neg hne] at hcur
    have hnext : f r.s.rss.coresCur = some rss.coresCur := by
      rw [hcur]
      exact (h.asked.resolve_left hne).resolve_left fun hback => hsame (hcur.trans hback)
    rw [if_neg hsame]
    refine ⟨hinv, hmax.trans h.coresMax, ?_, ?_, .inl hto, fun hcall => .inr ⟨hto, ?_⟩⟩
    · rw [List.length_append, List.length_singleton, path_concat (congrArg List.length h.counts.symm), ← h.counts]
      rw [← h.counts, ← h.cur]
      exact hnext
    · rw [List.getLastD_concat]
    · have hread := (h.called hcall).resolve_right fun hread => hne hread.1
      rw [hnum, hread]
      exact hnext

theorem CountsInv.scaleTo {m : Nat} (h : CountsInv f coresMax n r) (hcall : r.s.calling = true)
    (hm : f r.s.rss.numCores = some m) (hle : m ≤ coresMax) (s : Loadmon) (hs : s.rss = r.s.rss.flexnicScaleTo m) :
    CountsInv f coresMax n { r with s := { s with calling := false } } := by
  have hinv := h.inv.flexnicScaleTo (h.coresMax ▸ hle)
  have hsame : s.rss.coresMax = r.s.rss.coresMax ∧ s.rss.coresCur = r.s.rss.coresCur := by
    rw [hs, Rss.flexnicScaleTo]
    split_ifs
    · exact ⟨rfl, rfl⟩
    · exact ⟨rfl, rfl⟩
  refine ⟨hs ▸ hinv, hsame.1.trans h.coresMax, h.counts, hsame.2.trans h.cur, ?_, fun hcall => absurd hcall Bool.false_ne_true⟩
  rw [hsame.2, hs, Rss.flexnicScaleTo]
  split_ifs with hbusy
  · exact h.asked
  · refine .inr ?_
    rcases h.called hcall with hread | ⟨-, hread⟩
    · exact .inr (hread ▸ hm)
    · exact .inl (Option.some.inj (hm.symm.trans hread))

/-- A call that asks for nothing ends. -/
theorem CountsInv.returns (h : CountsInv f coresMax n r) (s : Loadmon) (hs : s.rss = r.s.rss) :
    CountsInv f coresMax n { r with s := { s with calling := false } } := by
  refine ⟨?_, ?_, h.counts, ?_, ?_, fun hcall => absurd hcall Bool.false_ne_true⟩ <;> dsimp only <;> rw [hs]
  · exact h.inv
  · exact h.coresMax
  · exact h.cur
  · exact h.asked

theorem CountsInv.start (h : CountsInv f coresMax n r) : CountsInv f coresMax n
    { r with s := { r.s with calling := true, rss := { r.s.rss with numCores := r.s.rss.coresCur } } } := by
  have hinv : Ends (· = Stop.aborted) ScaleInv (scaleCall r.s.rss .loadmonStart) := h.inv.call fun _ e => absurd e (by simp)
  exact { h with inv := hinv, called := fun _ => .inl rfl }

end Counts

theorem loadmonStep_counts {coresMax n : Nat} {ewmaBusy ewmaCycles : BitVec 64} (r : LoadmonRun) (op : LoadmonOp) (r' : LoadmonRun)
    (h : CountsInv (loadmonTarget coresMax ewmaBusy ewmaCycles) coresMax n r) (hload : LoadIs ewmaBusy ewmaCycles r op)
    (e : loadmonStep r op = some r') : CountsInv (loadmonTarget coresMax ewmaBusy ewmaCycles) coresMax n r' := by
  cases op with
  | work ctxs =>
    cases e
    exact { h with }
  | start =>
    rw [loadmonStep] at e
    split_ifs at e
    cases e
    exact h.start
  | finish tsc =>
    rw [loadmonStep] at e
    split_ifs at e with hcall
    cases e
    rcases flexnicLoadmon_rss hload with hs | ⟨m, hcyc, hm, hs⟩
    · exact h.returns _ hs
    · rw [h.coresMax] at hm
      obtain ⟨hlo, hhi⟩ := h.inv.numCores
      rw [h.coresMax] at hhi
      exact h.scaleTo hcall hm ((loadmonTarget_oneWay hcyc).within _ _ hlo hhi hm).2 _ hs
  | pollScale ok =>
    rw [loadmonStep] at e
    cases hrss : r.s.rss.pollScale ok with
    | error x =>
      rw [hrss] at e
      cases e
    | ok rss =>
      rw [hrss] at e
      cases e
      exact h.pollScale hrss

/-- The numbers of cores that follow `n` go in one direction, by one and within the range, and there are fewer of them than cores. -/
structure Directed (coresMax n : Nat) (counts : List Nat) : Prop where
  direction : ∃ up, (n :: counts).IsChain (Next up)
  within : ∀ m ∈ counts, 1 ≤ m ∧ m ≤ coresMax
  steps : counts.length ≤ coresMax - 1

/-- With these smoothed cycles a decision is not taken back at the new number of cores. The decisions that follow one another go in one
direction and end, and so do the changes of every run in which the smoothed cycles stay the same. -/
structure ScalingSettles (coresMax : Nat) (ewmaBusy ewmaCycles : BitVec 64) : Prop where
  notBack : ∀ n m, 1 ≤ n → n ≤ coresMax → loadmonTarget coresMax ewmaBusy ewmaCycles n = some m →
    (m = n + 1 ∨ m + 1 = n) ∧ loadmonTarget coresMax ewmaBusy ewmaCycles m ≠ some n
  directed : ∀ n k, 1 ≤ n → n ≤ coresMax → Directed coresMax n (path (loadmonTarget coresMax ewmaBusy ewmaCycles) k n)
  ends : ∀ n k, 1 ≤ n → n ≤ coresMax → coresMax - 1 ≤ k → loadmonTarget coresMax ewmaBusy ewmaCycles
    ((path (loadmonTarget coresMax ewmaBusy ewmaCycles) k n).getLastD n) = none
  runs : ∀ (s : Loadmon) (ops : List LoadmonOp) (r : LoadmonRun), ScaleInv s.rss → s.rss.coresMax = coresMax →
    s.rss.scaleTo = 0 → s.calling = false → Run.All loadmonStep (LoadIs ewmaBusy ewmaCycles) ⟨s, []⟩ ops →
    Run.exec loadmonStep ⟨s, []⟩ ops = some r →
    Directed coresMax s.rss.coresCur r.counts ∧ r.s.rss.coresCur = r.counts.getLastD s.rss.coresCur ∧
      r.counts = path (loadmonTarget coresMax ewmaBusy ewmaCycles) r.counts.length s.rss.coresCur

/-- Whatever the smoothed cycles of a call are, and the number of cores. -/
theorem core_scaling_settles {s t : Loadmon} {tsc : BitVec 64} (hs : s.measure tsc = .ok t) (coresMax : Nat) :
    ScalingSettles coresMax t.ewmaBusy t.ewmaCycles := by
  have hcyc : t.ewmaCycles.toNat < 2 ^ 61 := by
    have hspec := measure_spec s tsc
    rw [hs] at hspec
    exact hspec.2
  have hway := @loadmonTarget_oneWay coresMax t.ewmaBusy _ hcyc
  have hdirected : ∀ n k, 1 ≤ n → n ≤ coresMax →
      Directed coresMax n (path (loadmonTarget coresMax t.ewmaBusy t.ewmaCycles) k n) := by
    intro n k hlo hhi
    obtain ⟨hdir, hwithin, hlen, -⟩ := hway.settled hlo hhi k
    exact ⟨hdir, hwithin, hlen⟩
  refine ⟨fun n m hlo hhi h => ⟨hway.byOne n m hlo hhi h, hway.noReturn n m hlo hhi h⟩, hdirected,
    fun n k hlo hhi => (hway.settled hlo hhi k).2.2.2, ?_⟩
  intro s₀ ops r hinv hmax hto hcall hall he
  have hstart : CountsInv (loadmonTarget coresMax t.ewmaBusy t.ewmaCycles) coresMax s₀.rss.coresCur ⟨s₀, []⟩ :=
    ⟨hinv, hmax, rfl, rfl, .inl hto, fun hc => absurd (hcall.symm.trans hc) Bool.false_ne_true⟩
  have hend := Run.exec_inv loadmonStep_counts hstart hall he
  have hcounts := hdirected s₀.rss.coresCur r.counts.length hinv.exact.cores.1 (hmax ▸ hinv.exact.cores.2)
  rw [← hend.counts] at hcounts
  exact ⟨hcounts, hend.cur, hend.counts⟩

/-- One core that was busy half of the time, before the second call. -/
def halfBusy : Loadmon :=
  { loadmonInit ⟨8, fun _ => 0, fun _ => false, fun _ => 0, fun _ => 0, fun _ => 8, 3, 1, 0, 1⟩ (fun _ => some ⟨500, 0⟩) with
    lastTsc := 1000 }

theorem core_scaling_settles_half : ∃ t, halfBusy.measure 2000 = .ok t ∧ ScalingSettles 3 t.ewmaBusy t.ewmaCycles := by
  obtain ⟨t, ht⟩ : ∃ t, halfBusy.measure 2000 = .ok t := ⟨_, rfl⟩
  exact ⟨t, ht, core_scaling_settles ht 3⟩

-- two and a half cores are busy
example : path (loadmonTarget 4 2500 1000) 9 1 = [2, 3] := by decide

end TasNic.Scaling
