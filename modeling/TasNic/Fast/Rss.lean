import TasNic.Lib.Run
import Mathlib.Logic.Function.Basic

/-!
# Scaling the fast path (`tas_nic/fast/network.c`, `poll_scale`, `flexnic_scale_to`)

The redirection table of the network card, the copy of it in `rss_reta` and `flow_group_steering` say
which core a bucket is steered to, and `rss_core_buckets` counts the buckets of a core.
`rss_reta[k / 64].reta[k % 64]` is `reta k`, and bit `k % 64` of its mask is `mask k`. Entries are
numbers that fit their type: 16 bits, and 8 bits in `flow_group_steering`. A call stops at a division
by zero, at an access outside `rss_core_buckets`, and in a search that does not end.
-/

namespace TasNic.Scaling

open Function

def flexnicPlMaxFlowgroups : Nat := 4096
def flexnicPlAppstCtxMcs : Nat := 16

inductive Stop where
  | divByZero
  /-- An access to `rss_core_buckets[c]` outside the array. -/
  | outOfBounds (c : Nat)
  /-- A search for a bucket that goes around the table for ever. -/
  | endless
  /-- `abort`, or an initialisation that fails. -/
  | aborted
deriving DecidableEq

structure Rss where
  /-- `rss_reta_size`. -/
  size : Nat
  reta : Nat → Nat
  mask : Nat → Bool
  /-- The redirection table of the network card. -/
  hw : Nat → Nat
  /-- `flow_group_steering`. -/
  steering : Nat → Nat
  /-- `rss_core_buckets`, which has `fp_cores_max` elements. -/
  buckets : Nat → Nat
  coresMax : Nat
  coresCur : Nat
  scaleTo : Nat
  /-- `num_cores` of the load monitor. -/
  numCores : Nat

namespace Rss

/-- `rss_core_buckets[c]`. -/
def bucketsAt (s : Rss) (c : Nat) : Except Stop Nat :=
  if c < s.coresMax then .ok (s.buckets c) else .error (.outOfBounds c)

/-- `rss_core_buckets[c] += n`, where -1 is 0xffff. -/
def addBuckets (s : Rss) (c n : Nat) : Except Stop Rss :=
  if c < s.coresMax then .ok { s with buckets := update s.buckets c ((s.buckets c + n) % 0x10000) }
  else .error (.outOfBounds c)

/-- A turn of `core_min`; `iv` is `i_min` and `v_min`. -/
def coreMinTurn (s : Rss) (iv : Nat × Nat) (i : Nat) : Except Stop (Nat × Nat) :=
  (s.bucketsAt i).map fun v => if v < iv.2 then (i, v) else iv

/-- `core_min`; `v_min` starts as `UINT8_MAX`. -/
def coreMin (s : Rss) (num : Nat) : Except Stop Nat :=
  ((List.range num).foldlM s.coreMinTurn (0, 255)).map (·.1)

def coreMaxTurn (s : Rss) (iv : Nat × Nat) (i : Nat) : Except Stop (Nat × Nat) :=
  (s.bucketsAt i).map fun v => if v ≥ iv.2 then (i, v) else iv

def coreMax (s : Rss) (num : Nat) : Except Stop Nat :=
  ((List.range num).foldlM s.coreMaxTurn (0, 0)).map (·.1)

/-- Bucket `k` goes from core `c` to core `j`. -/
def steer (s : Rss) (k c j : Nat) : Except Stop Rss := do
  let s := { s with
    mask := update s.mask k true, reta := update s.reta k j, steering := update s.steering k (j % 0x100) }
  let s ← s.addBuckets c 0xffff
  s.addBuckets j 1

/-- The search for a bucket of core `c` from `k` on. After `size` turns it has seen all. -/
def search (s : Rss) (c : Nat) : Nat → Nat → Except Stop Nat
  | 0, _ => .error .endless
  | turns + 1, k => if s.reta k = c then .ok k else search s c turns ((k + 1) % s.size)

/-- `rte_eth_dev_rss_reta_update`, of which a failure ends in `abort`. -/
def retaUpdate (s : Rss) (ok : Bool) : Except Stop Rss :=
  if ok then .ok { s with hw := fun k => if k < s.size ∧ s.mask k = true then s.reta k else s.hw k }
  else .error .aborted

def clearMask (s : Rss) : Rss := { s with mask := fun _ => false }

/-- A bucket of one of the first `old` cores goes to core `j`. -/
def scaleUpTurn (old j : Nat) (sk : Rss × Nat) : Except Stop (Rss × Nat) := do
  let c ← sk.1.coreMax old
  let k ← sk.1.search c sk.1.size sk.2
  return (← sk.1.steer k c j, k)

/-- Core `j` gets its share. -/
def scaleUpCore (old share j : Nat) (sk : Rss × Nat) : Except Stop (Rss × Nat) :=
  (List.range share).foldlM (fun sk _ => scaleUpTurn old j sk) sk

def networkScaleUp (s : Rss) (old new : Nat) (ok : Bool) : Except Stop Rss :=
  if new = 0 then .error .divByZero
  else do
    let sk ← (List.range (new - old)).foldlM (fun sk i => scaleUpCore old (s.size / new) (old + i) sk) (s.clearMask, 0)
    sk.1.retaUpdate ok

/-- A bucket of a core from `new` on goes to the first core with the fewest buckets. -/
def scaleDownTurn (new : Nat) (s : Rss) (i : Nat) : Except Stop Rss :=
  if s.reta i ≥ new then do
    let c ← s.coreMin new
    s.steer i (s.reta i) c
  else .ok s

def networkScaleDown (s : Rss) (new : Nat) (ok : Bool) : Except Stop Rss := do
  let s ← (List.range s.size).foldlM (scaleDownTurn new) s.clearMask
  s.retaUpdate ok

/-- The change of the tables in `poll_scale`; the numbers of cores are passed on as 16 bits. -/
def scale (s : Rss) (ok : Bool) : Except Stop Rss :=
  if s.scaleTo < s.coresCur then s.networkScaleDown (s.scaleTo % 0x10000) ok
  else if s.scaleTo > s.coresCur then s.networkScaleUp (s.coresCur % 0x10000) (s.scaleTo % 0x10000) ok
  else .ok s

def pollScale (s : Rss) (ok : Bool) : Except Stop Rss :=
  if s.scaleTo = 0 then .ok s
  else (s.scale ok).map fun t => { t with coresCur := s.scaleTo, scaleTo := 0 }

def flexnicScaleTo (s : Rss) (cores : Nat) : Rss :=
  -- already scaling
  if s.scaleTo ≠ 0 then s else { s with scaleTo := cores }

def kinReqScale (s : Rss) (numCores : BitVec 32) : Rss := s.flexnicScaleTo numCores.toNat

/-- A turn of the loop of `reta_setup`, with the next core. -/
def retaSetupTurn (sc : Rss × Nat) (i : Nat) : Except Stop (Rss × Nat) := do
  let s ← sc.1.addBuckets sc.2 1
  return ({ s with mask := update s.mask i true, reta := update s.reta i sc.2, steering := update s.steering i (sc.2 % 0x100) },
    (sc.2 + 1) % s.coresCur)

def retaSetup (s : Rss) (ok : Bool) : Except Stop Rss :=
  if s.size > flexnicPlMaxFlowgroups then .error .aborted
  else do
    let sc ← (List.range s.size).foldlM retaSetupTurn (s, 0)
    sc.1.retaUpdate ok

/-- The initialisation, with autoscaling: `dataplane_init` checks `fp_cores_max`, and core 0 calls
`reta_setup`. The device has a table of `size` buckets that is `hw` before. -/
def networkInit (size coresMax : Nat) (hw : Nat → Nat) (ok : Bool) : Except Stop Rss :=
  if coresMax = 0 ∨ coresMax > flexnicPlAppstCtxMcs then .error .aborted
  else retaSetup ⟨size, fun _ => 0, fun _ => false, hw, fun _ => 0, fun _ => 0, coresMax, 1, 0, 1⟩ ok

end Rss

/-! ## Runs -/

/-- The slow path handles requests and runs the load monitor, which reads `fp_cores_cur` before it
decides; core 0 polls. -/
inductive ScaleOp where
  | reqScale (numCores : BitVec 32)
  | loadmonStart
  | loadmonDown
  | loadmonUp
  | pollScale (ok : Bool)

def scaleCall (s : Rss) : ScaleOp → Except Stop Rss
  | .reqScale numCores => .ok (s.kinReqScale numCores)
  | .loadmonStart => .ok { s with numCores := s.coresCur }
  | .loadmonDown => .ok (if s.numCores > 1 then s.flexnicScaleTo (s.numCores - 1) else s)
  | .loadmonUp => .ok (if s.numCores < s.coresMax then s.flexnicScaleTo (s.numCores + 1) else s)
  | .pollScale ok => s.pollScale ok

abbrev ScaleProc := Except Stop Rss

/-- A process that was stopped takes no step. -/
def scaleStep : ScaleProc → ScaleOp → Option ScaleProc
  | .error _, _ => none
  | .ok s, op => some (scaleCall s op)

end TasNic.Scaling
