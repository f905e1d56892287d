import TasNic.Fast.ArxCache
import TasNic.Fast.Qman
import TasNic.Lib.RingArray
import Mathlib.Data.List.Perm.Basic
import Mathlib.Data.List.Count

/-!
# The packet buffers of a core (`tas_nic/fast/fastemu.c`)

A core takes buffers from the driver, for packets received (`poll_rx`) and for its cache
(`bufcache_prealloc`), and gives them back in packets sent (`tx_flush`) or freed
(`bufcache_free`). What the flow functions return says whether they gave the buffer to `tx_send`
(`RxUse.packet`, `TxUse.bump`, `TxUse.qman`), and nothing else of them matters.
-/

namespace TasNic

open Function List Option RingArray

/-! ## What the flow functions do with a buffer -/

/-- Whether the effect is a call of `tx_send`. -/
def FlowEffect.isSend : FlowEffect → Bool
  | .segment _ | .ack _ => true
  | _ => false

/-- How often a flow function called `tx_send`. -/
def FlowResult.sends (r : FlowResult) : Nat := r.out.countP (·.isSend)

/-- What `poll_rx` gets back for a packet: the return value, and how often its buffer was given to
`tx_send`. A value above 0 claims the buffer. -/
structure RxUse where
  ret : Int
  sends : Nat
  claims : sends = if 0 < ret then 1 else 0

/-- What the other polls get back for a buffer of the cache, which 0 claims. -/
structure TxUse where
  ret : Int
  sends : Nat
  claims : sends = if ret = 0 then 1 else 0

theorem countP_qmanMore (fs : FlowSt) (id oldAvail newAvail : BitVec 32) :
    (qmanMore fs id oldAvail newAvail).countP (·.isSend) = 0 := by
  unfold qmanMore
  split <;> rfl

variable {ts : BitVec 32} {s : PollState} {num : Nat} {t : QmanThread}

theorem fastFlowsPacket_sends {fs : FlowSt} {flowId : BitVec 32} {p : RxPacket} {env : RdmaEnv} {r : FlowResult}
    (h : fastFlowsPacket fs flowId p ts env = some r) : r.sends = if 0 < r.ret then 1 else 0 := by
  rcases fastFlowsPacket_cases h with ⟨-, -, hret, hout⟩ | ⟨st, _, -, hun⟩
  · rw [FlowResult.sends, hret, hout]
    rfl
  obtain ⟨rx, arx, rfl, hf⟩ := packetUnlock_eq hun
  have harx : arx.countP (·.isSend) = 0 := by
    rcases hf with ⟨-, rfl⟩ | ⟨-, -, rfl⟩ <;> rfl
  rw [FlowResult.sends, countP_append, countP_append, harx, countP_qmanMore]
  cases st.triggerAck <;> rfl

theorem fastFlowsBump_sends (fs : FlowSt) (flowId : BitVec 32) (bumpSeq : BitVec 16) (txBump : BitVec 32)
    (flags : BitVec 8) (ts : BitVec 32) :
    (fastFlowsBump fs flowId bumpSeq txBump flags ts).sends =
      if (fastFlowsBump fs flowId bumpSeq txBump flags ts).ret = 0 then 1 else 0 := by
  rw [FlowResult.sends]
  obtain ⟨fs', old, new, ⟨hret, e⟩ | ⟨hret, -, t, -, e⟩⟩ := fastFlowsBump_out fs flowId bumpSeq txBump flags ts
  · rw [hret, e, countP_qmanMore]
    rfl
  · rw [hret, e, countP_append, countP_qmanMore]
    rfl

theorem fastFlowsQman_sends {fs : FlowSt} {flowId : BitVec 32} {ctxId newCore : BitVec 16} {r : FlowResult}
    (h : fastFlowsQman fs flowId ctxId newCore ts = some r) : r.sends = if r.ret = 0 then 1 else 0 := by
  rcases fastFlowsQman_cases h with rfl | rfl | ⟨-, -, rfl⟩ <;> rfl

def RxUse.packet {fs : FlowSt} {flowId ts : BitVec 32} {p : RxPacket} {env : RdmaEnv} {r : FlowResult}
    (h : fastFlowsPacket fs flowId p ts env = some r) : RxUse :=
  ⟨r.ret, r.sends, fastFlowsPacket_sends h⟩

def RxUse.noFlow : RxUse := ⟨-1, 0, rfl⟩

/-- `fast_appctx_poll_bump`. -/
def TxUse.bump (fs : FlowSt) (flowId : BitVec 32) (bumpSeq : BitVec 16) (txBump : BitVec 32) (flags : BitVec 8)
    (ts : BitVec 32) : TxUse :=
  let r := fastFlowsBump fs flowId bumpSeq txBump flags ts
  ⟨if r.ret ≠ 0 then 1 else 0, r.sends, by
    rw [fastFlowsBump_sends]
    by_cases h : (fastFlowsBump fs flowId bumpSeq txBump flags ts).ret = 0 <;> simp [r, h]⟩

/-- `fast_flows_qman`. -/
def TxUse.qman {fs : FlowSt} {flowId ts : BitVec 32} {ctxId newCore : BitVec 16} {r : FlowResult}
    (h : fastFlowsQman fs flowId ctxId newCore ts = some r) : TxUse :=
  ⟨r.ret, r.sends, fastFlowsQman_sends h⟩

/-- `fast_kernel_poll` for a packet. -/
def TxUse.kernelPacket : TxUse := ⟨0, 1, rfl⟩

/-- `fast_kernel_poll` for a retransmission. -/
def TxUse.kernelRetransmit : TxUse := ⟨1, 0, rfl⟩

/-- `fast_kernel_poll` without an entry. -/
def TxUse.kernelEmpty : TxUse := ⟨-1, 0, rfl⟩

/-- What `qman_poll` returns, for every number of queues it is asked for. -/
structure QmanPolled where
  count : Nat → Nat
  le : ∀ num, count num ≤ num

theorem pollFire_length {s' : PollState} {idx : Nat} (h : pollFire s idx = some s') (hs : s.out.length < num) :
    s'.out.length ≤ num := by
  unfold pollFire at h
  split at h
  · obtain ⟨r, -, rfl⟩ := map_eq_some_iff.mp h
    rw [length_append]
    exact hs
  · cases h
    omega

theorem pollNolimit_length (h : pollNolimit t num = some s) :
    s.out.length ≤ num := by
  have h₀ : (⟨t, []⟩ : PollState).out.length ≤ num := Nat.zero_le num
  refine Run.loop_inv (I := fun s : PollState => s.out.length ≤ num) (fun s b s' hs ht => ?_) h₀ h
  unfold nolimitTurn at ht
  split at ht
  · rename_i hlt
    split at ht
    · cases ht
      exact hs
    · obtain ⟨s₁, h₁, e⟩ := map_eq_some_iff.mp ht
      cases e
      exact pollFire_length h₁ hlt
  · cases ht
    exact hs

theorem pollSkiplist_length (h : pollSkiplist t ts num = some s) : s.out.length ≤ num := by
  obtain ⟨s₁, hloop, rfl⟩ := map_eq_some_iff.mp h
  change s₁.out.length ≤ num
  have h₀ : (⟨t, []⟩ : PollState).out.length ≤ num := Nat.zero_le num
  refine Run.loop_inv (I := fun s : PollState => s.out.length ≤ num) (fun s b s' hs ht => ?_) h₀ hloop
  unfold skiplistTurn at ht
  split at ht
  · rename_i hlt
    split at ht
    · cases ht
      exact hs
    · split at ht
      · cases ht
        exact hs
      · split at ht
        · cases ht
        · obtain ⟨s₁, h₁, e⟩ := map_eq_some_iff.mp ht
          cases e
          exact pollFire_length h₁ hlt
  · cases ht
    exact hs

theorem qmanPoll_length (h : qmanPoll t num ts = some s) :
    s.out.length ≤ num := by
  obtain ⟨s₀, hpolled, rfl⟩ := map_eq_some_iff.mp h
  split at hpolled
  all_goals
    obtain ⟨s₁, h₁, hrest⟩ := bind_eq_some_iff.mp hpolled
    obtain ⟨s₂, h₂, rfl⟩ := map_eq_some_iff.mp hrest
    rw [length_append]
  · have := pollNolimit_length h₁
    have := pollSkiplist_length h₂
    omega
  · have := pollSkiplist_length h₁
    have := pollNolimit_length h₂
    omega

/-- `qman_poll` of a thread. -/
def QmanPolled.of (t : QmanThread) (ts : BitVec 32) : QmanPolled where
  count num := ((qmanPoll t num ts).map (·.out.length)).getD 0
  le num := by
    cases h : qmanPoll t num ts with
    | none => exact Nat.zero_le num
    | some s => exact qmanPoll_length h

/-! ## The buffers of a core -/

/-- A `struct network_buf_handle *`. -/
abbrev Handle := Nat

def bufcacheSize : Nat := 128
def txbufSize : Nat := 2 * batchSize
/-- `FLEXNIC_PL_APPCTX_NUM`. -/
def appctxNum : Nat := 16

structure BufMoment where
  cache : List Handle
  tx : List Handle
  rx : List Handle
  driver : List Handle
  bufcacheNum : Nat
  txNum : Nat
deriving DecidableEq

/-- A core's cache and transmit array, and the handles the driver has. Besides, the handles of received
packets that are being processed, how many handles of the slice of the cache are in the transmit array
already, and the moments so far. -/
structure BufCtx where
  bufcacheHandles : Nat → Handle
  bufcacheHead : Nat
  bufcacheNum : Nat
  txHandles : Nat → Handle
  txNum : Nat
  driver : List Handle
  rx : List Handle
  used : Nat
  moments : List BufMoment

namespace BufCtx

def cache (c : BufCtx) : List Handle :=
  (RingArray.contents bufcacheSize c.bufcacheHandles c.bufcacheHead c.bufcacheNum).drop c.used

def tx (c : BufCtx) : List Handle := (List.range c.txNum).map c.txHandles

def now (c : BufCtx) : BufMoment := ⟨c.cache, c.tx, c.rx, c.driver, c.bufcacheNum, c.txNum⟩

def tick (c : BufCtx) : BufCtx := { c with moments := c.moments ++ [c.now] }

/-- A core that starts: the driver has all handles. -/
def init (all : List Handle) : BufCtx := tick ⟨fun _ => 0, 0, 0, fun _ => 0, 0, all, [], 0, []⟩

end BufCtx

/-- The driver hands out handles, one for each of the numbers as long as there are any. Which ones
is up to the driver. -/
def draw : List Nat → List Handle → List Handle × List Handle
  | [], d => ([], d)
  | k :: ks, d => match d[k % d.length]? with
    | none => ([], d)
    | some h =>
      let (got, rest) := draw ks (d.eraseIdx (k % d.length))
      (h :: got, rest)

/-- `network_buf_alloc` of `num` handles for the cache, to be stored from place `o` on. -/
def networkBufAlloc (c : BufCtx) (num o : Nat) (picks : List Nat) : Nat × BufCtx :=
  let (got, rest) := draw (picks.take num) c.driver
  -- an allocation that fails leaves a null pointer
  let stored := if got.length < num then got ++ [0] else got
  (got.length, { c with driver := rest, bufcacheHandles := RingArray.store c.bufcacheHandles o stored })

/-- The refill of `bufcache_prealloc`. -/
def bufcacheRefill (c : BufCtx) (picks picks' : List Nat) : BufCtx :=
  let grow := bufcacheSize - c.bufcacheNum
  let head := (c.bufcacheHead + c.bufcacheNum) % bufcacheSize
  let (res, c') :=
    if head + grow ≤ bufcacheSize then networkBufAlloc c grow head picks
    else
      let g := bufcacheSize - head
      let (res, c₁) := networkBufAlloc c g head picks
      if res = g then
        let (res', c₂) := networkBufAlloc c₁ (grow - g) 0 picks'
        (res + res', c₂)
      else (res, c₁)
  { c' with bufcacheNum := c.bufcacheNum + res }.tick

def bufcachePrealloc (c : BufCtx) (num : Nat) (picks picks' : List Nat) : Nat × BufCtx :=
  let c := if c.bufcacheNum < num then bufcacheRefill c picks picks' else c
  (min num (if c.bufcacheHead + c.bufcacheNum ≤ bufcacheSize then c.bufcacheNum else bufcacheSize - c.bufcacheHead), c)

/-- `bufcache_alloc`; `none` is the failed assertion. -/
def bufcacheAlloc (c : BufCtx) (num : Nat) : Option BufCtx :=
  if num ≤ c.bufcacheNum then
    some { c with
      bufcacheHead := (c.bufcacheHead + num) % bufcacheSize
      bufcacheNum := c.bufcacheNum - num
      used := 0 }.tick
  else none

def bufcacheFree (c : BufCtx) (h : Handle) : BufCtx :=
  if c.bufcacheNum < bufcacheSize then
    { c with
      bufcacheHandles := update c.bufcacheHandles ((c.bufcacheHead + c.bufcacheNum) % bufcacheSize) h
      bufcacheNum := c.bufcacheNum + 1
      rx := c.rx.erase h }.tick
  else { c with driver := h :: c.driver, rx := c.rx.erase h }.tick

/-- `tx_send`; `none` if the transmit array is full. -/
def txSend (c : BufCtx) (h : Handle) : Option BufCtx :=
  if c.txNum ≥ txbufSize then none
  else some { c with txHandles := update c.txHandles c.txNum h, txNum := c.txNum + 1 }

/-- What a flow function does with a buffer. -/
def txSends : Nat → BufCtx → Handle → Option BufCtx
  | 0, c, _ => some c
  | n + 1, c, h => (txSend c h).bind (txSends n · h)

def txRoom (c : BufCtx) : Nat := if txbufSize - c.txNum < batchSize then txbufSize - c.txNum else batchSize

/-- The packets of `poll_rx` go through the fast path. -/
def rxPackets : List (Handle × RxUse) → BufCtx → Option BufCtx
  | [], c => some c
  | (h, u) :: ps, c => (txSends u.sends c h).bind fun c =>
      rxPackets ps (if u.ret > 0 then { c with rx := c.rx.erase h } else c).tick

def rxFree : List (Handle × RxUse) → BufCtx → BufCtx
  | [], c => c
  | (h, u) :: ps, c => rxFree ps (if u.ret > 0 then c else bufcacheFree c h)

def pollRx (c : BufCtx) (picks : List Nat) (uses : Nat → RxUse) : Option BufCtx :=
  let (bhs, rest) := draw (picks.take (txRoom c)) c.driver
  if bhs = [] then some c
  else
    let batch := bhs.mapIdx fun i h => (h, uses i)
    (rxPackets batch { c with driver := rest, rx := bhs }.tick).map (rxFree batch)

/-- A flow function is called with the next handle of the slice. -/
def sliceUse (c : BufCtx) (u : TxUse) : Option BufCtx :=
  (txSends u.sends c (c.bufcacheHandles (c.bufcacheHead + c.used))).map fun c =>
    (if u.ret = 0 then { c with used := c.used + 1 } else c).tick

/-- The loop of `poll_qman` and the second one of `poll_queues`. -/
def sliceUses : List TxUse → BufCtx → Option BufCtx
  | [], c => some c
  | u :: us, c => (sliceUse c u).bind (sliceUses us)

def pollQman (c : BufCtx) (picks picks' : List Nat) (polled : QmanPolled) (uses : Nat → TxUse) : Option BufCtx :=
  let (max, c) := bufcachePrealloc c (txRoom c) picks picks'
  let ret := polled.count max
  if ret = 0 then some c
  else (sliceUses ((List.range ret).map uses) c).bind fun c => bufcacheAlloc c c.used

/-- The entries `poll_queues` fetches; the contexts have `avail`. -/
def appctxFetch (max : Nat) (avail : List Nat) : Nat :=
  (avail.take appctxNum).foldl (fun k a => k + min a (min batchSize (max - k))) 0

def pollQueues (c : BufCtx) (picks picks' avail : List Nat) (uses : Nat → TxUse) : Option BufCtx :=
  let (max, c) := bufcachePrealloc c (txRoom c) picks picks'
  (sliceUses ((List.range (appctxFetch max avail)).map uses) c).bind fun c => bufcacheAlloc c c.used

/-- The loop of `poll_kernel`; when there are no more entries `fast_kernel_poll` returns -1. -/
def kernelUses (max : Nat) : List TxUse → BufCtx → Option BufCtx
  | [], c => some c
  | u :: us, c =>
    if c.used < max then (sliceUse c u).bind fun c => if u.ret < 0 then some c else kernelUses max us c
    else some c

def pollKernel (c : BufCtx) (picks picks' : List Nat) (uses : List TxUse) : Option BufCtx :=
  let (max, c) := bufcachePrealloc c (if txRoom c > 8 then 8 else txRoom c) picks picks'
  (kernelUses max uses c).bind fun c => bufcacheAlloc c c.used

/-- The first `n` turns of the loop in `tx_flush` that moves unsent packets to the front. -/
def moveFront (m : Nat → Handle) (ret : Nat) : Nat → Nat → Handle
  | 0 => m
  | n + 1 => update (moveFront m ret n) n (moveFront m ret n (ret + n))

/-- `tx_flush`; the driver takes at most `sent` packets. -/
def txFlush (c : BufCtx) (sent : Nat) : BufCtx :=
  if c.txNum = 0 then c
  else
    let ret := min sent c.txNum
    let driver := c.tx.take ret ++ c.driver
    if ret = c.txNum then { c with txNum := 0, driver := driver }.tick
    else if ret > 0 then
      { c with
        txHandles := moveFront c.txHandles ret (c.txNum - ret)
        txNum := c.txNum - ret
        driver := driver }.tick
    else c

inductive BufPoll where
  | rx (picks : List Nat) (uses : Nat → RxUse)
  | qman (picks picks' : List Nat) (polled : QmanPolled) (uses : Nat → TxUse)
  | queues (picks picks' avail : List Nat) (uses : Nat → TxUse)
  | kernel (picks picks' : List Nat) (uses : List TxUse)
  | flush (sent : Nat)

/-- `none` if an assertion fails or the core aborts. -/
def bufStep (c : BufCtx) : BufPoll → Option BufCtx
  | .rx picks uses => pollRx c picks uses
  | .qman picks picks' polled uses => pollQman c picks picks' polled uses
  | .queues picks picks' avail uses => pollQueues c picks picks' avail uses
  | .kernel picks picks' uses => pollKernel c picks picks' uses
  | .flush sent => some (txFlush c sent)

/-- Each handle is in one place, and the cache and the transmit array are not overfull. -/
structure BufMoment.Conserved (all : List Handle) (m : BufMoment) : Prop where
  once : (m.cache ++ m.tx ++ m.rx ++ m.driver).Nodup
  placed : ∀ h, h ∈ m.cache ++ m.tx ++ m.rx ++ m.driver ↔ h ∈ all
  cacheFits : m.bufcacheNum ≤ bufcacheSize
  txFits : m.txNum ≤ txbufSize

/-! ## Handles keep their places -/

section

variable {all : List Handle} {c c' : BufCtx}

/-- A core whose handles are in their places, now and at all moments before. -/
structure BufOk (all : List Handle) (c : BufCtx) : Prop where
  head : c.bufcacheHead < bufcacheSize
  cacheFits : c.bufcacheNum ≤ bufcacheSize
  txFits : c.txNum ≤ txbufSize
  placed : (c.cache ++ c.tx ++ c.rx ++ c.driver).Perm all
  past : ∀ m ∈ c.moments, m.Conserved all

theorem BufOk.move (h : BufOk all c) (hhead : c'.bufcacheHead < bufcacheSize) (hcache : c'.bufcacheNum ≤ bufcacheSize)
    (htx : c'.txNum ≤ txbufSize)
    (hperm : (c'.cache ++ c'.tx ++ c'.rx ++ c'.driver).Perm (c.cache ++ c.tx ++ c.rx ++ c.driver))
    (hpast : c'.moments = c.moments) : BufOk all c' :=
  ⟨hhead, hcache, htx, hperm.trans h.placed, hpast ▸ h.past⟩

theorem BufOk.tick (hall : all.Nodup) (h : BufOk all c) : BufOk all c.tick := by
  refine { h with past := fun m hm => ?_ }
  rcases mem_append.mp hm with hm | hm
  · exact h.past m hm
  · rw [mem_singleton.mp hm]
    exact ⟨h.placed.nodup_iff.mpr hall, fun _ => h.placed.mem_iff, h.cacheFits, h.txFits⟩

structure BufIdle (all : List Handle) (c : BufCtx) : Prop extends BufOk all c where
  rx : c.rx = []
  used : c.used = 0

theorem draw_perm (ks : List Nat) (d : List Handle) : ((draw ks d).1 ++ (draw ks d).2).Perm d := by
  induction ks generalizing d with
  | nil => exact .refl d
  | cons k ks ih =>
    rw [draw]
    cases hk : d[k % d.length]? with
    | none => exact .refl d
    | some h =>
      obtain ⟨hlt, rfl⟩ := List.getElem?_eq_some_iff.mp hk
      exact ((ih _).cons _).trans (getElem_cons_eraseIdx_perm hlt)

theorem draw_length (ks : List Nat) (d : List Handle) : (draw ks d).1.length ≤ ks.length := by
  induction ks generalizing d with
  | nil => exact Nat.le_refl 0
  | cons k ks ih =>
    rw [draw]
    cases d[k % d.length]? with
    | none => exact Nat.zero_le _
    | some h => exact Nat.succ_le_succ (ih _)

/-! ## The cache -/

/-- At most `num` handles were taken from the driver and stored from place `o` on. -/
structure Filled (c c' : BufCtx) (num o : Nat) (got : List Handle) : Prop where
  le : got.length ≤ num
  driver : (got ++ c'.driver).Perm c.driver
  new : ∀ i, (h : i < got.length) → c'.bufcacheHandles (o + i) = got[i]
  old : ∀ k, k < o ∨ o + num ≤ k → c'.bufcacheHandles k = c.bufcacheHandles k
  rest : c' = { c with driver := c'.driver, bufcacheHandles := c'.bufcacheHandles }

theorem networkBufAlloc_filled (c : BufCtx) (num o : Nat) (picks : List Nat) :
    ∃ got, (networkBufAlloc c num o picks).1 = got.length ∧ Filled c (networkBufAlloc c num o picks).2 num o got := by
  have hle : (draw (picks.take num) c.driver).1.length ≤ num :=
    (draw_length _ _).trans (length_take_le num picks)
  refine ⟨(draw (picks.take num) c.driver).1, rfl, hle, draw_perm _ _, fun i hi => ?_, fun k hk => ?_, rfl⟩
  · simp only [networkBufAlloc]
    split
    · rw [store_at (by rw [length_append]; omega), getElem_append_left hi]
    · rw [store_at hi]
  · simp only [networkBufAlloc]
    refine store_of_not ?_
    split
    · rw [length_append, length_singleton]
      omega
    · omega

/-- Handles taken from the driver are behind those in the cache. -/
structure Refilled (c c' : BufCtx) (got : List Handle) : Prop where
  le : c.bufcacheNum + got.length ≤ bufcacheSize
  driver : (got ++ c'.driver).Perm c.driver
  contents : RingArray.contents bufcacheSize c'.bufcacheHandles c.bufcacheHead (c.bufcacheNum + got.length) =
    RingArray.contents bufcacheSize c.bufcacheHandles c.bufcacheHead c.bufcacheNum ++ got
  rest : c' = { c with driver := c'.driver, bufcacheHandles := c'.bufcacheHandles }

variable {num max o : Nat} {got : List Handle}

theorem Filled.refilled (hcache : c.bufcacheNum ≤ bufcacheSize) (ho : (c.bufcacheHead + c.bufcacheNum) % bufcacheSize = o)
    (h : Filled c c' num o got) (hnum : num ≤ bufcacheSize - c.bufcacheNum)
    (hfit : o + num ≤ bufcacheSize) : Refilled c c' got := by
  have hle := h.le
  refine ⟨by omega, h.driver, contents_grow (fun j hj => h.old _ ?_) (fun i hi => ?_), h.rest⟩
  · simp only [bufcacheSize] at *
    omega
  · rw [← h.new i hi]
    congr 1
    simp only [bufcacheSize] at *
    omega

theorem Filled.refilled_two {c₁ : BufCtx} {got' : List Handle} (hcache : c.bufcacheNum ≤ bufcacheSize)
    (ho : (c.bufcacheHead + c.bufcacheNum) % bufcacheSize = o) (hfit : ¬o + (bufcacheSize - c.bufcacheNum) ≤ bufcacheSize)
    (h : Filled c c₁ (bufcacheSize - o) o got) (hfull : got.length = bufcacheSize - o) (h' : Filled c₁ c' num 0 got')
    (hnum : num ≤ bufcacheSize - c.bufcacheNum - (bufcacheSize - o)) :
    Refilled c c' (got ++ got') := by
  have hle := h'.le
  have hperm : (got ++ got' ++ c'.driver).Perm c.driver := by
    rw [append_assoc]
    exact (h'.driver.append_left got).trans h.driver
  refine ⟨?_, hperm, contents_grow (fun j hj => ?_) (fun i hi => ?_), ?_⟩
  · rw [length_append]
    simp only [bufcacheSize] at *
    omega
  · rw [h'.old _ ?_, h.old _ ?_]
    all_goals
      simp only [bufcacheSize] at *
      omega
  · rw [length_append] at hi
    by_cases hlt : i < got.length
    · rw [getElem_append_left hlt, ← h.new i hlt, h'.old _ ?_]
      · congr 1
        simp only [bufcacheSize] at *
        omega
      · simp only [bufcacheSize] at *
        omega
    · rw [getElem_append_right (by omega), ← h'.new (i - got.length) (by omega)]
      congr 1
      simp only [bufcacheSize] at *
      omega
  · rw [h'.rest, h.rest]

variable (hall : all.Nodup)

include hall

theorem Refilled.idle (h : BufIdle all c) (hr : Refilled c c' got) :
    BufIdle all { c' with bufcacheNum := c.bufcacheNum + got.length }.tick := by
  obtain ⟨hle, hdriver, hcontents, hrest⟩ := hr
  rw [hrest]
  refine ⟨BufOk.tick hall (h.move h.head hle h.txFits (perm_iff_count.mpr fun a => ?_) rfl), h.rx, h.used⟩
  have hcount := perm_iff_count.mp hdriver a
  simp only [BufCtx.cache, BufCtx.tx, h.used, drop_zero, hcontents, count_append] at hcount ⊢
  omega

omit hall in
theorem bufcacheRefill_refilled (hcache : c.bufcacheNum ≤ bufcacheSize) (picks picks' : List Nat) :
    ∃ c' got, Refilled c c' got ∧
      bufcacheRefill c picks picks' = { c' with bufcacheNum := c.bufcacheNum + got.length }.tick := by
  unfold bufcacheRefill
  generalize ho : (c.bufcacheHead + c.bufcacheNum) % bufcacheSize = o
  obtain ⟨got, hres, hfilled⟩ := networkBufAlloc_filled c (bufcacheSize - c.bufcacheNum) o picks
  by_cases hfit : o + (bufcacheSize - c.bufcacheNum) ≤ bufcacheSize
  · refine ⟨_, got, hfilled.refilled hcache ho (Nat.le_refl _) hfit, ?_⟩
    simp [if_pos hfit, hres]
  · obtain ⟨got, hres, hfilled⟩ := networkBufAlloc_filled c (bufcacheSize - o) o picks
    have hmod : o < bufcacheSize := ho ▸ Nat.mod_lt _ (by decide)
    simp only [if_neg hfit, hres]
    by_cases hfull : got.length = bufcacheSize - o
    · obtain ⟨got', hres', hfilled'⟩ := networkBufAlloc_filled (networkBufAlloc c (bufcacheSize - o) o picks).2
        (bufcacheSize - c.bufcacheNum - (bufcacheSize - o)) 0 picks'
      refine ⟨_, got ++ got', hfilled.refilled_two hcache ho hfit hfull hfilled' (Nat.le_refl _), ?_⟩
      simp [if_pos hfull, hres']
    · refine ⟨_, got, hfilled.refilled hcache ho (by omega) (by omega), ?_⟩
      simp [if_neg hfull]

/-- The slice of the cache that is used for packets, with room for them in the transmit array. -/
structure Slice (max : Nat) (c : BufCtx) : Prop where
  fits : c.bufcacheHead + max ≤ bufcacheSize
  inCache : max ≤ c.bufcacheNum
  used : c.used ≤ max
  room : c.txNum + max ≤ txbufSize + c.used

theorem bufcachePrealloc_slice (h : BufIdle all c) (hnum : c.txNum + num ≤ txbufSize)
    (picks picks' : List Nat) :
    BufIdle all (bufcachePrealloc c num picks picks').2 ∧
      Slice (bufcachePrealloc c num picks picks').1 (bufcachePrealloc c num picks picks').2 := by
  obtain ⟨c', e, hidle, htx⟩ : ∃ c', bufcachePrealloc c num picks picks' = (min num
      (if c'.bufcacheHead + c'.bufcacheNum ≤ bufcacheSize then c'.bufcacheNum else bufcacheSize - c'.bufcacheHead), c') ∧
      BufIdle all c' ∧ c'.txNum = c.txNum := by
    refine ⟨_, rfl, ?_⟩
    split
    · obtain ⟨c', got, hr, e⟩ := bufcacheRefill_refilled h.cacheFits picks picks'
      have htx : c'.txNum = c.txNum := by rw [hr.rest]
      rw [e]
      exact ⟨hr.idle hall h, htx⟩
    · exact ⟨h, rfl⟩
  rw [e]
  refine ⟨hidle, ?_⟩
  have hhead := hidle.head
  have hused := hidle.used
  constructor <;> dsimp only <;> split <;> omega

theorem bufcacheAlloc_idle (h : BufOk all c) (hrx : c.rx = []) (hused : c.used ≤ c.bufcacheNum) :
    ∃ c', bufcacheAlloc c c.used = some c' ∧ BufIdle all c' := by
  refine ⟨_, if_pos hused, BufOk.tick hall (h.move ?_ ?_ h.txFits ?_ rfl), hrx, rfl⟩
  · exact Nat.mod_lt _ (by decide)
  · exact (Nat.sub_le _ _).trans h.cacheFits
  · simp only [BufCtx.cache, drop_zero, contents_drop]
    exact .refl _

theorem bufcacheFree_ok (h : BufOk all c) (hused : c.used = 0) {x : Handle} (hx : x ∈ c.rx) :
    BufOk all (bufcacheFree c x) ∧ (bufcacheFree c x).used = 0 ∧ (bufcacheFree c x).rx = c.rx.erase x := by
  have hhead := h.head
  have hrx : ∀ a, c.rx.count a = (x :: c.rx.erase x).count a := perm_iff_count.mp (perm_cons_erase hx)
  unfold bufcacheFree
  split
  next hlt =>
    refine ⟨BufOk.tick hall (h.move hhead hlt h.txFits (perm_iff_count.mpr fun a => ?_) rfl), hused, rfl⟩
    have hcontents : contents bufcacheSize
        (update c.bufcacheHandles ((c.bufcacheHead + c.bufcacheNum) % bufcacheSize) x) c.bufcacheHead
        (c.bufcacheNum + [x].length) =
        contents bufcacheSize c.bufcacheHandles c.bufcacheHead c.bufcacheNum ++ [x] := by
      refine contents_grow (fun j hj => update_of_ne ?_ _ _) fun i hi => ?_
      · simp only [bufcacheSize] at *
        omega
      · obtain rfl : i = 0 := Nat.lt_one_iff.mp hi
        exact update_self _ _ _
    have hcount := hrx a
    simp only [length_singleton] at hcontents
    simp only [BufCtx.cache, BufCtx.tx, hused, drop_zero, hcontents, count_append, count_cons,
      count_nil] at hcount ⊢
    omega
  next =>
    refine ⟨BufOk.tick hall (h.move hhead h.cacheFits h.txFits (perm_iff_count.mpr fun a => ?_) rfl), hused, rfl⟩
    have hcount := hrx a
    simp only [BufCtx.cache, BufCtx.tx, count_append, count_cons] at hcount ⊢
    omega

/-! ## The transmit array -/

omit hall in
theorem txSend_tx {h : Handle} (hroom : c.txNum < txbufSize) :
    ∃ m, txSend c h = some { c with txHandles := m, txNum := c.txNum + 1 } ∧
      BufCtx.tx { c with txHandles := m, txNum := c.txNum + 1 } = c.tx ++ [h] := by
  refine ⟨_, if_neg (Nat.not_le.mpr hroom), ?_⟩
  simp only [BufCtx.tx, range_succ, map_append, map_singleton, update_self]
  refine congrArg (· ++ [h]) (map_congr_left fun j hj => update_of_ne ?_ _ _)
  exact Nat.ne_of_lt (mem_range.mp hj)

theorem sliceUse_ok (h : BufOk all c) (hs : Slice max c) (hlt : c.used < max) (u : TxUse) :
    ∃ c', sliceUse c u = some c' ∧ BufOk all c' ∧ Slice max c' ∧ c'.used ≤ c.used + 1 ∧ c'.rx = c.rx := by
  obtain ⟨hfits, hin, hused, hroom⟩ := hs
  by_cases hret : u.ret = 0
  · -- the handle goes from the slice to the transmit array
    have hsends : u.sends = 1 := by rw [u.claims, if_pos hret]
    obtain ⟨m, hsend, hm⟩ := txSend_tx (h := c.bufcacheHandles (c.bufcacheHead + c.used)) (c := c) (by omega)
    have hhead : (c.bufcacheHead + c.used) % bufcacheSize = c.bufcacheHead + c.used := Nat.mod_eq_of_lt (by omega)
    have hcache : c.cache = c.bufcacheHandles (c.bufcacheHead + c.used) ::
        (contents bufcacheSize c.bufcacheHandles c.bufcacheHead c.bufcacheNum).drop (c.used + 1) := by
      rw [BufCtx.cache, drop_contents (by omega), hhead]
    refine ⟨({ c with txHandles := m, txNum := c.txNum + 1, used := c.used + 1 } : BufCtx).tick, ?_, ?_, ?_, ?_, rfl⟩
    · simp [sliceUse, hsends, txSends, hsend, if_pos hret]
    · refine BufOk.tick hall (h.move h.head h.cacheFits (by simp only; omega) (perm_iff_count.mpr fun a => ?_) rfl)
      have htx' : BufCtx.tx { c with txHandles := m, txNum := c.txNum + 1, used := c.used + 1 } =
          c.tx ++ [c.bufcacheHandles (c.bufcacheHead + c.used)] := hm
      rw [htx', hcache]
      simp only [BufCtx.cache, count_append, count_cons, count_nil]
      omega
    · exact ⟨hfits, hin, hlt, by simp only [BufCtx.tick]; omega⟩
    · exact Nat.le_refl _
  · have hsends : u.sends = 0 := by rw [u.claims, if_neg hret]
    refine ⟨c.tick, ?_, h.tick hall, ⟨hfits, hin, hused, hroom⟩, Nat.le_succ _, rfl⟩
    simp [sliceUse, hsends, txSends, if_neg hret]

theorem sliceUses_ok {us : List TxUse} (h : BufOk all c) (hs : Slice max c)
    (hlen : c.used + us.length ≤ max) :
    ∃ c', sliceUses us c = some c' ∧ BufOk all c' ∧ Slice max c' ∧ c'.rx = c.rx := by
  induction us generalizing c with
  | nil => exact ⟨c, rfl, h, hs, rfl⟩
  | cons u us ih =>
    simp only [length_cons] at hlen
    obtain ⟨c₁, he, h₁, hs₁, hused₁, hrx₁⟩ := sliceUse_ok hall h hs (by omega) u
    obtain ⟨c', he', h', hs', hrx'⟩ := ih h₁ hs₁ (by omega)
    exact ⟨c', by rw [sliceUses, he]; exact he', h', hs', hrx'.trans hrx₁⟩

theorem kernelUses_ok {us : List TxUse} (h : BufOk all c) (hs : Slice max c) :
    ∃ c', kernelUses max us c = some c' ∧ BufOk all c' ∧ Slice max c' ∧ c'.rx = c.rx := by
  induction us generalizing c with
  | nil => exact ⟨c, rfl, h, hs, rfl⟩
  | cons u us ih =>
    rw [kernelUses]
    split
    next hlt =>
      obtain ⟨c₁, he, h₁, hs₁, -, hrx₁⟩ := sliceUse_ok hall h hs hlt u
      rw [he, bind_some]
      split
      · exact ⟨c₁, rfl, h₁, hs₁, hrx₁⟩
      · obtain ⟨c', he', h', hs', hrx'⟩ := ih h₁ hs₁
        exact ⟨c', he', h', hs', hrx'.trans hrx₁⟩
    next => exact ⟨c, rfl, h, hs, rfl⟩

omit hall in
theorem moveFront_eq (m : Nat → Handle) (ret n j : Nat) : moveFront m ret n j = if j < n then m (ret + j) else m j := by
  induction n generalizing j with
  | zero => rfl
  | succ n ih =>
    rw [moveFront]
    by_cases hj : j = n
    · subst hj
      -- place `ret + n` has not been overwritten yet
      rw [update_self, ih, if_neg (by omega), if_pos (Nat.lt_succ_self j)]
    · rw [update_of_ne hj, ih]
      exact if_congr (by omega) rfl rfl

theorem txFlush_idle (h : BufIdle all c) (sent : Nat) : BufIdle all (txFlush c sent) := by
  have htx := h.txFits
  have hsplit : ∀ a, c.tx.count a = (c.tx.take (min sent c.txNum)).count a + (c.tx.drop (min sent c.txNum)).count a :=
    fun a => by rw [← count_append, take_append_drop]
  unfold txFlush
  split
  · exact h
  · dsimp only
    split
    next hret =>
      refine ⟨BufOk.tick hall (h.move h.head h.cacheFits (Nat.zero_le _) (perm_iff_count.mpr fun a => ?_) rfl),
        h.rx, h.used⟩
      have htake : c.tx.take c.txNum = c.tx := take_of_length_le (by simp [BufCtx.tx])
      rw [hret, htake]
      simp only [BufCtx.cache, BufCtx.tx, range_zero, map_nil, count_append, count_nil]
      omega
    next hret =>
      split
      · refine ⟨BufOk.tick hall (h.move h.head h.cacheFits ((Nat.sub_le _ _).trans htx)
          (perm_iff_count.mpr fun a => ?_) rfl), h.rx, h.used⟩
        have hmoved : (range (c.txNum - min sent c.txNum)).map
            (moveFront c.txHandles (min sent c.txNum) (c.txNum - min sent c.txNum)) =
            c.tx.drop (min sent c.txNum) := by
          rw [BufCtx.tx, drop_map_range]
          refine map_congr_left fun j hj => ?_
          rw [moveFront_eq, if_pos (mem_range.mp hj)]
        have hcount := hsplit a
        have htx' : BufCtx.tx { c with
            txHandles := moveFront c.txHandles (min sent c.txNum) (c.txNum - min sent c.txNum)
            txNum := c.txNum - min sent c.txNum
            driver := c.tx.take (min sent c.txNum) ++ c.driver } = c.tx.drop (min sent c.txNum) := hmoved
        rw [htx']
        simp only [BufCtx.cache, count_append] at hcount ⊢
        omega
      · exact h

/-! ## Packets received -/

def rxKept (batch : List (Handle × RxUse)) : List Handle := (batch.filter fun x => decide (x.2.ret ≤ 0)).map (·.1)

theorem rxPackets_ok {batch : List (Handle × RxUse)} {kept : List Handle} (h : BufOk all c)
    (hused : c.used = 0) (hrx : c.rx.Perm (batch.map (·.1) ++ kept)) (hroom : c.txNum + batch.length ≤ txbufSize) :
    ∃ c', rxPackets batch c = some c' ∧ BufOk all c' ∧ c'.used = 0 ∧ c'.rx.Perm (rxKept batch ++ kept) := by
  induction batch generalizing c kept with
  | nil => exact ⟨c, rfl, h, hused, hrx⟩
  | cons x ps ih =>
    obtain ⟨x, u⟩ := x
    simp only [length_cons, map_cons, cons_append] at hroom hrx
    by_cases hret : 0 < u.ret
    · -- the packet's buffer is sent as acknowledgement
      have hsends : u.sends = 1 := by rw [u.claims, if_pos hret]
      obtain ⟨m, hsend, hm⟩ := txSend_tx (h := x) (c := c) (by omega)
      have herase : (c.rx.erase x).Perm (ps.map (·.1) ++ kept) := by
        have := hrx.erase x
        rwa [erase_cons_head] at this
      have hmoved : BufOk all { c with txHandles := m, txNum := c.txNum + 1, rx := c.rx.erase x } := by
        refine h.move h.head h.cacheFits (by simp only; omega) (perm_iff_count.mpr fun a => ?_) rfl
        have htx' : BufCtx.tx { c with txHandles := m, txNum := c.txNum + 1, rx := c.rx.erase x } = c.tx ++ [x] := hm
        have hcount := perm_iff_count.mp (perm_cons_erase (hrx.mem_iff.mpr mem_cons_self)) a
        rw [htx']
        simp only [BufCtx.cache, count_append, count_cons, count_nil] at hcount ⊢
        omega
      obtain ⟨c', he, h', hused', hrx'⟩ := ih (hmoved.tick hall) hused herase (by simp only [BufCtx.tick]; omega)
      refine ⟨c', ?_, h', hused', ?_⟩
      · simp only [rxPackets, hsends, txSends, hsend, bind_some, if_pos hret]
        exact he
      · rwa [rxKept, filter_cons_of_neg (by simpa using hret)]
    · have hsends : u.sends = 0 := by rw [u.claims, if_neg hret]
      obtain ⟨c', he, h', hused', hrx'⟩ := ih (h.tick hall) hused (hrx.trans perm_middle.symm)
        (by simp only [BufCtx.tick]; omega)
      refine ⟨c', ?_, h', hused', ?_⟩
      · simp only [rxPackets, hsends, txSends, bind_some, if_neg hret]
        exact he
      · rw [rxKept, filter_cons_of_pos (by simpa using hret)]
        exact hrx'.trans perm_middle

theorem rxFree_idle {batch : List (Handle × RxUse)} (h : BufOk all c) (hused : c.used = 0)
    (hrx : c.rx.Perm (rxKept batch)) : BufIdle all (rxFree batch c) := by
  induction batch generalizing c with
  | nil => exact ⟨h, hrx.eq_nil, hused⟩
  | cons x ps ih =>
    obtain ⟨x, u⟩ := x
    rw [rxFree]
    by_cases hret : 0 < u.ret
    · rw [rxKept, filter_cons_of_neg (by simpa using hret)] at hrx
      rw [if_pos hret]
      exact ih h hused hrx
    · rw [rxKept, filter_cons_of_pos (by simpa using hret), map_cons] at hrx
      obtain ⟨h', hused', hrx'⟩ := bufcacheFree_ok hall h hused (hrx.mem_iff.mpr mem_cons_self)
      have herase := hrx.erase x
      rw [erase_cons_head] at herase
      rw [if_neg hret]
      exact ih h' hused' (hrx' ▸ herase)

omit hall in
theorem txRoom_le (c : BufCtx) (htx : c.txNum ≤ txbufSize) : c.txNum + txRoom c ≤ txbufSize := by
  unfold txRoom
  split <;> omega

theorem pollRx_idle (h : BufIdle all c) (picks : List Nat) (uses : Nat → RxUse) :
    ∃ c', pollRx c picks uses = some c' ∧ BufIdle all c' := by
  have hperm := draw_perm (picks.take (txRoom c)) c.driver
  have hlen : (draw (picks.take (txRoom c)) c.driver).1.length ≤ txRoom c :=
    (draw_length _ _).trans (length_take_le _ _)
  have hroom := txRoom_le c h.txFits
  unfold pollRx
  generalize draw (picks.take (txRoom c)) c.driver = got at hperm hlen
  obtain ⟨bhs, rest⟩ := got
  dsimp only at hperm hlen ⊢
  split
  · exact ⟨c, rfl, h⟩
  · have hreceived : BufOk all { c with driver := rest, rx := bhs } := by
      refine h.move h.head h.cacheFits h.txFits (perm_iff_count.mpr fun a => ?_) rfl
      have hcount := perm_iff_count.mp hperm a
      simp only [BufCtx.cache, BufCtx.tx, h.rx, count_append, count_nil] at hcount ⊢
      omega
    have hbatch : (bhs.mapIdx fun i h => (h, uses i)).map (·.1) = bhs := by
      refine ext_getElem (by simp) fun i _ _ => ?_
      simp
    have hrx₀ : bhs.Perm ((bhs.mapIdx fun i h => (h, uses i)).map (·.1) ++ []) := by
      rw [hbatch, append_nil]
    obtain ⟨c₁, he, h₁, hused₁, hrx₁⟩ := rxPackets_ok hall (hreceived.tick hall) h.used hrx₀
      (by simp only [BufCtx.tick, length_mapIdx]; omega)
    rw [append_nil] at hrx₁
    exact ⟨_, by rw [he]; rfl, rxFree_idle hall h₁ hused₁ hrx₁⟩

/-! ## Packets of the queue manager, the applications and the slow path -/

theorem sliceUsed_idle (h : BufIdle all c) {o : Option BufCtx}
    (ho : ∃ c', o = some c' ∧ BufOk all c' ∧ Slice max c' ∧ c'.rx = c.rx) :
    ∃ c', (o.bind fun c => bufcacheAlloc c c.used) = some c' ∧ BufIdle all c' := by
  obtain ⟨c₁, rfl, h₁, hs₁, hrx⟩ := ho
  exact bufcacheAlloc_idle hall h₁ (hrx.trans h.rx) (hs₁.used.trans hs₁.inCache)

/-- A loop over at most as many calls as the slice has handles. -/
theorem sliceUses_range (h : BufIdle all c) {k : Nat} (hs : Slice max c) (hk : k ≤ max)
    (uses : Nat → TxUse) :
    ∃ c', sliceUses ((range k).map uses) c = some c' ∧ BufOk all c' ∧ Slice max c' ∧ c'.rx = c.rx := by
  refine sliceUses_ok hall h.toBufOk hs ?_
  rw [h.used, length_map, length_range]
  omega

theorem pollQman_idle (h : BufIdle all c) (picks picks' : List Nat) (polled : QmanPolled)
    (uses : Nat → TxUse) : ∃ c', pollQman c picks picks' polled uses = some c' ∧ BufIdle all c' := by
  obtain ⟨h₁, hs₁⟩ := bufcachePrealloc_slice hall h (txRoom_le c h.txFits) picks picks'
  unfold pollQman
  generalize bufcachePrealloc c (txRoom c) picks picks' = r at h₁ hs₁
  obtain ⟨max, c₁⟩ := r
  dsimp only at h₁ hs₁ ⊢
  split
  · exact ⟨c₁, rfl, h₁⟩
  · exact sliceUsed_idle hall h₁ (sliceUses_range hall h₁ hs₁ (polled.le max) uses)

omit hall in
theorem appctxFetch_le (max : Nat) (avail : List Nat) : appctxFetch max avail ≤ max := by
  have hfold : ∀ (l : List Nat) (k : Nat), k ≤ max →
      l.foldl (fun k a => k + min a (min batchSize (max - k))) k ≤ max := by
    intro l
    induction l with
    | nil => exact fun k hk => hk
    | cons a l ih =>
      intro k hk
      exact ih _ (show k + min a (min batchSize (max - k)) ≤ max by omega)
  exact hfold _ 0 (Nat.zero_le max)

theorem pollQueues_idle (h : BufIdle all c) (picks picks' avail : List Nat) (uses : Nat → TxUse) :
    ∃ c', pollQueues c picks picks' avail uses = some c' ∧ BufIdle all c' := by
  obtain ⟨h₁, hs₁⟩ := bufcachePrealloc_slice hall h (txRoom_le c h.txFits) picks picks'
  exact sliceUsed_idle hall h₁ (sliceUses_range hall h₁ hs₁ (appctxFetch_le _ avail) uses)

theorem pollKernel_idle (h : BufIdle all c) (picks picks' : List Nat) (uses : List TxUse) :
    ∃ c', pollKernel c picks picks' uses = some c' ∧ BufIdle all c' := by
  have hnum : c.txNum + (if txRoom c > 8 then 8 else txRoom c) ≤ txbufSize := by
    have := txRoom_le c h.txFits
    split <;> omega
  obtain ⟨h₁, hs₁⟩ := bufcachePrealloc_slice hall h hnum picks picks'
  exact sliceUsed_idle hall h₁ (kernelUses_ok hall h₁.toBufOk hs₁)

theorem bufStep_idle (c : BufCtx) (op : BufPoll) (h : BufIdle all c) :
    ∃ c', bufStep c op = some c' ∧ BufIdle all c' := by
  cases op with
  | rx picks uses => exact pollRx_idle hall h picks uses
  | qman picks picks' polled uses => exact pollQman_idle hall h picks picks' polled uses
  | queues picks picks' avail uses => exact pollQueues_idle hall h picks picks' avail uses
  | kernel picks picks' uses => exact pollKernel_idle hall h picks picks' uses
  | flush sent => exact ⟨_, rfl, txFlush_idle hall h sent⟩

theorem init_idle : BufIdle all (.init all) := by
  refine ⟨BufOk.tick hall ⟨Nat.succ_pos _, Nat.zero_le _, Nat.zero_le _, ?_,
    fun m hm => absurd hm not_mem_nil⟩, rfl, rfl⟩
  exact .refl all

end

/-- For every sequence of polls, whatever the driver and the flow functions return: no assertion fails, the transmit
array is never too full for `tx_send`, and at every moment each handle is in exactly one place. -/
theorem buffers_conserved (all : List Handle) (hall : all.Nodup) (polls : List BufPoll) :
    ∃ c, Run.exec bufStep (.init all) polls = some c ∧ ∀ m ∈ c.moments, m.Conserved all := by
  have hok : Run.All bufStep (fun _ _ => True) (.init all) polls := .of_forall fun _ _ => trivial
  obtain ⟨c, hc, h⟩ := Run.exec_total (fun c op h _ => bufStep_idle hall c op h) (init_idle hall) hok
  exact ⟨c, hc, h.past⟩

/-- A packet of the slow path; then two received, of which one is acknowledged and one freed; then the driver
sends one. -/
def fourBuffers : List BufPoll :=
  [.kernel [0, 0] [] [.kernelPacket, .kernelRetransmit, .kernelEmpty],
    .rx [0, 0] fun i => if i = 0 then ⟨1, 1, rfl⟩ else .noFlow, .flush 1]

theorem buffers_conserved_four :
    [1, 2, 3, 4].Nodup ∧ ∃ c, Run.exec bufStep (.init [1, 2, 3, 4]) fourBuffers = some c ∧
      c.now = ⟨[2, 4], [3], [], [1], 2, 1⟩ ∧ ∀ m ∈ c.moments, m.Conserved [1, 2, 3, 4] := by
  obtain ⟨c, hc, hm⟩ := buffers_conserved [1, 2, 3, 4] (by decide) fourBuffers
  have hnow : (Run.exec bufStep (.init [1, 2, 3, 4]) fourBuffers).map (·.now) =
      some ⟨[2, 4], [3], [], [1], 2, 1⟩ := by decide +kernel
  rw [hc] at hnow
  exact ⟨by decide, c, hc, some.inj hnow, hm⟩

end TasNic
