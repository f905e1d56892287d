import TasNic.Fast.QmanRate
import TasNic.Fast.Transmit
import Mathlib.Algebra.Order.BigOperators.Group.List
import Mathlib.Algebra.Order.Group.Nat

/-!
# Whether sending goes on

The fast path tells the queue manager of new bytes to send by differences of `tcp_txavail` before
and after a call. `schedStep` is a flow together with the queue manager of its core. `Funded` says
that what is in flight and what the queue manager counts together cover what can be sent, and what
keeps it is `schedCovers`. `tcp_txavail` counts bytes in flight as still to be sent, so that a timeout
that finds everything sent adds nothing.
-/

namespace TasNic

open Function Serial List Option

/-! ## What the queue manager counts -/

/-- The bytes a queue may send, and how many at a time. -/
def QmanQueue.funds (q : QmanQueue) : BitVec 32 × BitVec 16 := (q.avail, q.maxChunk)

theorem funds_update {queues : Nat → QmanQueue} {idx : Nat} {q : QmanQueue} (ha : q.avail = (queues idx).avail)
    (hc : q.maxChunk = (queues idx).maxChunk) (i : Nat) : (update queues idx q i).funds = (queues i).funds := by
  by_cases hi : i = idx
  · rw [hi, update_self, QmanQueue.funds, ha, hc]
    rfl
  · rw [update_of_ne hi]

theorem queueActivate_funds {t t' : QmanThread} {idx : Nat} (h : queueActivate t idx = some t') (i : Nat) :
    (t'.queues i).funds = (t.queues i).funds := by
  unfold queueActivate at h
  split at h
  · simp only [queueActivateNolimit] at h
    split at h
    · cases h
    split at h <;> cases h <;> exact funds_update (by rfl) (by rfl) i
  · simp only [queueActivateSkiplist] at h
    split at h
    · cases h
    split at h
    · cases h
    · cases h
      simp only [QmanThread.setQueue, update_idem]
      exact funds_update (by rfl) (by rfl) i

/-- The bytes queue `i` was let to send. -/
def firedBytes (i : Nat) (l : List Fired) : Nat := ((l.filter (·.id = i)).map (·.bytes.toNat)).sum

/-- What queue `q₀` with number `i` may send is what it has left and what it was let to send,
no more at a time than its chunk. -/
structure PollFunds (i : Nat) (q₀ : QmanQueue) (s : PollState) : Prop where
  avail : (s.t.queues i).avail.toNat + firedBytes i s.out = q₀.avail.toNat
  chunk : (s.t.queues i).maxChunk = q₀.maxChunk
  fired : ∀ f ∈ s.out, f.id = i → f.bytes.toNat ≤ q₀.maxChunk.toNat

section Poll

variable {i idx num : Nat} {q₀ : QmanQueue} {s s' : PollState} {t : QmanThread}

theorem PollFunds.congr (h : PollFunds i q₀ s) (hout : s'.out = s.out)
    (hq : (s'.t.queues i).funds = (s.t.queues i).funds) : PollFunds i q₀ s' := by
  obtain ⟨ha, hc⟩ := Prod.mk.inj hq
  exact ⟨by rw [ha, hout]; exact h.avail, hc.trans h.chunk, hout ▸ h.fired⟩

theorem firedQueue_avail (t : QmanThread) (q : QmanQueue) :
    (firedQueue t q).avail.toNat + (fireBytes q).toNat = q.avail.toNat := by
  have hle : (fireBytes q).toNat ≤ q.avail.toNat := by
    unfold fireBytes
    split
    · exact Nat.le_refl _
    · rename_i h
      exact Nat.le_of_lt (Nat.lt_of_not_le h)
  rw [firedQueue, toNat_sub_of_le hle]
  omega

theorem firedBytes_concat (l : List Fired) (f : Fired) :
    firedBytes i (l ++ [f]) = firedBytes i l + if f.id = i then f.bytes.toNat else 0 := by
  by_cases hf : f.id = i <;> simp [firedBytes, hf]

theorem PollFunds.fire (h : PollFunds i q₀ s) (hs : pollFire s idx = some s') : PollFunds i q₀ s' := by
  unfold pollFire at hs
  split at hs
  · obtain ⟨⟨t', f⟩, hf, rfl⟩ := map_eq_some_iff.mp hs
    have hbytes : (fireBytes (s.t.queues idx)).toNat ≤ (s.t.queues idx).maxChunk.toNat := fireBytes_le _
    -- activating the queue again does not change what it may send
    have hq : f = ⟨idx, (fireBytes (s.t.queues idx)).setWidth 16, s.t.tsVirtual⟩ ∧
        (t'.queues i).funds = (update s.t.queues idx (firedQueue s.t (s.t.queues idx)) i).funds := by
      simp only [queueFire] at hf
      split at hf
      · cases hf
      split at hf
      · obtain ⟨t₁, ht₁, e⟩ := map_eq_some_iff.mp hf
        cases e
        exact ⟨rfl, queueActivate_funds ht₁ i⟩
      · cases hf
        exact ⟨rfl, rfl⟩
    obtain ⟨rfl, hq⟩ := hq
    obtain ⟨ha, hc⟩ := Prod.mk.inj hq
    have hw : ((fireBytes (s.t.queues idx)).setWidth 16).toNat = (fireBytes (s.t.queues idx)).toNat :=
      toNat_setWidth16_of_lt (by omega)
    have h₁ := h.avail
    by_cases hi : idx = i
    · subst hi
      rw [update_self] at ha hc
      have h₂ := firedQueue_avail s.t (s.t.queues idx)
      refine ⟨?_, hc.trans h.chunk, fun f hf hid => ?_⟩
      · rw [ha, firedBytes_concat, if_pos rfl, hw]
        omega
      · rcases mem_append.mp hf with hf | hf
        · exact h.fired f hf hid
        · rw [mem_singleton.mp hf, hw, ← h.chunk]
          exact hbytes
    · rw [update_of_ne (Ne.symm hi)] at ha hc
      refine ⟨?_, hc.trans h.chunk, fun f hf hid => ?_⟩
      · rw [ha, firedBytes_concat, if_neg hi]
        exact h₁
      · rcases mem_append.mp hf with hf | hf
        · exact h.fired f hf hid
        · rw [mem_singleton.mp hf] at hid
          exact absurd hid hi
  · cases hs
    exact h

theorem PollFunds.nolimitTurn {b : Bool} (h : PollFunds i q₀ s) (hs : nolimitTurn num s = some (b, s')) :
    PollFunds i q₀ s' := by
  unfold TasNic.nolimitTurn at hs
  split at hs
  · split at hs
    · cases hs
      exact h
    · rename_i idx hhead
      obtain ⟨s₁, hs₁, e⟩ := map_eq_some_iff.mp hs
      cases e
      have hpop : PollFunds i q₀ ⟨nolimitPop s.t idx, s.out⟩ := h.congr rfl (funds_update (by rfl) (by rfl) i)
      exact hpop.fire hs₁
  · cases hs
    exact h

theorem PollFunds.skiplistTurn {b : Bool} {maxVts : BitVec 32} (h : PollFunds i q₀ s)
    (hs : skiplistTurn maxVts num s = some (b, s')) : PollFunds i q₀ s' := by
  unfold TasNic.skiplistTurn at hs
  split at hs
  · split at hs
    · cases hs
      exact h.congr rfl rfl
    · rename_i idx hhead
      split at hs
      · cases hs
        exact h.congr rfl rfl
      split at hs
      · cases hs
      · obtain ⟨s₁, hs₁, e⟩ := map_eq_some_iff.mp hs
        cases e
        have hpop : PollFunds i q₀ ⟨skiplistPop s.t idx, s.out⟩ := h.congr rfl (funds_update (by rfl) (by rfl) i)
        exact hpop.fire hs₁
  · cases hs
    exact h

theorem PollFunds.start (t : QmanThread) (i : Nat) : PollFunds i (t.queues i) ⟨t, []⟩ :=
  ⟨rfl, rfl, by simp⟩

theorem pollNolimit_funds (h : pollNolimit t num = some s) : PollFunds i (t.queues i) s :=
  Run.loop_inv (fun _ _ _ h => h.nolimitTurn) (.start t i) h

theorem pollSkiplist_funds {ts : BitVec 32} (h : pollSkiplist t ts num = some s) : PollFunds i (t.queues i) s := by
  obtain ⟨s₁, hs₁, rfl⟩ := map_eq_some_iff.mp h
  exact PollFunds.congr (Run.loop_inv (fun _ _ _ h => h.skiplistTurn) (.start t i) hs₁) rfl rfl

theorem PollFunds.trans {q : QmanQueue} (h : PollFunds i q₀ s) (hq : (s.t.queues i) = q) (h' : PollFunds i q s') :
    PollFunds i q₀ { s' with out := s.out ++ s'.out } := by
  subst hq
  have h₁ := h.avail; have h₂ := h'.avail
  have hsum : firedBytes i (s.out ++ s'.out) = firedBytes i s.out + firedBytes i s'.out := by simp [firedBytes]
  refine ⟨by simp only [hsum]; omega, h'.chunk.trans h.chunk, fun f hf hid => ?_⟩
  rcases mem_append.mp hf with hf | hf
  · exact h.fired f hf hid
  · rw [← h.chunk]
    exact h'.fired f hf hid

theorem qmanPoll_funds {ts : BitVec 32} (h : qmanPoll t num ts = some s) : PollFunds i (t.queues i) s := by
  obtain ⟨s₁, hs₁, rfl⟩ := map_eq_some_iff.mp h
  suffices PollFunds i (t.queues i) s₁ from this.congr rfl rfl
  split at hs₁
  all_goals
    obtain ⟨s₂, hs₂, hs₁⟩ := bind_eq_some_iff.mp hs₁
    obtain ⟨s₃, hs₃, rfl⟩ := map_eq_some_iff.mp hs₁
  · exact (pollNolimit_funds hs₂).trans rfl (pollSkiplist_funds hs₃)
  · exact (pollSkiplist_funds hs₂).trans rfl (pollNolimit_funds hs₃)

end Poll

/-! ## A flow and its queue manager -/

/-- A call of `qman_set` among the effects of a call. -/
def FlowEffect.qmanSet? : FlowEffect → Option QmanSet
  | .qmanSet c => some c
  | _ => none

/-- The calls of `qman_set` of a call, each of which aborts if it fails. -/
def applySets (t : QmanThread) (out : List FlowEffect) : Option QmanThread :=
  (out.filterMap (·.qmanSet?)).foldlM (fun t c => (qmanSet t c).bind fun r => if r.2 = 0 then some r.1 else none) t

/-- `fast_flows_qman` for the flow, once for each time it was let to send. -/
def sendFired (flowId ts : BitVec 32) (fs : FlowSt) (out : List Fired) : Option FlowSt :=
  (out.filter (·.id = flowId.toNat)).foldlM (fun fs _ => (fastFlowsQman fs flowId 0 0 ts).map (·.fs)) fs

/-- The bytes a bump announces: none if it is stale, or if transmission is closed. -/
def bumpAnnounced (fs : FlowSt) (bumpSeq : BitVec 16) (txBump : BitVec 32) : Nat :=
  if bumpStale fs bumpSeq || fs.has flowstTxfin then 0 else txBump.toNat

/-- A flow, the queue manager of its core, and the bytes flushed but not yet announced. -/
structure SchedState where
  fs : FlowSt
  t : QmanThread
  unannounced : Nat

inductive SchedOp where
  | publish (bytes : List Byte)
  | setRx (q : RdmaQueue)
  | packet (p : RxPacket) (ts : BitVec 32) (env : RdmaEnv)
  | bump (bumpSeq : BitVec 16) (txBump : BitVec 32) (flags : BitVec 8) (ts : BitVec 32)
  | retransmit
  | poll (num : Nat) (qts ts : BitVec 32)

def schedStep (flowId : BitVec 32) (s : SchedState) : SchedOp → Option SchedState
  | .publish bytes => (txPublish s.fs.tx bytes).map fun q =>
      { s with fs := { s.fs with tx := q }, unannounced := s.unannounced + bytes.length }
  | .setRx q => some { s with fs := { s.fs with rx := q } }
  | .packet p ts env => (fastFlowsPacket s.fs flowId p ts env).bind fun r =>
      (applySets s.t r.out).map fun t => { s with fs := r.fs, t := t }
  | .bump bumpSeq txBump flags ts =>
    let r := fastFlowsBump s.fs flowId bumpSeq txBump flags ts
    (applySets s.t r.out).map fun t =>
      ⟨r.fs, t, s.unannounced - bumpAnnounced s.fs bumpSeq txBump⟩
  | .retransmit =>
    let r := fastFlowsRetransmit s.fs flowId
    (applySets s.t r.out).map fun t => { s with fs := r.fs, t := t }
  | .poll num qts ts => (qmanPoll s.t num qts).bind fun p =>
      (sendFired flowId ts s.fs p.out).map fun fs => { s with fs := fs, t := p.t }

def schedInit (fs : FlowSt) (ts : BitVec 32) (rng : Nat → BitVec 32) (nolimitFirst : Bool) : SchedState :=
  ⟨fs, qmanThreadInit ts rng nolimitFirst, 0⟩

def schedHonest (s : SchedState) : SchedOp → Prop
  | .bump bumpSeq txBump _ _ => bumpAnnounced s.fs bumpSeq txBump ≤ s.unannounced
  | _ => True

instance (s : SchedState) : ∀ op, Decidable (schedHonest s op)
  | .bump _ _ _ _ => inferInstanceAs (Decidable (_ ≤ _))
  | .publish _ | .setRx _ | .packet .. | .retransmit | .poll .. => isTrue trivial

/-- The flow has unsent bytes and a window to send them in. -/
def FlowSt.canSend (fs : FlowSt) : Prop := fs.txSent.toNat < rqNbytesEnqueued fs.tx ∧ fs.txSent < fs.rxRemoteAvail
deriving Decidable

def SchedState.avail (flowId : BitVec 32) (s : SchedState) : Nat := (s.t.queues flowId.toNat).avail.toNat

/-! ## What calls tell the queue manager -/

section Sets

variable {fs : FlowSt} {t t' : QmanThread} {flowId old new : BitVec 32} {out : List FlowEffect}

theorem qmanSet_funds {c : QmanSet} (h : qmanSet t c = some (t', 0)) :
    (t'.queues c.id.toNat).funds = (qmanUpdate (t.queues c.id.toNat) c).funds := by
  unfold qmanSet at h
  split at h
  · cases h
  · obtain ⟨t₁, ht₁, e⟩ := map_eq_some_iff.mp h
    cases e
    have hself : ((t.setQueue c.id.toNat (qmanUpdate (t.queues c.id.toNat) c)).queues c.id.toNat).funds =
        (qmanUpdate (t.queues c.id.toNat) c).funds := by
      simp [QmanThread.setQueue]
    simp only [setImpl] at ht₁
    split at ht₁
    · exact (queueActivate_funds ht₁ _).trans hself
    · cases ht₁
      exact hself

theorem qmanUpdate_more (q : QmanQueue) (id rate a : BitVec 32) (chunk : BitVec 16) :
    (qmanUpdate q ⟨id, rate, a, chunk, qmanSetRate ||| qmanSetMaxchunk ||| qmanAddAvail⟩).funds = (q.avail + a, chunk) := by
  rw [QmanQueue.funds, qmanUpdate]
  dsimp only
  rw [if_neg (by decide), if_pos (by decide), if_pos (by decide)]

/-- What the queue manager counts for the flow grows with `tcp_txavail`. -/
theorem applySets_more (h : applySets t out = some t')
    (hout : out.filterMap (·.qmanSet?) = (qmanMore fs flowId old new).filterMap (·.qmanSet?))
    (hlt : (t.queues flowId.toNat).avail.toNat + new.toNat < 2 ^ 32) :
    (t'.queues flowId.toNat).avail.toNat = (t.queues flowId.toNat).avail.toNat + (new.toNat - old.toNat) ∧
      ((t'.queues flowId.toNat).funds = (t.queues flowId.toNat).funds ∨
        (t'.queues flowId.toNat).maxChunk = tcpMss.setWidth 16) := by
  rw [applySets, hout, qmanMore] at h
  split at h
  · rename_i hmore
    obtain ⟨t₁, ht₁, e⟩ := bind_eq_some_iff.mp h
    cases e
    obtain ⟨⟨t₂, r⟩, hset, hr⟩ := bind_eq_some_iff.mp ht₁
    split at hr
    · rename_i hr0
      cases hr
      obtain rfl : r = 0 := hr0
      obtain ⟨ha, hc⟩ := Prod.mk.inj ((qmanSet_funds hset).trans (qmanUpdate_more ..))
      have hsub := toNat_sub_of_le (Nat.le_of_lt (BitVec.lt_def.mp hmore))
      refine ⟨?_, .inr hc⟩
      have ha' : (t₂.queues flowId.toNat).avail = (t.queues flowId.toNat).avail + (new - old) := ha
      rw [ha', BitVec.toNat_add_of_lt (by rw [hsub]; omega), hsub]
    · cases hr
  · rename_i hmore
    cases h
    have := BitVec.lt_def.not.mp hmore
    exact ⟨by omega, .inl rfl⟩

theorem fastFlowsPacket_sets {p : RxPacket} {ts : BitVec 32} {env : RdmaEnv} {r : FlowResult}
    (h : fastFlowsPacket fs flowId p ts env = some r) :
    (packetSlow fs p = true ∧ r.out = []) ∨
    (packetSlow fs p = false ∧ r.out.filterMap (·.qmanSet?) =
      (qmanMore r.fs ((flowId.setWidth 16).setWidth 32) (tcpTxavail fs none) (tcpTxavail r.fs none)).filterMap
        (·.qmanSet?)) := by
  rcases fastFlowsPacket_cases h with ⟨hslow, -, -, hout⟩ | ⟨st, _, hst, hun⟩
  · exact .inl ⟨hslow, hout⟩
  refine .inr ⟨(packetReceived_arrives hst).1, ?_⟩
  obtain ⟨rx, arx, rfl, hf⟩ := packetUnlock_eq hun
  have harx : arx.filterMap (·.qmanSet?) = [] := by
    rcases hf with ⟨-, rfl⟩ | ⟨-, -, rfl⟩ <;> rfl
  rw [filterMap_append, filterMap_append, harx, nil_append]
  split
  · exact append_nil _
  · exact append_nil _

theorem fastFlowsBump_sets (fs : FlowSt) (flowId : BitVec 32) (bumpSeq : BitVec 16) (txBump : BitVec 32) (flags : BitVec 8)
    (ts : BitVec 32) :
    (bumpAnnounced fs bumpSeq txBump = 0 ∧
      (fastFlowsBump fs flowId bumpSeq txBump flags ts).out.filterMap (·.qmanSet?) = []) ∨
    (bumpAnnounced fs bumpSeq txBump = txBump.toNat ∧
      (fastFlowsBump fs flowId bumpSeq txBump flags ts).out.filterMap (·.qmanSet?) =
        (qmanMore fs flowId (tcpTxavail fs (some (BitVec.ofNat 32 (rqNbytesEnqueued fs.tx) - txBump)))
          (tcpTxavail fs none)).filterMap (·.qmanSet?)) := by
  have hmore : ∀ (fs' : FlowSt) (a : BitVec 32), qmanMore fs' flowId a a = [] := fun _ _ => if_neg (BitVec.lt_irrefl _)
  -- the segment of a window update is not for the queue manager
  have hlast : ∀ (c : Prop) [Decidable c] (fs' : FlowSt) (l : List FlowEffect) (seg : TxSegment),
      (if c then FlowResult.mk fs' 0 (l ++ [.segment seg]) else ⟨fs', -1, l⟩).out.filterMap (·.qmanSet?) =
        l.filterMap (·.qmanSet?) := by
    intro c _ fs' l seg
    split
    · rw [filterMap_append]
      exact append_nil _
    · rfl
  simp only [fastFlowsBump, bumpAnnounced]
  by_cases hstale : bumpStale fs bumpSeq = true
  · rw [if_pos hstale, if_pos (by simp [hstale])]
    exact .inl ⟨rfl, rfl⟩
  rw [if_neg hstale]
  by_cases hclosed : fs.has flowstTxfin = true
  · have hc : FlowSt.has { fs with bumpSeq := bumpSeq } flowstTxfin = true := hclosed
    refine .inl ⟨by simp [hclosed], ?_⟩
    rw [if_neg (by simp [hc])]
    have h0 : (if (FlowSt.has { fs with bumpSeq := bumpSeq } flowstTxfin && txBump != 0) = true then 0 else txBump) = 0 := by
      by_cases h : txBump = 0 <;> simp [hc, h]
    have hsub : BitVec.ofNat 32 (rqNbytesEnqueued fs.tx) - 0 = BitVec.ofNat 32 (rqNbytesEnqueued fs.tx) := BitVec.sub_zero _
    rw [hlast, h0, hsub]
    exact congrArg _ (hmore ..)
  · have hc : FlowSt.has { fs with bumpSeq := bumpSeq } flowstTxfin = false := (Bool.not_eq_true _).mp hclosed
    rw [if_neg (by simp [hstale, hclosed])]
    simp only [hc, Bool.false_and, Bool.not_false, Bool.true_and, Bool.and_true, Bool.false_eq_true, if_false]
    split
    · rename_i hz
      simp only [Bool.and_eq_true, beq_iff_eq] at hz
      exact .inl ⟨by rw [hz.2]; rfl, rfl⟩
    · refine .inr ⟨trivial, (hlast ..).trans ?_⟩
      split <;> rfl

theorem fastFlowsRetransmit_sets (fs : FlowSt) (flowId : BitVec 32) :
    (fs.txSent = 0 ∧ (fastFlowsRetransmit fs flowId).out = []) ∨
    (fs.txSent ≠ 0 ∧ (fastFlowsRetransmit fs flowId).out =
      qmanMore (flowResetRetransmit fs) flowId (tcpTxavail fs none) (tcpTxavail (flowResetRetransmit fs) none)) := by
  simp only [fastFlowsRetransmit]
  split
  · rename_i h
    exact .inl ⟨h, rfl⟩
  · rename_i h
    exact .inr ⟨h, rfl⟩

end Sets

/-! ## What can be sent is covered -/

/-- A reset of transmission with bytes in flight finds a window that is no larger than the
queue. -/
def ResetCovers (fs : FlowSt) : Prop := fs.txSent = 0 ∨ fs.rxRemoteAvail.toNat ≤ rqNbytesEnqueued fs.tx
deriving Decidable

/-- While bytes are in flight, a packet acknowledges no more than these; it resets
transmission only where that is covered; and it does not shrink the window below what is
in flight. -/
def PacketCovers (fs : FlowSt) (p : RxPacket) : Prop := packetSlow fs p = false →
  (fs.txSent ≠ 0 → (ackBump fs p).all (· ≤ fs.txSent) = true) ∧ (ackResets fs p = true → ResetCovers fs) ∧
  (packetRecords fs p = true → fs.txSent.toNat - ((ackBump fs p).getD 0).toNat ≤ p.wnd.toNat)
deriving Decidable

/-- A bump that announces bytes finds them in the queue, and: the window has room for the
whole queue besides what is in flight, or is filled already, or nothing is in flight and the bump
announces everything flushed. -/
def BumpCovers (s : SchedState) (bumpSeq : BitVec 16) (txBump : BitVec 32) : Prop :=
  let b := bumpAnnounced s.fs bumpSeq txBump
  let enqueued := rqNbytesEnqueued s.fs.tx
  b ≠ 0 → b ≤ enqueued ∧ (s.fs.txSent.toNat + enqueued ≤ s.fs.rxRemoteAvail.toNat ∨
    s.fs.rxRemoteAvail.toNat + s.unannounced ≤ enqueued ∨ s.fs.txSent = 0 ∧ b = s.unannounced)
deriving Decidable

/-- The calls cover what they make it possible to send, and what the queue manager counts
does not wrap. -/
def schedCovers (flowId : BitVec 32) (s : SchedState) : SchedOp → Prop
  | .packet p _ _ => s.avail flowId < 2 ^ 31 ∧ PacketCovers s.fs p
  | .bump bumpSeq txBump _ _ => s.avail flowId < 2 ^ 31 ∧ BumpCovers s bumpSeq txBump
  | .retransmit => s.avail flowId < 2 ^ 31 ∧ ResetCovers s.fs
  | _ => True

instance (flowId : BitVec 32) (s : SchedState) : ∀ op, Decidable (schedCovers flowId s op)
  | .packet .. | .bump .. | .retransmit => inferInstanceAs (Decidable (_ ∧ _))
  | .publish _ | .setRx _ | .poll .. => isTrue trivial

/-- What is in flight is within the window, and with what the queue manager counts it covers
what was announced or the window. -/
structure Funded (fs : FlowSt) (avail unannounced : Nat) : Prop where
  queue : ∃ P D, NicTx fs.tx P D
  window : fs.txSent.toNat ≤ fs.rxRemoteAvail.toNat
  covered : min fs.rxRemoteAvail.toNat (rqNbytesEnqueued fs.tx - unannounced) ≤ fs.txSent.toNat + avail

namespace Funded

variable {fs fs' : FlowSt} {avail unannounced : Nat}

section

variable (h : Funded fs avail unannounced)

include h

theorem enqueued_lt : rqNbytesEnqueued fs.tx < 2 ^ 31 := by
  obtain ⟨P, D, hq⟩ := h.queue
  have h₁ := hq.enqueued; have h₂ := hq.lap; have h₃ := hq.size
  omega

theorem txavail : (tcpTxavail fs none).toNat =
    min (fs.rxRemoteAvail.toNat - fs.txSent.toNat) (rqNbytesEnqueued fs.tx) :=
  toNat_tcpTxavail h.window (by have := h.enqueued_lt; omega)

theorem publish {bytes : List Byte} {q : RdmaQueue}
    (hq : txPublish fs.tx bytes = some q) : Funded { fs with tx := q } avail (unannounced + bytes.length) := by
  obtain ⟨P, D, hn⟩ := h.queue
  obtain ⟨hn', -⟩ := hn.publish hq
  have h₁ := h.covered
  refine ⟨⟨_, _, hn'⟩, h.window, ?_⟩
  simp only [hn'.enqueued, hn.enqueued] at h₁ ⊢
  omega

omit h in
/-- The flow sends after it was let to send `k` bytes. -/
theorem send {k : Nat} {flowId ts : BitVec 32} {r : FlowResult} (h : Funded fs (avail + k) unannounced)
    (hk : k ≤ tcpMss.toNat) (hr : fastFlowsQman fs flowId 0 0 ts = some r) : Funded r.fs avail unannounced := by
  have h₁ := h.covered; have h₂ := h.window; have h₃ := h.txavail
  have hlen : (qmanLen fs).toNat = min tcpMss.toNat (tcpTxavail fs none).toNat := by
    simp only [qmanLen]
    split
    · rename_i hlt
      have := BitVec.lt_def.mp hlt
      omega
    · rename_i hlt
      have := BitVec.lt_def.not.mp hlt
      omega
  rw [fastFlowsQman, if_neg (by simp)] at hr
  split at hr
  · rename_i hzero
    cases hr
    have hz : (tcpTxavail fs none).toNat = 0 := congrArg BitVec.toNat hzero
    exact ⟨h.queue, h₂, by dsimp only; omega⟩
  split at hr
  · cases hr
  · cases hr
    have hsent : (qmanSent fs).txSent.toNat = fs.txSent.toNat + (qmanLen fs).toNat :=
      BitVec.toNat_add_of_lt (by omega)
    refine ⟨h.queue, ?_, ?_⟩
    · rw [hsent]
      show _ ≤ fs.rxRemoteAvail.toNat
      omega
    · rw [hsent]
      show min fs.rxRemoteAvail.toNat (rqNbytesEnqueued fs.tx - unannounced) ≤ _
      omega

/-- A call changes what is in flight, the window and the queue, and tells the queue manager
of the difference. -/
theorem tell {avail' : Nat} {unannounced' : Nat} (hq : ∃ P D, NicTx fs'.tx P D)
    (hw : fs'.txSent.toNat ≤ fs'.rxRemoteAvail.toNat)
    (ha : avail' = avail + ((tcpTxavail fs' none).toNat - (tcpTxavail fs none).toNat))
    (hc : min fs'.rxRemoteAvail.toNat (rqNbytesEnqueued fs'.tx - unannounced') ≤ fs'.txSent.toNat + avail +
      (min (fs'.rxRemoteAvail.toNat - fs'.txSent.toNat) (rqNbytesEnqueued fs'.tx) -
        min (fs.rxRemoteAvail.toNat - fs.txSent.toNat) (rqNbytesEnqueued fs.tx))) : Funded fs' avail' unannounced' := by
  refine ⟨hq, hw, ?_⟩
  obtain ⟨P, D, hn⟩ := hq
  have hlt : rqNbytesEnqueued fs'.tx < 2 ^ 32 := by
    have h₁ := hn.enqueued; have h₂ := hn.lap; have h₃ := hn.size
    omega
  rw [ha, toNat_tcpTxavail hw hlt, h.txavail]
  omega

theorem reset (hr : ResetCovers fs) (hq : ∃ P D, NicTx fs'.tx P D)
    (he : rqNbytesEnqueued fs'.tx = rqNbytesEnqueued fs.tx) (hsent : fs'.txSent = 0)
    (hwnd : fs'.rxRemoteAvail = fs.rxRemoteAvail + fs.txSent) {avail' : Nat}
    (ha : avail' = avail + ((tcpTxavail fs' none).toNat - (tcpTxavail fs none).toNat)) : Funded fs' avail' unannounced := by
  have h₁ := h.window; have h₂ := h.covered; have h₃ := h.enqueued_lt
  have hsum : (fs.rxRemoteAvail + fs.txSent).toNat = fs.rxRemoteAvail.toNat + fs.txSent.toNat := by
    rcases hr with h0 | hle
    · simp [h0]
    · exact BitVec.toNat_add_of_lt (by omega)
  have hsent' : fs'.txSent.toNat = 0 := congrArg BitVec.toNat hsent
  refine h.tell hq (by omega) ha ?_
  rw [hwnd, hsum, he, hsent']
  rcases hr with h0 | hle
  · have h0' : fs.txSent.toNat = 0 := congrArg BitVec.toNat h0
    omega
  · omega

theorem acknowledge {b avail' : Nat} (hle : b ≤ rqNbytesEnqueued fs.tx)
    (hq : ∃ P D, NicTx fs'.tx P D)
    (he : rqNbytesEnqueued fs'.tx = rqNbytesEnqueued fs.tx - b) (hs : fs'.txSent.toNat = fs.txSent.toNat - b)
    (hw : fs'.txSent.toNat ≤ fs'.rxRemoteAvail.toNat)
    (ha : avail' = avail + ((tcpTxavail fs' none).toNat - (tcpTxavail fs none).toNat)) : Funded fs' avail' unannounced := by
  have h₂ := h.covered
  refine h.tell hq hw ha ?_
  rw [he, hs]
  clear h he ha
  -- either the old window was filled, or it had room for all that was announced
  rcases Nat.le_total fs.rxRemoteAvail.toNat (rqNbytesEnqueued fs.tx - unannounced) with hfull | hroom
  · rw [Nat.min_eq_left hfull] at h₂
    omega
  · rw [Nat.min_eq_right hroom] at h₂
    omega

omit h in
theorem acked_toNat {b sent : BitVec 32} (h : b ≤ sent ∨ sent = 0) :
    (if b ≤ sent then b else b - sent).toNat = b.toNat ∧ (if b ≤ sent then sent - b else 0).toNat = sent.toNat - b.toNat := by
  by_cases hle : b ≤ sent
  · rw [if_pos hle, if_pos hle]
    exact ⟨rfl, toNat_sub_of_le (BitVec.le_def.mp hle)⟩
  · rw [if_neg hle, if_neg hle, h.resolve_left hle]
    exact ⟨congrArg BitVec.toNat (BitVec.sub_zero b), (Nat.zero_sub _).symm⟩

theorem packet {p : RxPacket} (hp : PacketCovers fs p) {flowId ts : BitVec 32} {env : RdmaEnv}
    {r : FlowResult} (hr : fastFlowsPacket fs flowId p ts env = some r) (hslow : packetSlow fs p = false) {avail' : Nat}
    (ha : avail' = avail + ((tcpTxavail r.fs none).toNat - (tcpTxavail fs none).toNat)) :
    Funded r.fs avail' unannounced := by
  obtain ⟨hack, hreset, hwnd⟩ := hp hslow
  have h₁ := h.window
  obtain ⟨P, D, hn⟩ := h.queue
  have hE := hn.enqueued
  have hwidth : (p.wnd.setWidth 32).toNat = p.wnd.toNat := toNat_setWidth32 _
  rcases fastFlowsPacket_tx hr with ⟨hslow', -⟩ | ⟨-, a, hpa, htx, hsent, -, havail⟩
  · rw [hslow] at hslow'
    cases hslow'
  rcases packetAck_tx hpa with ⟨hb, hs, hno⟩ | ⟨b, d, hb, hd, hrv, htx', -, hres, hsent', havail'⟩
  · rw [hs.tx] at htx
    rw [hs.sent] at hsent
    rw [hs.avail] at havail
    rw [hb] at hwnd
    have hR : fs.txSent.toNat ≤ r.fs.rxRemoteAvail.toNat := by
      rw [havail]
      split
      · rename_i hrec
        rw [hwidth]
        exact hwnd hrec
      · exact h₁
    exact h.acknowledge (Nat.zero_le _) ⟨P, D, htx ▸ hn⟩ (by rw [htx]; rfl) (by rw [hsent]; rfl)
      (hsent ▸ hR) ha
  · obtain ⟨hle, hn', -⟩ := hn.dequeue hd hrv
    have hE' := hn'.enqueued
    rw [← htx', ← htx] at hE' hn'
    rw [hsent'] at hsent
    rw [havail'] at havail
    rw [hb] at hack hwnd
    by_cases hr' : a.reset = true
    · have hrec : packetRecords fs p = false := by simp [packetRecords, hslow, hpa, hr']
      rw [if_pos hr'] at hsent havail
      rw [hrec, if_neg Bool.false_ne_true] at havail
      have hb0 : b = 0 := by
        rw [hres] at hr'
        simp only [ackResets, hb, Bool.and_eq_true, beq_iff_eq, some.injEq] at hr'
        exact hr'.1.1
      have h0 : (0 : BitVec 32) ≤ fs.txSent := BitVec.le_def.mpr (Nat.zero_le _)
      have hsub : fs.txSent - 0 = fs.txSent := BitVec.sub_zero _
      rw [hb0, if_pos h0] at hE' hn'
      rw [hb0, if_pos h0, hsub] at havail
      exact h.reset (hreset (hres ▸ hr')) ⟨_, _, hn'⟩ (hE'.trans hE.symm) hsent havail ha
    · rw [if_neg hr'] at hsent havail
      have hb' : b ≤ fs.txSent ∨ fs.txSent = 0 := by
        by_cases h0 : fs.txSent = 0
        · exact .inr h0
        · exact .inl (by simpa using hack h0)
      obtain ⟨hsz, hS'⟩ := acked_toNat hb'
      rw [← hsent] at hS'
      have hR : r.fs.txSent.toNat ≤ r.fs.rxRemoteAvail.toNat := by
        rw [hS', havail]
        split
        · rename_i hrec
          rw [hwidth]
          exact hwnd hrec
        · omega
      rw [hsz] at hE' hle
      exact h.acknowledge (by omega) ⟨_, _, hn'⟩ (by omega) hS' hR ha

theorem same (hs : SameTx fs fs') : Funded fs' avail unannounced := by
  refine ⟨hs.tx ▸ h.queue, ?_, ?_⟩ <;> rw [hs.sent, hs.avail]
  · exact h.window
  · rw [hs.tx]
    exact h.covered

end

theorem bump {s : SchedState} {bumpSeq : BitVec 16} {txBump : BitVec 32} (h : Funded s.fs avail s.unannounced)
    (hb : BumpCovers s bumpSeq txBump) (hle : bumpAnnounced s.fs bumpSeq txBump ≤ s.unannounced)
    (heq : bumpAnnounced s.fs bumpSeq txBump = txBump.toNat) {avail' : Nat}
    (ha : avail' = avail + ((tcpTxavail s.fs none).toNat -
      (tcpTxavail s.fs (some (BitVec.ofNat 32 (rqNbytesEnqueued s.fs.tx) - txBump))).toNat)) :
    Funded s.fs avail' (s.unannounced - bumpAnnounced s.fs bumpSeq txBump) := by
  have h₁ := h.window; have h₂ := h.covered; have h₃ := h.enqueued_lt
  refine ⟨h.queue, h₁, ?_⟩
  by_cases h0 : bumpAnnounced s.fs bumpSeq txBump = 0
  · omega
  obtain ⟨hin, hcase⟩ := hb h0
  have hold : (BitVec.ofNat 32 (rqNbytesEnqueued s.fs.tx) - txBump).toNat = rqNbytesEnqueued s.fs.tx - txBump.toNat := by
    have hE : (BitVec.ofNat 32 (rqNbytesEnqueued s.fs.tx)).toNat = rqNbytesEnqueued s.fs.tx :=
      toNat_ofNat_of_lt (by omega)
    rw [toNat_sub_of_le (by omega), hE]
  rw [ha, h.txavail, toNat_tcpTxavail_some h₁, hold]
  rcases hcase with hcase | hcase | ⟨hz, hcase⟩
  · omega
  · omega
  · have hz' : s.fs.txSent.toNat = 0 := congrArg BitVec.toNat hz
    omega

theorem sendFired {flowId ts : BitVec 32} {l : List Fired} (h : Funded fs (avail + (l.map (·.bytes.toNat)).sum) unannounced)
    (hl : ∀ f ∈ l, f.bytes.toNat ≤ tcpMss.toNat)
    (hs : l.foldlM (fun fs _ => (fastFlowsQman fs flowId 0 0 ts).map (·.fs)) fs = some fs') :
    Funded fs' avail unannounced := by
  induction l generalizing fs with
  | nil =>
    cases hs
    exact h
  | cons f l ih =>
    rw [foldlM_cons] at hs
    obtain ⟨fs₁, hfs₁, hs⟩ := bind_eq_some_iff.mp hs
    obtain ⟨r, hr, rfl⟩ := map_eq_some_iff.mp hfs₁
    rw [map_cons, sum_cons, Nat.add_comm f.bytes.toNat, ← Nat.add_assoc] at h
    exact ih (h.send (hl f (mem_cons_self ..)) hr) (fun g hg => hl g (mem_cons_of_mem _ hg)) hs

end Funded

/-- What can be sent is covered, and a flow with bytes to send has the chunk of the fast path. -/
structure SchedInv (flowId : BitVec 32) (s : SchedState) : Prop where
  funded : Funded s.fs (s.avail flowId) s.unannounced
  chunk : s.avail flowId ≠ 0 → (s.t.queues flowId.toNat).maxChunk = tcpMss.setWidth 16

section Steps

variable {flowId : BitVec 32} {s s' : SchedState} {t' : QmanThread} {out : List FlowEffect}

theorem applySets_nil {t : QmanThread} (h : applySets t out = some t') (hout : out.filterMap (·.qmanSet?) = []) : t' = t := by
  rw [applySets, hout] at h
  exact (some.inj h).symm

theorem SchedInv.told (h : SchedInv flowId s) {fs : FlowSt} (f : FlowSt) (hlt : s.avail flowId < 2 ^ 31) {old : BitVec 32}
    (ht : applySets s.t out = some t')
    (hout : out.filterMap (·.qmanSet?) = (qmanMore fs flowId old (tcpTxavail f none)).filterMap (·.qmanSet?))
    (hE : rqNbytesEnqueued f.tx < 2 ^ 31) :
    (t'.queues flowId.toNat).avail.toNat = s.avail flowId + ((tcpTxavail f none).toNat - old.toNat) ∧
      ((t'.queues flowId.toNat).avail.toNat ≠ 0 → (t'.queues flowId.toNat).maxChunk = tcpMss.setWidth 16) := by
  have hle := (toNat_tcpTxavail_le f).2
  have hsum : (s.t.queues flowId.toNat).avail.toNat + (tcpTxavail f none).toNat < 2 ^ 32 := by
    have : (s.t.queues flowId.toNat).avail.toNat < 2 ^ 31 := hlt
    omega
  obtain ⟨ha, hc⟩ := applySets_more ht hout hsum
  refine ⟨ha, fun hne => ?_⟩
  rcases hc with hc | hc
  · obtain ⟨ha', hc⟩ := Prod.mk.inj hc
    rw [hc]
    exact h.chunk (by rwa [SchedState.avail, ← ha'])
  · exact hc

theorem setWidth_flowId (h : flowId.toNat < 2 ^ 16) : (flowId.setWidth 16).setWidth 32 = flowId := by
  apply BitVec.eq_of_toNat_eq
  rw [toNat_setWidth32, toNat_setWidth16_of_lt h]

theorem fastFlowsPacket_enqueued {fs : FlowSt} {P D : Nat} (hn : NicTx fs.tx P D) {p : RxPacket} {ts : BitVec 32}
    {env : RdmaEnv} {r : FlowResult} (hr : fastFlowsPacket fs flowId p ts env = some r) :
    rqNbytesEnqueued r.fs.tx < 2 ^ 31 := by
  have hlt : ∀ {q : RdmaQueue} {P D : Nat}, NicTx q P D → rqNbytesEnqueued q < 2 ^ 31 := by
    intro q P D hq
    have h₁ := hq.enqueued; have h₂ := hq.lap; have h₃ := hq.size
    omega
  rcases fastFlowsPacket_tx hr with ⟨-, hs⟩ | ⟨-, a, hpa, htx, -⟩
  · exact hs.tx ▸ hlt hn
  rcases packetAck_tx hpa with ⟨-, hs, -⟩ | ⟨b, d, -, hd, hrv, htx', -⟩
  · exact htx ▸ hs.tx ▸ hlt hn
  · exact htx ▸ htx' ▸ hlt (hn.dequeue hd hrv).2.1

theorem SchedInv.packet (h : SchedInv flowId s) (hid : flowId.toNat < 2 ^ 16) {p : RxPacket} {ts : BitVec 32}
    {env : RdmaEnv} (hlt : s.avail flowId < 2 ^ 31) (hp : PacketCovers s.fs p)
    (hs : schedStep flowId s (.packet p ts env) = some s') : SchedInv flowId s' := by
  obtain ⟨P, D, hn⟩ := h.funded.queue
  obtain ⟨r, hr, hs⟩ := bind_eq_some_iff.mp hs
  obtain ⟨t', ht', rfl⟩ := map_eq_some_iff.mp hs
  rcases fastFlowsPacket_sets hr with ⟨hslow, hout⟩ | ⟨hslow, hout⟩
  · rcases fastFlowsPacket_tx hr with ⟨-, hsame⟩ | ⟨hslow', -⟩
    · obtain rfl := applySets_nil ht' (by rw [hout]; rfl)
      exact ⟨h.funded.same hsame, h.chunk⟩
    · rw [hslow] at hslow'
      cases hslow'
  · rw [setWidth_flowId hid] at hout
    obtain ⟨ha, hc⟩ := h.told _ hlt ht' hout (fastFlowsPacket_enqueued hn hr)
    exact ⟨h.funded.packet hp hr hslow ha, hc⟩

theorem SchedInv.bump (h : SchedInv flowId s) {bumpSeq : BitVec 16} {txBump : BitVec 32} {flags : BitVec 8}
    {ts : BitVec 32} (hhonest : bumpAnnounced s.fs bumpSeq txBump ≤ s.unannounced) (hlt : s.avail flowId < 2 ^ 31)
    (hb : BumpCovers s bumpSeq txBump) (hs : schedStep flowId s (.bump bumpSeq txBump flags ts) = some s') :
    SchedInv flowId s' := by
  obtain ⟨t', ht', rfl⟩ := map_eq_some_iff.mp hs
  have hsame := fastFlowsBump_tx s.fs flowId bumpSeq txBump flags ts
  rcases fastFlowsBump_sets s.fs flowId bumpSeq txBump flags ts with ⟨h0, hout⟩ | ⟨heq, hout⟩
  · obtain rfl := applySets_nil ht' hout
    rw [h0]
    exact ⟨h.funded.same hsame, h.chunk⟩
  · obtain ⟨ha, hc⟩ := h.told _ hlt ht' hout h.funded.enqueued_lt
    exact ⟨(h.funded.bump hb hhonest heq ha).same hsame, hc⟩

theorem SchedInv.retransmit (h : SchedInv flowId s) (hlt : s.avail flowId < 2 ^ 31) (hr : ResetCovers s.fs)
    (hs : schedStep flowId s .retransmit = some s') : SchedInv flowId s' := by
  obtain ⟨t', ht', rfl⟩ := map_eq_some_iff.mp hs
  have hfs := fastFlowsRetransmit_fs s.fs flowId
  rcases fastFlowsRetransmit_sets s.fs flowId with ⟨h0, hout⟩ | ⟨hne, hout⟩
  · obtain rfl := applySets_nil ht' (by rw [hout]; rfl)
    rw [if_pos h0] at hfs
    exact ⟨by rw [hfs]; exact h.funded, h.chunk⟩
  · rw [if_neg hne] at hfs
    obtain ⟨ha, hc⟩ := h.told (flowResetRetransmit s.fs) hlt ht' (by rw [hout]) h.funded.enqueued_lt
    have hq : ∃ P D, NicTx (flowResetRetransmit s.fs).tx P D := h.funded.queue
    refine ⟨?_, hc⟩
    rw [hfs]
    exact h.funded.reset hr hq rfl rfl rfl ha

theorem SchedInv.poll (h : SchedInv flowId s) {num : Nat} {qts ts : BitVec 32}
    (hs : schedStep flowId s (.poll num qts ts) = some s') : SchedInv flowId s' := by
  obtain ⟨p, hp, hs⟩ := bind_eq_some_iff.mp hs
  obtain ⟨fs', hfs', rfl⟩ := map_eq_some_iff.mp hs
  have hfunds := qmanPoll_funds (i := flowId.toNat) hp
  have havail : (p.t.queues flowId.toNat).avail.toNat +
      ((p.out.filter (·.id = flowId.toNat)).map (·.bytes.toNat)).sum = s.avail flowId := hfunds.avail
  have hchunk : s.avail flowId ≠ 0 → (s.t.queues flowId.toNat).maxChunk.toNat = tcpMss.toNat := fun hne => by
    rw [h.chunk hne]
    rfl
  have hfunded := h.funded
  rw [← havail] at hfunded
  refine ⟨hfunded.sendFired (fun f hf => ?_) hfs', fun hne => hfunds.chunk.trans (h.chunk ?_)⟩
  · obtain ⟨hmem, hfid⟩ := mem_filter.mp hf
    have hle := hfunds.fired f hmem (of_decide_eq_true hfid)
    have hsum := single_le_sum (fun _ _ => Nat.zero_le _) _ (mem_map_of_mem (f := (·.bytes.toNat)) hf)
    by_cases hne : s.avail flowId = 0
    · omega
    · rwa [hchunk hne] at hle
  · simp only [SchedState.avail] at hne
    omega

theorem schedStep_inv (hid : flowId.toNat < 2 ^ 16) (s : SchedState) (op : SchedOp) (s' : SchedState)
    (h : SchedInv flowId s) (hok : schedHonest s op ∧ schedCovers flowId s op)
    (hs : schedStep flowId s op = some s') : SchedInv flowId s' := by
  cases op with
  | publish bytes =>
    obtain ⟨q, hq, rfl⟩ := map_eq_some_iff.mp hs
    exact ⟨h.funded.publish hq, h.chunk⟩
  | setRx q =>
    cases hs
    exact ⟨h.funded.same ⟨rfl, rfl, rfl, rfl⟩, h.chunk⟩
  | packet p ts env => exact h.packet hid hok.2.1 hok.2.2 hs
  | bump bumpSeq txBump flags ts => exact h.bump hok.1 hok.2.1 hok.2.2 hs
  | retransmit => exact h.retransmit hok.2.1 hok.2.2 hs
  | poll num qts ts => exact h.poll hs

end Steps

/-- In every run whose calls cover what they make it possible to send: once everything
flushed was announced, a flow with unsent bytes and a window to send them in has bytes that the
queue manager may let it send. -/
theorem sending_goes_on {fs : FlowSt} {localSeq : BitVec 32} (hfresh : SendFresh fs localSeq) {flowId ts : BitVec 32}
    {rng : Nat → BitVec 32} {nolimitFirst : Bool} {ops : List SchedOp} (hid : flowId.toNat < 2 ^ 16)
    (hhonest : Run.All (schedStep flowId) schedHonest (schedInit fs ts rng nolimitFirst) ops)
    (hcovers : Run.All (schedStep flowId) (schedCovers flowId) (schedInit fs ts rng nolimitFirst) ops) :
    ∀ s, Run.exec (schedStep flowId) (schedInit fs ts rng nolimitFirst) ops = some s →
      s.unannounced = 0 → s.fs.canSend → 0 < s.avail flowId := by
  intro s hs hun hcan
  obtain ⟨hq, hsent, -⟩ := hfresh.start
  have h₀ : SchedInv flowId (schedInit fs ts rng nolimitFirst) := by
    refine ⟨⟨⟨_, _, hq⟩, ?_, ?_⟩, fun hne => absurd rfl hne⟩
    · simp [schedInit, hsent]
    · simp [schedInit, hq.enqueued]
  have h := (Run.exec_inv (schedStep_inv hid) h₀ (hhonest.and hcovers) hs).funded.covered
  obtain ⟨h₁, h₂⟩ := hcan
  have h₃ := BitVec.lt_def.mp h₂
  rw [hun, Nat.sub_zero] at h
  omega

/-- Ten bytes are sent and acknowledged. Five more wait to be sent. -/
def ackedOps : List SchedOp :=
  [.publish [0, 1, 2, 3, 4, 5, 6, 7, 8, 9], .bump 1 10 0 0, .poll 1 0 0,
    .packet (.ofStream countingBytes 0 0 0 1010 56) 0 fun _ => (0, 0), .publish [10, 11, 12, 13, 14], .bump 2 5 0 0]

theorem sending_goes_on_acked :
    ∃ s, Run.exec (schedStep 0) (schedInit (zeroedFlow 64 0 1000) 0 (fun _ => 0) true) ackedOps = some s ∧
      s.fs.canSend ∧ 0 < s.avail 0 := by
  obtain ⟨s, hs⟩ := isSome_iff_exists.mp (show (Run.exec (schedStep 0)
    (schedInit (zeroedFlow 64 0 1000) 0 (fun _ => 0) true) ackedOps).isSome by decide +kernel)
  have hend : (Run.exec (schedStep 0) (schedInit (zeroedFlow 64 0 1000) 0 (fun _ => 0) true) ackedOps).all
      (fun s => decide (s.unannounced = 0 ∧ s.fs.canSend)) = true := by
    decide +kernel
  rw [hs, all_some, decide_eq_true_eq] at hend
  exact ⟨s, hs, hend.2, sending_goes_on sendFresh_zeroed (by decide) (by decide +kernel) (by decide +kernel) s hs hend.1
    hend.2⟩

/-- Ten bytes are sent. A timeout makes them unsent again, but does not tell the queue manager. -/
theorem sending_stalls :
    ¬ ∀ (fs : FlowSt) (localSeq : BitVec 32), SendFresh fs localSeq → ∀ (flowId ts : BitVec 32) (rng : Nat → BitVec 32)
      (nolimitFirst : Bool) (ops : List SchedOp),
      Run.All (schedStep flowId) schedHonest (schedInit fs ts rng nolimitFirst) ops →
      ∀ s, Run.exec (schedStep flowId) (schedInit fs ts rng nolimitFirst) ops = some s →
        s.unannounced = 0 → s.fs.canSend → 0 < s.avail flowId := by
  intro h
  have hbad := h (zeroedFlow 64 0 1000) 1000 sendFresh_zeroed 0 0 (fun _ => 0) true
    [.publish [0, 1, 2, 3, 4, 5, 6, 7, 8, 9], .bump 1 10 0 0, .poll 1 0 0, .retransmit] (by decide +kernel)
  exact Run.not_forall_exec (by decide +kernel) hbad

end TasNic
