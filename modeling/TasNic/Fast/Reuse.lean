import TasNic.Fast.FastFlows
import TasNic.Lib.Run

/-!
# Flow states used again (`tas_nic/slow/nicif.c`)

`nicif_connection_add` puts a new connection into a flow state that an earlier one may have used,
and does not set all of it. Two flow states are alike (`Alike`) if they differ only in where an
empty out-of-order interval starts, and in counters, by a fixed amount. Not set are also the
out-of-order interval and the counts of duplicate acknowledgements and of drops, which decide what
the fast path does.
-/

namespace TasNic

/-! ## A flow state from its registration on -/

/-- `struct nicif_connection_stats`. -/
structure ConnStats where
  drops : BitVec 16
  acks : BitVec 16
  ackb : BitVec 32
  ecnb : BitVec 32
  txp : Bool
  rtt : BitVec 32
deriving DecidableEq

def nicifConnectionStats (fs : FlowSt) : ConnStats :=
  ⟨fs.cntTxDrops, fs.cntRxAcks, fs.cntRxAckBytes, fs.cntRxEcnBytes, fs.txSent != 0, fs.rttEst⟩

/-- The counters from those of another time on. -/
def ConnStats.since (s s₀ : ConnStats) : ConnStats :=
  { s with drops := s.drops - s₀.drops, acks := s.acks - s₀.acks, ackb := s.ackb - s₀.ackb, ecnb := s.ecnb - s₀.ecnb }

/-- What a run shows: the return values and effects of calls, and the statistics read, from
the registration on. -/
inductive FlowSeen where
  | call (ret : Int) (out : List FlowEffect)
  | stats (s : ConnStats)
deriving DecidableEq

/-- A flow since its registration, when its statistics were `base`. -/
structure ReuseRun where
  fs : FlowSt
  base : ConnStats
  seen : List FlowSeen

/-- What happens to a flow: calls of the fast path, statistics read and rates set by the slow
path, and what the application does to the queues. -/
inductive ReuseOp where
  | call (c : FlowCall)
  | stats
  | setRate (rate : BitVec 32)
  | setQueues (rx tx : RdmaQueue)

def reuseStep (flowId : BitVec 32) (s : ReuseRun) : ReuseOp → Option ReuseRun
  | .call c => (c.run s.fs flowId).map fun r => { s with fs := r.fs, seen := s.seen ++ [.call r.ret r.out] }
  | .stats => some { s with seen := s.seen ++ [.stats ((nicifConnectionStats s.fs).since s.base)] }
  | .setRate rate => some { s with fs := { s.fs with txRate := rate } }
  | .setQueues rx tx => some { s with fs := { s.fs with rx := rx, tx := tx } }

def reuseStart (fs : FlowSt) : ReuseRun := ⟨fs, nicifConnectionStats fs, []⟩

/-! ## Flow states that are alike -/

/-- By how much counters differ. -/
structure Drift where
  acks : BitVec 16
  ackBytes : BitVec 32
  ecnBytes : BitVec 32

/-- The flow state with other counters and another start of the out-of-order interval. -/
def FlowSt.drift (fs : FlowSt) (start : BitVec 32) (d : Drift) : FlowSt :=
  { fs with
    rxOooStart := start
    cntRxAcks := fs.cntRxAcks + d.acks
    cntRxAckBytes := fs.cntRxAckBytes + d.ackBytes
    cntRxEcnBytes := fs.cntRxEcnBytes + d.ecnBytes }

def Alike (d : Drift) (fs fs' : FlowSt) : Prop :=
  ∃ start, fs' = fs.drift start d ∧ (fs.rxOooLen ≠ 0 → start = fs.rxOooStart)

section Alike

variable {d : Drift} {fs fs' : FlowSt} {p : RxPacket} {ts : BitVec 32} {env : RdmaEnv}

/-- The same decision in two runs. -/
theorem rel_ite {α β : Type} {R : α → β → Prop} {c : Prop} [Decidable c] {a b : α} {a' b' : β} (ht : c → R a a')
    (hf : ¬ c → R b b') : R (if c then a else b) (if c then a' else b') := by
  by_cases h : c
  · rw [if_pos h, if_pos h]
    exact ht h
  · rw [if_neg h, if_neg h]
    exact hf h

theorem rel_cases {α β : Type} {R : α → β → Prop} {o : Option α} {o' : Option β} (h : Option.Rel R o o') :
    o = none ∧ o' = none ∨ ∃ r r', o = some r ∧ o' = some r' ∧ R r r' := by
  cases h with
  | none => exact .inl ⟨rfl, rfl⟩
  | some hr => exact .inr ⟨_, _, rfl, rfl, hr⟩

variable (h : Alike d fs fs')

include h

/-- What no counter and no empty interval decides is the same. -/
theorem Alike.congr {β : Type} (f : FlowSt → β) (hf : ∀ fs start d, f (FlowSt.drift fs start d) = f fs) :
    f fs' = f fs := by
  obtain ⟨start, rfl, -⟩ := h
  exact hf fs start d

theorem packetDequeue_alike (b : BitVec 32) :
    Option.Rel (Alike d) (packetDequeue fs b) (packetDequeue fs' b) := by
  obtain ⟨start, rfl, hs⟩ := h
  simp only [packetDequeue, FlowSt.drift]
  refine rel_ite (fun _ => ?_) fun _ => ?_
  · cases rqTryDequeue fs.tx false b.toNat with
    | none => exact .none
    | some q => exact rel_ite (fun _ => .none) fun _ => .some ⟨start, rfl, hs⟩
  · cases rqTryDequeue fs.tx false (b - fs.txSent).toNat with
    | none => exact .none
    | some q => exact rel_ite (fun _ => .none) fun _ => .some ⟨start, rfl, hs⟩

def AlikeFlag (d : Drift) (r r' : FlowSt × Bool) : Prop := Alike d r.1 r'.1 ∧ r'.2 = r.2

theorem packetDupack_alike (b n : BitVec 32) :
    AlikeFlag d (packetDupack fs b n) (packetDupack fs' b n) := by
  obtain ⟨start, rfl, hs⟩ := h
  refine rel_ite (fun _ => ⟨⟨start, rfl, hs⟩, rfl⟩) fun _ => ?_
  refine rel_ite (fun _ => ?_) fun _ => ⟨⟨start, rfl, hs⟩, rfl⟩
  exact rel_ite (fun _ => ⟨⟨start, rfl, hs⟩, rfl⟩) fun _ => ⟨⟨start, rfl, hs⟩, rfl⟩

theorem alike_acks :
    Alike d { fs with cntRxAcks := fs.cntRxAcks + 1 } { fs' with cntRxAcks := fs'.cntRxAcks + 1 } := by
  obtain ⟨start, rfl, hs⟩ := h
  refine ⟨start, ?_, hs⟩
  simp [FlowSt.drift, BitVec.add_assoc, BitVec.add_comm d.acks]

theorem alike_ackBytes (b : BitVec 32) (ece : Bool) :
    Alike d { fs with
        cntRxAckBytes := fs.cntRxAckBytes + b
        cntRxEcnBytes := if ece then fs.cntRxEcnBytes + b else fs.cntRxEcnBytes }
      { fs' with
        cntRxAckBytes := fs'.cntRxAckBytes + b
        cntRxEcnBytes := if ece then fs'.cntRxEcnBytes + b else fs'.cntRxEcnBytes } := by
  obtain ⟨start, rfl, hs⟩ := h
  refine ⟨start, ?_, hs⟩
  cases ece <;> simp [FlowSt.drift, BitVec.add_assoc, BitVec.add_comm d.ackBytes, BitVec.add_comm d.ecnBytes]

theorem packetAck_alike (p : RxPacket) : Option.Rel (fun r r' : AckResult => Alike d r.fs r'.fs ∧
    r'.txBump = r.txBump ∧ r'.reset = r.reset) (packetAck fs p) (packetAck fs' p) := by
  refine rel_ite (fun _ => ?_) fun _ => .some ⟨h, rfl, rfl⟩
  have h₁ := alike_acks h
  dsimp only
  rw [h₁.congr (tcpValidRxack · p.ackno) fun _ _ _ => rfl]
  cases tcpValidRxack { fs with cntRxAcks := fs.cntRxAcks + 1 } p.ackno with
  | none => exact .some ⟨h₁, rfl, rfl⟩
  | some txBump =>
    dsimp only
    rcases rel_cases (packetDequeue_alike (alike_ackBytes h₁ txBump (p.has tcpEce)) txBump) with
      ⟨e, e'⟩ | ⟨r, r', e, e', h₂⟩ <;> dsimp only at e e' <;> rw [e, e']
    · exact .none
    · obtain ⟨h₃, hreset⟩ := packetDupack_alike h₂ txBump p.payloadBytes
      exact .some ⟨h₃, rfl, hreset⟩

theorem flowRxSeqWrite_alike (seq : BitVec 32) (len : BitVec 16) (src : Nat → Byte) :
    Alike d (flowRxSeqWrite fs seq len src) (flowRxSeqWrite fs' seq len src) := by
  obtain ⟨start, rfl, hs⟩ := h
  exact ⟨start, rfl, hs⟩

theorem alike_ooo (start len : BitVec 32) :
    Alike d { fs with rxOooStart := start, rxOooLen := len } { fs' with rxOooStart := start, rxOooLen := len } := by
  obtain ⟨start', rfl, -⟩ := h
  exact ⟨start, rfl, fun _ => rfl⟩

theorem alike_oooLen {len : BitVec 32} (hlen : len ≠ 0 → fs.rxOooLen ≠ 0) :
    Alike d { fs with rxOooLen := len } { fs' with rxOooLen := len } := by
  obtain ⟨start, rfl, hs⟩ := h
  exact ⟨start, rfl, fun hne => hs (hlen hne)⟩

theorem Alike.oooStart (hne : fs.rxOooLen ≠ 0) : fs'.rxOooStart = fs.rxOooStart := by
  obtain ⟨start, rfl, hs⟩ := h
  exact hs hne

theorem packetOoo_alike (seq bytes : BitVec 32) (payload : Nat → Byte) :
    Alike d (packetOoo fs seq bytes payload) (packetOoo fs' seq bytes payload) := by
  simp only [packetOoo]
  refine rel_ite (fun _ => h) fun _ => ?_
  rw [h.congr (·.rxOooLen) fun _ _ _ => rfl]
  refine rel_ite (fun _ => flowRxSeqWrite_alike (alike_ooo h seq bytes) ..) fun hne => ?_
  rw [h.oooStart hne]
  refine rel_ite (fun _ => flowRxSeqWrite_alike (alike_ooo h seq _) ..) fun _ => ?_
  exact rel_ite (fun _ => flowRxSeqWrite_alike (alike_ooo h fs.rxOooStart _) ..) fun _ => h

theorem packetWindow_alike (p : RxPacket) (ts : BitVec 32) :
    Alike d (packetWindow fs p ts) (packetWindow fs' p ts) := by
  obtain ⟨start, rfl, hs⟩ := h
  exact ⟨start, rfl, hs⟩

def AlikeSeg (d : Drift) (r r' : SegResult) : Prop := Alike d r.fs r'.fs ∧ r'.rxBump = r.rxBump ∧ r'.env = r.env

theorem alike_received (q : RdmaQueue) (seq : BitVec 32) :
    Alike d { fs with rx := q, rxNextSeq := seq } { fs' with rx := q, rxNextSeq := seq } := by
  obtain ⟨start, rfl, hs⟩ := h
  exact ⟨start, rfl, hs⟩

theorem packetCatchUp_alike (rxBump : BitVec 32) (env : RdmaEnv) :
    Option.Rel (AlikeSeg d) (packetCatchUp fs rxBump env) (packetCatchUp fs' rxBump env) := by
  simp only [packetCatchUp]
  rw [h.congr (·.rxOooLen) fun _ _ _ => rfl]
  refine rel_ite (fun _ => .some ⟨h, rfl, rfl⟩) fun hne => ?_
  rw [h.oooStart hne, h.congr (tcpTrimRxbuf · _ _) fun _ _ _ => rfl]
  cases tcpTrimRxbuf fs fs.rxOooStart (fs.rxOooLen.setWidth 16) with
  | none => exact .some ⟨alike_ooo h fs.rxOooStart 0, rfl, rfl⟩
  | some t =>
    -- the interval that is left starts at the same place
    have h₁ := alike_ooo h (fs.rxOooStart + t.1.setWidth 32) (fs.rxOooLen - (t.1.setWidth 32 + t.2.setWidth 32))
    rw [h.congr (·.rxNextSeq) fun _ _ _ => rfl, h.congr (·.rx) fun _ _ _ => rfl] at h₁ ⊢
    refine rel_ite (fun _ => ?_) fun _ => .some ⟨h₁, rfl, rfl⟩
    cases (rqTryEnqueue fs.rx none (fs.rxOooLen - (t.1.setWidth 32 + t.2.setWidth 32)).toNat).eval env with
    | none => exact .none
    | some e =>
      refine rel_ite (fun _ => .none) fun _ => .some ⟨?_, rfl, rfl⟩
      exact alike_oooLen (alike_received h₁ e.1 _) fun hz => absurd rfl hz

theorem packetPayload_alike (bytes : BitVec 32) (payload : Nat → Byte) (env : RdmaEnv) :
    Option.Rel (AlikeSeg d) (packetPayload fs bytes payload env) (packetPayload fs' bytes payload env) := by
  simp only [packetPayload]
  rw [h.congr (·.rx) fun _ _ _ => rfl]
  refine rel_ite (fun _ => .none) fun _ => ?_
  have h₁ : Alike d (flowRxWrite fs (BitVec.ofNat 32 fs.rx.txOffset) (bytes.setWidth 16) payload)
      (flowRxWrite fs' (BitVec.ofNat 32 fs.rx.txOffset) (bytes.setWidth 16) payload) := by
    obtain ⟨start, rfl, hs⟩ := h
    exact ⟨start, rfl, hs⟩
  rw [h₁.congr (·.rx) fun _ _ _ => rfl]
  cases (rqTryEnqueue (flowRxWrite fs (BitVec.ofNat 32 fs.rx.txOffset) (bytes.setWidth 16) payload).rx none
    bytes.toNat).eval env with
  | none => exact .none
  | some e =>
    rw [h₁.congr (·.rxNextSeq) fun _ _ _ => rfl]
    exact rel_ite (fun _ => .none) fun _ => packetCatchUp_alike (alike_received h₁ e.1 _) ..

theorem packetFin_alike (p : RxPacket) : AlikeFlag d (packetFin fs p) (packetFin fs' p) := by
  obtain ⟨start, rfl, hs⟩ := h
  exact rel_ite (fun _ => ⟨⟨start, rfl, hs⟩, rfl⟩) fun _ => ⟨⟨start, rfl, hs⟩, rfl⟩

/-- Alike flow states at the end of `fast_flows_packet`. -/
def AlikeState (d : Drift) (s s' : PacketState) : Prop :=
  Alike d s.fs s'.fs ∧ s' = { s with fs := s'.fs }

theorem packetSegment_alike (p : RxPacket) (ts : BitVec 32) (env : RdmaEnv) :
    Option.Rel (AlikeState d) (packetSegment fs p ts env) (packetSegment fs' p ts env) := by
  simp only [packetSegment]
  rw [h.congr (packetTrim · p) fun _ _ _ => rfl]
  cases packetTrim fs p with
  | outside => exact .some ⟨h, rfl⟩
  | outOfOrder seq bytes off => exact .some ⟨packetOoo_alike h .., rfl⟩
  | inOrder bytes off =>
    have h₁ := packetWindow_alike h p ts
    rw [h₁.congr (·.has _) fun _ _ _ => rfl]
    refine rel_ite (fun _ => .some ⟨h₁, rfl⟩) fun _ => ?_
    have hseg := rel_ite (c := bytes.toNat > 0) (fun _ => packetPayload_alike h₁ bytes (p.payload off) env)
      fun _ => .some (show AlikeSeg d ⟨packetWindow fs p ts, 0, env⟩ ⟨packetWindow fs' p ts, 0, env⟩ from ⟨h₁, rfl, rfl⟩)
    rcases rel_cases hseg with ⟨e, e'⟩ | ⟨r, r', e, e', hr⟩ <;> rw [e, e']
    · exact .none
    obtain ⟨fs₁, rxBump, env₁⟩ := r
    obtain ⟨fs₁', rxBump', env₁'⟩ := r'
    obtain ⟨h₂, hbump, henv⟩ := hr
    obtain rfl : rxBump' = rxBump := hbump
    obtain rfl : env₁' = env₁ := henv
    obtain ⟨h₃, hfin⟩ := packetFin_alike h₂ p
    refine .some ⟨h₃, ?_⟩
    rw [hfin]

def AlikeResult (d : Drift) (r r' : FlowResult) : Prop := Alike d r.fs r'.fs ∧ r'.ret = r.ret ∧ r'.out = r.out

omit h in
theorem packetUnlock_alike {st st' : PacketState} (h : AlikeState d st st') (flowId : BitVec 32) (p : RxPacket)
    (ts rxPos oldAvail txBump : BitVec 32) :
    Option.Rel (AlikeResult d) (packetUnlock st flowId p ts rxPos oldAvail txBump)
      (packetUnlock st' flowId p ts rxPos oldAvail txBump) := by
  obtain ⟨fs, rxBump, finBump, triggerAck, env⟩ := st
  obtain ⟨fs', rxBump', finBump', triggerAck', env'⟩ := st'
  obtain ⟨⟨start, rfl, hs⟩, he⟩ := h
  cases he
  simp only [packetUnlock, FlowSt.drift]
  by_cases hbump : rxBump ≠ 0 ∨ txBump ≠ 0 ∨ finBump = true
  · rw [if_pos hbump, if_pos hbump]
    cases (rqNflush fs.rx rxBump.toNat).eval env with
    | none => exact .none
    | some e =>
      dsimp only
      by_cases hn : e.2.1 ≠ rxBump.toNat
      · rw [if_pos hn, if_pos hn]
        exact .none
      · rw [if_neg hn, if_neg hn]
        exact .some ⟨⟨start, rfl, hs⟩, rfl, rfl⟩
  · rw [if_neg hbump, if_neg hbump]
    exact .some ⟨⟨start, rfl, hs⟩, rfl, rfl⟩

theorem fastFlowsPacket_alike (flowId : BitVec 32) (p : RxPacket) (ts : BitVec 32)
    (env : RdmaEnv) :
    Option.Rel (AlikeResult d) (fastFlowsPacket fs flowId p ts env) (fastFlowsPacket fs' flowId p ts env) := by
  simp only [fastFlowsPacket]
  rw [h.congr (packetSlow · p) fun _ _ _ => rfl, h.congr (·.rxFlags) fun _ _ _ => rfl,
    h.congr (tcpTxavail · none) fun _ _ _ => rfl, h.congr (·.rx) fun _ _ _ => rfl]
  refine rel_ite (fun _ => .some ⟨rel_ite (fun _ => ?_) fun _ => h, rfl, rfl⟩) fun _ => ?_
  · obtain ⟨start, rfl, hs⟩ := h
    exact ⟨start, rfl, hs⟩
  rcases rel_cases (packetAck_alike h p) with ⟨e, e'⟩ | ⟨r, r', e, e', hr⟩ <;> rw [e, e']
  · exact .none
  obtain ⟨fs₁, txBump, reset⟩ := r
  obtain ⟨fs₁', txBump', reset'⟩ := r'
  obtain ⟨h₁, hbump, hreset⟩ := hr
  obtain rfl : txBump' = txBump := hbump
  obtain rfl : reset' = reset := hreset
  have hst := rel_ite (c := reset' = true) (fun _ => .some (show AlikeState d ⟨fs₁, 0, false,
      decide (p.payloadBytes.toNat > 0), env⟩ ⟨fs₁', 0, false, decide (p.payloadBytes.toNat > 0), env⟩ from ⟨h₁, rfl⟩))
    fun _ => packetSegment_alike h₁ p ts env
  dsimp only
  rcases rel_cases hst with ⟨e, e'⟩ | ⟨st, st', e, e', hst⟩ <;> rw [e, e']
  · exact .none
  · exact packetUnlock_alike hst ..

theorem fastFlowsBump_alike (flowId : BitVec 32) (bumpSeq : BitVec 16) (txBump : BitVec 32)
    (flags : BitVec 8) (ts : BitVec 32) :
    AlikeResult d (fastFlowsBump fs flowId bumpSeq txBump flags ts)
      (fastFlowsBump fs' flowId bumpSeq txBump flags ts) := by
  obtain ⟨start, rfl, hs⟩ := h
  refine rel_ite (fun _ => ⟨⟨start, rfl, hs⟩, rfl, rfl⟩) fun _ => ?_
  refine rel_ite (fun _ => ⟨⟨start, rfl, hs⟩, rfl, rfl⟩) fun _ => ?_
  -- whether the bump closes transmission or not
  dsimp only [FlowSt.drift, FlowSt.has]
  by_cases hclose : (flags &&& atxFltxdone == atxFltxdone && !(fs.rxFlags &&& flowstTxfin == flowstTxfin)) = true
  · simp only [hclose, if_true]
    exact rel_ite (R := AlikeResult d) (fun _ => ⟨⟨start, rfl, hs⟩, rfl, rfl⟩) fun _ => ⟨⟨start, rfl, hs⟩, rfl, rfl⟩
  · rw [Bool.not_eq_true] at hclose
    simp only [hclose, Bool.false_eq_true, if_false]
    exact rel_ite (R := AlikeResult d) (fun _ => ⟨⟨start, rfl, hs⟩, rfl, rfl⟩) fun _ => ⟨⟨start, rfl, hs⟩, rfl, rfl⟩

theorem fastFlowsQman_alike (flowId : BitVec 32) (ctxId newCore : BitVec 16) (ts : BitVec 32) :
    Option.Rel (AlikeResult d) (fastFlowsQman fs flowId ctxId newCore ts)
      (fastFlowsQman fs' flowId ctxId newCore ts) := by
  obtain ⟨start, rfl, hs⟩ := h
  refine rel_ite (fun _ => .some ⟨⟨start, rfl, hs⟩, rfl, rfl⟩) fun _ => ?_
  refine rel_ite (fun _ => .some ⟨⟨start, rfl, hs⟩, rfl, rfl⟩) fun _ => ?_
  exact rel_ite (fun _ => .none) fun _ => .some ⟨⟨start, rfl, hs⟩, rfl, rfl⟩

theorem fastFlowsRetransmit_alike (flowId : BitVec 32) :
    AlikeResult d (fastFlowsRetransmit fs flowId) (fastFlowsRetransmit fs' flowId) := by
  obtain ⟨start, rfl, hs⟩ := h
  exact rel_ite (fun _ => ⟨⟨start, rfl, hs⟩, rfl, rfl⟩) fun _ => ⟨⟨start, rfl, hs⟩, rfl, rfl⟩

theorem flowCall_alike (flowId : BitVec 32) (c : FlowCall) :
    Option.Rel (AlikeResult d) (c.run fs flowId) (c.run fs' flowId) := by
  cases c with
  | packet p ts env => exact fastFlowsPacket_alike h ..
  | bump bumpSeq txBump flags ts => exact .some (fastFlowsBump_alike h ..)
  | qman ctxId newCore ts => exact fastFlowsQman_alike h ..
  | retransmit => exact .some (fastFlowsRetransmit_alike h ..)

end Alike

/-! ## Runs -/

/-- Two runs that have shown the same, with alike flow states and counters that differ by as
much as at the registration. -/
structure AlikeRun (d : Drift) (s s' : ReuseRun) : Prop where
  fs : Alike d s.fs s'.fs
  base : s'.base = { s.base with
    acks := s.base.acks + d.acks, ackb := s.base.ackb + d.ackBytes, ecnb := s.base.ecnb + d.ecnBytes }
  seen : s'.seen = s.seen

theorem AlikeRun.stats {d : Drift} {s s' : ReuseRun} (h : AlikeRun d s s') :
    (nicifConnectionStats s'.fs).since s'.base = (nicifConnectionStats s.fs).since s.base := by
  obtain ⟨start, hfs, -⟩ := h.fs
  have hsub : ∀ {w : Nat} (a b c : BitVec w), a + c - (b + c) = a - b := fun a b c => by
    rw [BitVec.sub_eq_iff_eq_add, ← BitVec.add_assoc, BitVec.sub_add_cancel]
  rw [h.base, hfs]
  simp [nicifConnectionStats, ConnStats.since, FlowSt.drift, hsub]

theorem reuseStep_alike {d : Drift} (flowId : BitVec 32) (s s' : ReuseRun) (op : ReuseOp) (h : AlikeRun d s s') :
    Option.Rel (AlikeRun d) (reuseStep flowId s op) (reuseStep flowId s' op) := by
  cases op with
  | call c =>
    rcases rel_cases (flowCall_alike h.fs flowId c) with ⟨e, e'⟩ | ⟨r, r', e, e', hr⟩ <;>
      simp only [reuseStep, e, e']
    · exact .none
    · refine .some ⟨hr.1, h.base, ?_⟩
      dsimp only
      rw [h.seen, hr.2.1, hr.2.2]
  | stats =>
    refine .some ⟨h.fs, h.base, ?_⟩
    rw [h.seen, h.stats]
  | setRate rate =>
    obtain ⟨start, hfs, hs⟩ := h.fs
    refine .some ⟨⟨start, ?_, hs⟩, h.base, h.seen⟩
    rw [hfs]
    rfl
  | setQueues rx tx =>
    obtain ⟨start, hfs, hs⟩ := h.fs
    refine .some ⟨⟨start, ?_, hs⟩, h.base, h.seen⟩
    rw [hfs]
    rfl

/-- What earlier connections left is the same, as far as it decides what the fast path does: the
duplicate acknowledgements and drops counted, and the out-of-order interval. -/
def LeftSame (fs fs' : FlowSt) : Prop :=
  fs'.rxDupackCnt = fs.rxDupackCnt ∧ fs'.cntTxDrops = fs.cntTxDrops ∧ fs'.rxOooLen = fs.rxOooLen ∧
    (fs.rxOooLen ≠ 0 → fs'.rxOooStart = fs.rxOooStart)
deriving Decidable

theorem flowstInit_alike {fs fs' s s' : FlowSt} {a : ConnArgs} (hleft : LeftSame fs fs') (hs : flowstInit fs a = some s)
    (hs' : flowstInit fs' a = some s') : ∃ d, AlikeRun d (reuseStart s) (reuseStart s') := by
  obtain ⟨hdup, hdrops, hlen, hstart⟩ := hleft
  simp only [flowstInit] at hs hs'
  split at hs
  · cases hs
  · split at hs
    · cases hs
    · rename_i hrx htx
      rw [if_neg hrx, if_neg htx] at hs'
      cases hs
      cases hs'
      have hdiff : ∀ {w : Nat} (x y : BitVec w), y = x + (y - x) := fun x y => by
        rw [BitVec.add_comm, BitVec.sub_add_cancel]
      refine ⟨⟨fs'.cntRxAcks - fs.cntRxAcks, fs'.cntRxAckBytes - fs.cntRxAckBytes,
        fs'.cntRxEcnBytes - fs.cntRxEcnBytes⟩, ⟨fs'.rxOooStart, ?_, hstart⟩, ?_, rfl⟩
      · simp [reuseStart, FlowSt.drift, hdup, hdrops, hlen, ← hdiff]
      · simp [reuseStart, nicifConnectionStats, hdrops, ← hdiff]

/-- A flow state that is used again: two registrations of the same connection in flow states with different
leftovers show the same in every run, and leave the same queues. -/
theorem reused_flow_fresh {fs fs' s s' : FlowSt} {a : ConnArgs} (hleft : LeftSame fs fs')
    (hs : flowstInit fs a = some s) (hs' : flowstInit fs' a = some s') (flowId : BitVec 32) (ops : List ReuseOp) :
    Option.Rel (fun r r' : ReuseRun => r'.seen = r.seen ∧ r'.fs.rx = r.fs.rx ∧ r'.fs.tx = r.fs.tx)
      (Run.exec (reuseStep flowId) (reuseStart s) ops) (Run.exec (reuseStep flowId) (reuseStart s') ops) := by
  obtain ⟨d, h⟩ := flowstInit_alike hleft hs hs'
  rcases rel_cases (Run.exec_rel (reuseStep_alike flowId) h ops) with ⟨e, e'⟩ | ⟨r, r', e, e', hr⟩ <;> rw [e, e']
  · exact .none
  · exact .some ⟨hr.seen, hr.fs.congr (·.rx) fun _ _ _ => rfl, hr.fs.congr (·.tx) fun _ _ _ => rfl⟩

/-- A connection with queues of 64 bytes and a rate of 100. -/
def reuseArgs : ConnArgs :=
  ⟨0, 0, 0, 0, 0, 0, zeroedQueue 4096 64, zeroedQueue 8192 64, 0, 1000, 0, false, 100, 0⟩

/-- What a run shows after the registration in a flow state. -/
def reuseSeen (fs : FlowSt) (ops : List ReuseOp) : Option (List FlowSeen) :=
  (flowstInit fs reuseArgs).bind fun s => (Run.exec (reuseStep 0) (reuseStart s) ops).map (·.seen)

/-- Ten bytes arrive in order, and the statistics are read. -/
def tenArrive : List ReuseOp := [.call (.packet (.ofStream countingBytes 0 0 10 1000 56) 0 fun _ => (0, 0)), .stats]

/-- The flow state of a connection that had received 5 acknowledgements of 100 bytes. -/
def usedFlow : FlowSt :=
  { zeroedFlow 64 0 0 with cntRxAcks := 5, cntRxAckBytes := 100, rxOooStart := 33, rxNextSeq := 7 }

theorem reused_flow_fresh_used :
    reuseSeen (zeroedFlow 64 0 0) tenArrive = reuseSeen usedFlow tenArrive ∧
      (reuseSeen (zeroedFlow 64 0 0) tenArrive).isSome := by
  obtain ⟨s, hs⟩ := Option.isSome_iff_exists.mp (show (flowstInit (zeroedFlow 64 0 0) reuseArgs).isSome by decide)
  obtain ⟨s', hs'⟩ := Option.isSome_iff_exists.mp (show (flowstInit usedFlow reuseArgs).isSome by decide)
  refine ⟨?_, by decide +kernel⟩
  rw [reuseSeen, reuseSeen, hs, hs', Option.bind_some, Option.bind_some]
  rcases rel_cases (reused_flow_fresh (by decide) hs hs' 0 tenArrive) with ⟨e, e'⟩ | ⟨r, r', e, e', hr⟩ <;> rw [e, e']
  exact congrArg some hr.1.symm

/-- An acknowledgement of nothing new, and the statistics are read. -/
def oneDupack : List ReuseOp := [.call (.packet (.ofStream countingBytes 0 0 0 1000 56) 0 fun _ => (0, 0)), .stats]

/-- Ten bytes are sent and have to be sent again. Then ten more are to be sent. -/
def oneDrop : List ReuseOp :=
  [.setQueues (zeroedQueue 4096 64) (((zeroedQueue 8192 64).setTxOffset 10).setFlushOffset 10),
    .call (.qman 0 0 0), .call .retransmit,
    .setQueues (zeroedQueue 4096 64) (((zeroedQueue 8192 64).setTxOffset 20).setFlushOffset 20), .call (.bump 1 10 0 0)]

/-- Bytes 10 to 14, two duplicate acknowledgements or a drop of the old connection are taken for
those of the new one. -/
theorem reused_flow_stale :
    (reuseSeen (zeroedFlow 64 0 0) tenArrive).isSome ∧
    reuseSeen { zeroedFlow 64 0 0 with rxOooStart := 10, rxOooLen := 5 } tenArrive ≠
      reuseSeen (zeroedFlow 64 0 0) tenArrive ∧
    reuseSeen { zeroedFlow 64 0 0 with rxDupackCnt := 2 } oneDupack ≠ reuseSeen (zeroedFlow 64 0 0) oneDupack ∧
    reuseSeen { zeroedFlow 64 0 0 with cntTxDrops := 1 } oneDrop ≠ reuseSeen (zeroedFlow 64 0 0) oneDrop := by
  decide +kernel

end TasNic
