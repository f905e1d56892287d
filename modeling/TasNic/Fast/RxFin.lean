import TasNic.Fast.Receive
import TasNic.Rdma.Paired

/-!
# The end of the received stream

A FIN that is accepted sets the flow's RXFIN flag, and the application is told with
`FLEXTCP_PL_ARX_FLRXDONE`. While the flag is set, payload in order is dropped before it is enqueued;
segments out of order are still written to the ring (`call_closed`).
-/

namespace TasNic

open RdmaQueue List

/-! ## What a run shows -/

def FlowEffect.arx? : FlowEffect → Option ArxUpdate
  | .arx u => some u
  | .qmanSet _ | .segment _ | .ack _ | .forward _ => none

/-- A call of the fast path that returned, with the flow before and after it. -/
structure FlowEvent where
  call : FlowCall
  before : FlowSt
  after : FlowSt
  out : List FlowEffect

namespace FlowEvent

def updates (e : FlowEvent) : List ArxUpdate := e.out.filterMap FlowEffect.arx?

/-- `FLEXTCP_PL_ARX_FLRXDONE` is raised. -/
def done (e : FlowEvent) : Bool := e.updates.any (·.rxDone)

end FlowEvent

/-- The flow when the payload of a packet in order is taken, before its FIN flag is looked
at. -/
def packetTaken (fs : FlowSt) (p : RxPacket) (ts : BitVec 32) (env : RdmaEnv) : Option SegResult :=
  match packetAck fs p with
  | none => none
  | some ⟨fs, _, reset⟩ =>
    if reset then none
    else match packetTrim fs p with
      | .outside | .outOfOrder .. => none
      | .inOrder bytes off =>
        if bytes.toNat > 0 then packetPayload (packetWindow fs p ts) bytes (p.payload off) env
        else some ⟨packetWindow fs p ts, 0, env⟩

/-- The call took the payload of a packet with the FIN flag up to the end of the segment,
with nothing out of order, and the FIN with one more sequence number. -/
def FlowEvent.FinTaken (e : FlowEvent) : Prop :=
  ∃ p ts env t, e.call = .packet p ts env ∧ p.has tcpFin ∧ packetTaken e.before p ts env = some t ∧
    t.fs.rxNextSeq = p.seqno + p.payloadBytes ∧ t.fs.rxOooLen = 0 ∧ e.after.rxNextSeq = t.fs.rxNextSeq + 1

/-- The stream is at its end, and reception is where it was. -/
structure RxClosed (fs fs' : FlowSt) : Prop where
  fin : fs'.has flowstRxfin = true
  next : fs'.rxNextSeq = fs.rxNextSeq
  tail : fs'.rx.txOffset = fs.rx.txOffset

theorem RxClosed.trans {fs₁ fs₂ fs₃ : FlowSt} (h : RxClosed fs₁ fs₂) (h' : RxClosed fs₂ fs₃) : RxClosed fs₁ fs₃ :=
  ⟨h'.fin, h'.next.trans h.next, h'.tail.trans h.tail⟩

theorem SameRx.closed {fs fs' : FlowSt} (h : SameRx fs fs') (hfin : fs.has flowstRxfin = true) : RxClosed fs fs' :=
  ⟨h.fin.trans hfin, h.next, by rw [h.rx]⟩

/-! ## Calls without a packet -/

theorem qmanMore_updates (fs : FlowSt) (id old new : BitVec 32) :
    (qmanMore fs id old new).filterMap FlowEffect.arx? = [] := by
  unfold qmanMore
  split <;> rfl

theorem fastFlowsBump_updates (fs : FlowSt) (flowId : BitVec 32) (bumpSeq : BitVec 16) (txBump : BitVec 32)
    (flags : BitVec 8) (ts : BitVec 32) :
    (fastFlowsBump fs flowId bumpSeq txBump flags ts).out.filterMap FlowEffect.arx? = [] := by
  obtain ⟨fs', old, new, ⟨-, e⟩ | ⟨-, -, t, -, e⟩⟩ := fastFlowsBump_out fs flowId bumpSeq txBump flags ts <;> rw [e]
  · exact qmanMore_updates _ _ _ _
  · rw [filterMap_append, qmanMore_updates]
    rfl

theorem fastFlowsQman_updates {fs : FlowSt} {flowId ts : BitVec 32} {ctxId newCore : BitVec 16} {r : FlowResult}
    (h : fastFlowsQman fs flowId ctxId newCore ts = some r) : r.out.filterMap FlowEffect.arx? = [] := by
  rcases fastFlowsQman_cases h with rfl | rfl | ⟨-, -, rfl⟩ <;> rfl

theorem fastFlowsRetransmit_updates (fs : FlowSt) (flowId : BitVec 32) :
    (fastFlowsRetransmit fs flowId).out.filterMap FlowEffect.arx? = [] := by
  simp only [fastFlowsRetransmit]
  split
  · rfl
  · exact qmanMore_updates _ _ _ _

theorem call_other {fs : FlowSt} {flowId : BitVec 32} {c : FlowCall} {r : FlowResult}
    (h : c.run fs flowId = some r) (hc : ¬ ∃ p ts env, c = .packet p ts env) :
    SameRx fs r.fs ∧ r.out.filterMap FlowEffect.arx? = [] := by
  cases c with
  | packet p ts env => exact absurd ⟨p, ts, env, rfl⟩ hc
  | bump bumpSeq txBump flags ts =>
    cases h
    exact ⟨fastFlowsBump_same fs flowId bumpSeq txBump flags ts, fastFlowsBump_updates fs flowId bumpSeq txBump flags ts⟩
  | qman ctxId newCore ts => exact ⟨fastFlowsQman_same h, fastFlowsQman_updates h⟩
  | retransmit =>
    cases h
    exact ⟨fastFlowsRetransmit_same fs flowId, fastFlowsRetransmit_updates fs flowId⟩

/-! ## Calls when the stream is at its end -/

section Closed

variable {fs : FlowSt} {p : RxPacket}

theorem packetFin_closed (hfin : fs.has flowstRxfin = true) (p : RxPacket) : packetFin fs p = (fs, false) := by
  unfold packetFin
  refine if_neg fun h => ?_
  simp only [FlowSt.has, h.2.1] at hfin
  exact absurd hfin (by decide)

theorem rqNflush_zero {q q' : RdmaQueue} {n : Int} {env env' : RdmaEnv}
    (h : (rqNflush q 0).eval env = some (q', n, env')) : q'.txOffset = q.txOffset := by
  have hm : (if rqNbytesToFlush q > 0 then 0 else rqNbytesToFlush q) = 0 := by
    split <;> omega
  simp only [rqNflush, hm] at h
  split at h
  · cases h
  split at h
  · cases h
    rfl
  · rw [nflushLoop_nothing] at h
    cases h
    rfl

theorem packetUnlock_updates {st : PacketState} {flowId ts rxPos oldAvail txBump : BitVec 32} {r : FlowResult}
    (h : packetUnlock st flowId p ts rxPos oldAvail txBump = some r) :
    r.fs.rxNextSeq = st.fs.rxNextSeq ∧ r.fs.rxFlags = st.fs.rxFlags ∧
    (st.rxBump = 0 → r.fs.rx.txOffset = st.fs.rx.txOffset) ∧
    ∀ u ∈ r.out.filterMap FlowEffect.arx?, u.rxBump = st.rxBump ∧ u.rxDone = st.finBump := by
  have hack : ∀ (b : Bool) a, (if b then [FlowEffect.ack a] else []).filterMap FlowEffect.arx? = [] := by
    intro b a
    cases b <;> rfl
  obtain ⟨rx, arx, rfl, hf⟩ := packetUnlock_eq h
  simp only [filterMap_append, qmanMore_updates, hack, append_nil]
  rcases hf with ⟨⟨env', he⟩, rfl⟩ | ⟨-, rfl, rfl⟩
  · refine ⟨trivial, trivial, fun h0 => ?_, fun u hu => ?_⟩
    · rw [show st.rxBump.toNat = 0 by rw [h0]; rfl] at he
      exact rqNflush_zero he
    · obtain rfl := mem_singleton.mp hu
      exact ⟨rfl, rfl⟩
  · exact ⟨trivial, trivial, fun _ => rfl, fun u hu => absurd hu not_mem_nil⟩

theorem packetReceived_closed (hfin : fs.has flowstRxfin = true) {ts : BitVec 32} {env : RdmaEnv} {st : PacketState}
    (h : packetReceived fs p ts env = some st) : RxClosed fs st.fs ∧ st.rxBump = 0 ∧ st.finBump = false := by
  obtain ⟨-, a, ha, harr⟩ := packetReceived_arrives h
  have hc := (packetAck_same ha).closed hfin
  cases harr with
  | reset | outside => exact ⟨hc, rfl, rfl⟩
  | dropped => exact ⟨{ hc with }, rfl, rfl⟩
  | outOfOrder =>
    obtain ⟨_, _, _, e⟩ := packetOoo_eq a.fs _ _ _
    rw [e]
    exact ⟨{ hc with }, rfl, rfl⟩
  | taken _ _ hopen hseg =>
    have hw : (packetWindow a.fs p ts).has flowstRxfin = true := hc.fin
    rw [if_neg fun hpos => absurd (hopen hpos) (by rw [hc.fin]; decide)] at hseg
    cases hseg
    rw [packetFin_closed hw]
    exact ⟨⟨hw, hc.next, hc.tail⟩, rfl, rfl⟩

theorem call_closed (hfin : fs.has flowstRxfin = true) {flowId : BitVec 32} {c : FlowCall} {r : FlowResult}
    (h : c.run fs flowId = some r) :
    RxClosed fs r.fs ∧ ∀ u ∈ r.out.filterMap FlowEffect.arx?, u.rxBump = 0 ∧ u.rxDone = false := by
  by_cases hc : ∃ p ts env, c = .packet p ts env
  · obtain ⟨p, ts, env, rfl⟩ := hc
    rcases fastFlowsPacket_cases h with ⟨-, hfs, -, hout⟩ | ⟨st, txBump, hrec, hun⟩
    · refine ⟨?_, by simp [hout]⟩
      rcases hfs with e | e <;> rw [e]
      · exact ⟨hfin, rfl, rfl⟩
      · exact ⟨(has_raise_slowpath fs).trans hfin, rfl, rfl⟩
    · obtain ⟨hst, hbump, hno⟩ := packetReceived_closed hfin hrec
      obtain ⟨hnext, hflags, htail, hup⟩ := packetUnlock_updates hun
      refine ⟨⟨?_, hnext.trans hst.next, (htail hbump).trans hst.tail⟩, fun u hu => ?_⟩
      · rw [FlowSt.has, hflags]
        exact hst.fin
      · obtain ⟨h₁, h₂⟩ := hup u hu
        exact ⟨h₁.trans hbump, h₂.trans hno⟩
  · obtain ⟨hs, hu⟩ := call_other h hc
    exact ⟨hs.closed hfin, fun u hu' => absurd (hu ▸ hu') not_mem_nil⟩

end Closed

/-! ## The FIN -/

section Fin

variable {fs : FlowSt} {p : RxPacket}

theorem packetFin_true (h : (packetFin fs p).2 = true) :
    p.has tcpFin ∧ fs.rxNextSeq = p.seqno + p.payloadBytes ∧ fs.rxOooLen = 0 ∧
      (packetFin fs p).1.rxNextSeq = fs.rxNextSeq + 1 ∧ (packetFin fs p).1.has flowstRxfin = true := by
  unfold packetFin at h ⊢
  split at h
  · rename_i hc
    rw [if_pos hc]
    exact ⟨hc.1, hc.2.2.1, hc.2.2.2, rfl, has_raise_self fs flowstRxfin⟩
  · cases h

theorem packetReceived_fin {ts : BitVec 32} {env : RdmaEnv} {st : PacketState}
    (h : packetReceived fs p ts env = some st) (hfin : st.finBump = true) :
    ∃ t, packetTaken fs p ts env = some t ∧ (packetFin t.fs p).2 = true ∧ st.fs = (packetFin t.fs p).1 := by
  obtain ⟨-, a, ha, harr⟩ := packetReceived_arrives h
  cases harr with
  | reset | outside | outOfOrder | dropped => cases hfin
  | @taken _ _ t hr ht _ hseg =>
    refine ⟨t, ?_, hfin, rfl⟩
    simp only [packetTaken, ha, hr, ht, Bool.false_eq_true, if_false]
    exact hseg

/-- A call that tells the application of the end takes a FIN, and the flow is at the end
of its stream after it but not before. -/
theorem call_done {flowId : BitVec 32} {c : FlowCall} {r : FlowResult} (h : c.run fs flowId = some r)
    (hdone : (⟨c, fs, r.fs, r.out⟩ : FlowEvent).done = true) :
    (⟨c, fs, r.fs, r.out⟩ : FlowEvent).FinTaken ∧ r.fs.has flowstRxfin = true := by
  obtain ⟨u, hu, hud⟩ := any_eq_true.mp hdone
  by_cases hc : ∃ p ts env, c = .packet p ts env
  · obtain ⟨p, ts, env, rfl⟩ := hc
    rcases fastFlowsPacket_cases h with ⟨-, -, -, hout⟩ | ⟨st, txBump, hrec, hun⟩
    · simp [FlowEvent.updates, hout] at hu
    · obtain ⟨hnext, hflags, -, hup⟩ := packetUnlock_updates hun
      obtain ⟨t, ht, hfin, hst⟩ := packetReceived_fin hrec ((hup u hu).2.symm.trans hud)
      obtain ⟨h₁, h₂, h₃, h₄, h₅⟩ := packetFin_true hfin
      rw [hst] at hnext hflags
      refine ⟨⟨p, ts, env, t, rfl, h₁, ht, h₂, h₃, hnext.trans h₄⟩, ?_⟩
      rw [FlowSt.has, hflags]
      exact h₅
  · rw [FlowEvent.updates, (call_other h hc).2] at hu
    exact absurd hu not_mem_nil

end Fin

/-! ## Runs -/

/-- A flow with the calls of the fast path so far. -/
structure EosRun where
  fs : FlowSt
  events : List FlowEvent

/-- A call of the fast path, a dequeue by the application, or any change of the transmit
queue by its other side. -/
inductive EosOp where
  | call (c : FlowCall)
  | dequeue (sz : Nat)
  | setTx (q : RdmaQueue)

def eosStep (flowId : BitVec 32) (s : EosRun) : EosOp → Option EosRun
  | .call c => (c.run s.fs flowId).map fun r => ⟨r.fs, s.events ++ [⟨c, s.fs, r.fs, r.out⟩]⟩
  | .dequeue sz => (rqTryDequeue s.fs.rx true sz).map fun d => { s with fs := { s.fs with rx := d.queue } }
  | .setTx q => some { s with fs := { s.fs with tx := q } }

/-- After an event that tells the application of the end, another one takes nothing. -/
structure FlowEvent.Last (e e' : FlowEvent) : Prop where
  closed : RxClosed e.after e'.after
  quiet : ∀ u ∈ e'.updates, u.rxBump = 0 ∧ u.rxDone = false

/-- The application is told of the end at most once, and only for a FIN that is taken; then
reception stays where it is. -/
structure EosRun.Ended (s : EosRun) : Prop where
  once : (s.events.filter (·.done)).length ≤ 1
  fin : ∀ e ∈ s.events, e.done = true → e.FinTaken
  later : s.events.Pairwise fun e e' => e.done = true → e.Last e'
  now : ∀ e ∈ s.events, e.done = true → RxClosed e.after s.fs

theorem rqTryDequeue_txOffset {q : RdmaQueue} {buffer : Bool} {sz : Nat} {d : Dequeued}
    (h : rqTryDequeue q buffer sz = some d) : d.queue.txOffset = q.txOffset := by
  simp only [rqTryDequeue, rqTryPossibleDequeue, if_true] at h
  split at h
  · cases h
  split at h
  · cases h
    rfl
  generalize (if q.rxOffset + sz > q.bufferSize then q.bufferSize - q.rxOffset else sz) = b1 at h
  split at h
  · cases h
    rfl
  split at h
  · cases h
    rfl
  · cases h

theorem FlowEvent.Last.not_done {e e' : FlowEvent} (h : e.Last e') : e'.done = false := by
  rw [FlowEvent.done, any_eq_false]
  intro u hu
  rw [(h.quiet u hu).2]
  decide

theorem length_filter_done {l : List FlowEvent} (h : l.Pairwise fun e e' => e.done = true → e.Last e') :
    (l.filter (·.done)).length ≤ 1 := by
  induction h with
  | nil => exact Nat.zero_le _
  | @cons e l h _ ih =>
    by_cases hd : e.done = true
    · have hnil : l.filter (·.done) = [] :=
        filter_eq_nil_iff.mpr fun e' he' => by simp [(h e' he' hd).not_done]
      rw [filter_cons_of_pos hd, hnil]
      exact Nat.le_refl _
    · rw [filter_cons_of_neg hd]
      exact ih

namespace EosRun.Ended

variable {s : EosRun}

theorem move (h : s.Ended) {fs' : FlowSt} (hfin : fs'.rxFlags = s.fs.rxFlags) (hnext : fs'.rxNextSeq = s.fs.rxNextSeq)
    (htail : fs'.rx.txOffset = s.fs.rx.txOffset) : EosRun.Ended { s with fs := fs' } := by
  refine ⟨h.once, h.fin, h.later, fun e he hd => (h.now e he hd).trans ⟨?_, hnext, htail⟩⟩
  rw [FlowSt.has, hfin]
  exact (h.now e he hd).fin

theorem call (h : s.Ended) {flowId : BitVec 32} {c : FlowCall} {r : FlowResult} (hr : c.run s.fs flowId = some r) :
    EosRun.Ended ⟨r.fs, s.events ++ [⟨c, s.fs, r.fs, r.out⟩]⟩ := by
  have hlast : ∀ e ∈ s.events, e.done = true → e.Last ⟨c, s.fs, r.fs, r.out⟩ := by
    intro e he hd
    obtain ⟨hc, hq⟩ := call_closed (h.now e he hd).fin hr
    exact ⟨(h.now e he hd).trans hc, hq⟩
  have hlater : List.Pairwise (fun e e' : FlowEvent => e.done = true → e.Last e')
      (s.events ++ [⟨c, s.fs, r.fs, r.out⟩]) := by
    refine pairwise_append.mpr ⟨h.later, pairwise_singleton _ _, fun e he e' he' => ?_⟩
    rw [mem_singleton.mp he']
    exact hlast e he
  refine ⟨length_filter_done hlater, fun e he hd => ?_, hlater, fun e he hd => ?_⟩
  all_goals rcases mem_append.mp he with he | he
  · exact h.fin e he hd
  · obtain rfl := mem_singleton.mp he
    exact (call_done hr hd).1
  · exact (hlast e he hd).closed
  · obtain rfl := mem_singleton.mp he
    exact ⟨(call_done hr hd).2, rfl, rfl⟩

end EosRun.Ended

theorem eosStep_ended (flowId : BitVec 32) (s : EosRun) (op : EosOp) (s' : EosRun) (h : s.Ended)
    (hs : eosStep flowId s op = some s') : s'.Ended := by
  cases op with
  | call c =>
    obtain ⟨r, hr, rfl⟩ := Option.map_eq_some_iff.mp hs
    exact h.call hr
  | dequeue sz =>
    obtain ⟨d, hd, rfl⟩ := Option.map_eq_some_iff.mp hs
    exact h.move rfl rfl (rqTryDequeue_txOffset hd)
  | setTx q =>
    cases hs
    exact h.move rfl rfl rfl

/-- In every run the application is told of the end of the stream at most once, for a FIN
that is taken, and nothing is received after it. -/
theorem end_of_stream (fs : FlowSt) (flowId : BitVec 32) (ops : List EosOp) {s : EosRun}
    (hs : Run.exec (eosStep flowId) ⟨fs, []⟩ ops = some s) : s.Ended :=
  Run.exec_inv_of_step (eosStep_ended flowId) ⟨Nat.zero_le _, by simp, List.Pairwise.nil, by simp⟩ hs

def finPacket (S : Nat → Byte) (cut : Nat) (len : BitVec 16) : RxPacket :=
  { RxPacket.ofStream S 0xFFFFFFFE cut len 0 100 with flags := 0x11 }

/-- Bytes 4 to 7 and the FIN come first, then bytes 0 to 3, then all of it again, and more
data behind the FIN. -/
def finReordered : List EosOp :=
  [.call (.packet (finPacket countingBytes 4 4) 0 fun _ => (0, 0)),
    .call (.packet (.ofStream countingBytes 0xFFFFFFFE 0 4 0 100) 0 fun _ => (0, 0)), .dequeue 8,
    .call (.packet (finPacket countingBytes 0 8) 0 fun _ => (0, 0)),
    .call (.packet (finPacket countingBytes 4 4) 0 fun _ => (0, 0)),
    .call (.packet (.ofStream countingBytes 0xFFFFFFFE 9 4 0 100) 0 fun _ => (0, 0)),
    .call (.packet (.ofStream countingBytes 0xFFFFFFFE 12 4 0 100) 0 fun _ => (0, 0))]

theorem end_of_stream_reordered :
    ∃ s, Run.exec (eosStep 0) ⟨zeroedFlow 64 0xFFFFFFFE 0, []⟩ finReordered = some s ∧ s.Ended ∧
      s.events.map (·.done) = [false, false, true, false, false, false] ∧ s.fs.rxNextSeq = 7 := by
  obtain ⟨s, hs⟩ := Option.isSome_iff_exists.mp
    (show (Run.exec (eosStep 0) ⟨zeroedFlow 64 0xFFFFFFFE 0, []⟩ finReordered).isSome by decide +kernel)
  exact ⟨s, hs, end_of_stream _ 0 finReordered hs,
    Run.forall_exec (P := fun s => s.events.map (·.done) = [false, false, true, false, false, false] ∧
      s.fs.rxNextSeq = 7) (by decide +kernel) hs⟩

end TasNic
