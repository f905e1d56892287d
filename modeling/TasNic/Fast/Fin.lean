import TasNic.Fast.Transmit

/-!
# The end of the stream

The application ends its stream with a dummy byte in the transmit queue and a bump that carries
`FLEXTCP_PL_ATX_FLTXDONE`, which sets the flow's TXFIN flag. The FIN takes the sequence number of
the dummy byte, which is not sent. `fast_flows_qman` decides on the FIN without regard to the
segment: once the flag is set, every segment is one byte shorter and has the FIN flag, until the
queue is empty.
-/

namespace TasNic

open RdmaQueue Serial List Option

/-! ## Runs -/

/-- A run of a flow, and the place of the dummy byte in the stream once it is there. -/
structure FinRun where
  run : SendRun
  eos : Option Nat

inductive FinOp where
  | send (op : SendOp)
  | pushtxeos

def finStep (flowId : BitVec 32) (s : FinRun) : FinOp → Option FinRun
  | .send op => (sendStep flowId s.run op).map fun run => { s with run := run }
  | .pushtxeos => (sendStep flowId s.run (.publish [1])).map fun run => ⟨run, some s.run.stream.length⟩

def finInit (fs : FlowSt) : FinRun := ⟨sendInit fs, none⟩

/-- What the application keeps to: the dummy byte is the last one, and only a bump
behind it ends the stream. -/
def finDomain (s : FinRun) : FinOp → Prop
  | .send (.publish _) => s.eos = none
  | .send (.call (.bump _ _ flags _)) => flags &&& atxFltxdone = atxFltxdone → s.eos.isSome = true
  | .pushtxeos => s.eos = none
  | _ => True

instance (s : FinRun) : ∀ op, Decidable (finDomain s op)
  | .send (.publish _) => inferInstanceAs (Decidable (s.eos = none))
  | .send (.call (.bump ..)) => inferInstanceAs (Decidable (_ → _))
  | .pushtxeos => inferInstanceAs (Decidable (s.eos = none))
  | .send (.call (.packet ..)) | .send (.call (.qman ..)) | .send (.call .retransmit) | .send (.setRx _) =>
    isTrue trivial

namespace Sent

variable (localSeq : BitVec 32) (e : Sent)

/-- The place in the stream of a segment's first byte, from its sequence number. -/
def first : Nat := e.acked + (e.seg.seq - (localSeq + BitVec.ofNat 32 e.acked)).toNat

/-- The place behind the sequence numbers that the flow takes a segment to cover. -/
def stop : Nat := e.acked + e.inFlight.toNat

def Carries (i : Nat) : Prop := e.first localSeq ≤ i ∧ i < e.first localSeq + e.seg.payload.length
deriving Decidable

/-- The payload is what the segment covers, less one byte if it has the FIN flag. It has
the flag if what it covers ends with the dummy byte, and otherwise not. -/
structure FinPlaced (stream : List Byte) (eos : Option Nat) : Prop where
  payload : e.seg.payload <+: stream.drop (e.first localSeq)
  length : e.first localSeq + e.seg.payload.length + e.seg.fin.toNat = e.stop
  fin : e.seg.fin = true ↔ eos.map (· + 1) = some e.stop

instance (stream : List Byte) (eos : Option Nat) : Decidable (e.FinPlaced localSeq stream eos) :=
  decidable_of_iff (e.seg.payload <+: stream.drop (e.first localSeq) ∧
    e.first localSeq + e.seg.payload.length + e.seg.fin.toNat = e.stop ∧
    (e.seg.fin = true ↔ eos.map (· + 1) = some e.stop))
    ⟨fun h => ⟨h.1, h.2.1, h.2.2⟩, fun h => ⟨h.payload, h.length, h.fin⟩⟩

end Sent

/-- When a segment with the FIN flag was sent, every byte before the dummy byte was carried
by it or by a segment before it. -/
def FinRun.DataFirst (localSeq : BitVec 32) (s : FinRun) : Prop :=
  ∀ l, l <+: s.run.sent → l.getLast?.any (·.seg.fin) = true →
    ∀ d ∈ s.eos, ∀ i < d, ∃ e ∈ l, e.Carries localSeq i

/-! ## What a run has to meet -/

/-- What is left of the stream fits the peer's window and one segment. -/
def LastFits (fs : FlowSt) : Prop :=
  rqNbytesEnqueued fs.tx ≤ fs.rxRemoteAvail.toNat ∧ rqNbytesEnqueued fs.tx ≤ fs.txSent.toNat + tcpMss.toNat
deriving Decidable

/-- One segment, or the peer's window, ends before the last byte in the queue. -/
def StopsShort (fs : FlowSt) : Prop :=
  fs.txSent.toNat + tcpMss.toNat < rqNbytesEnqueued fs.tx ∨
    fs.txSent ≤ fs.rxRemoteAvail ∧ fs.rxRemoteAvail.toNat < rqNbytesEnqueued fs.tx
deriving Decidable

/-- The last bytes fit when the bump comes that ends the stream, and the windows announced
after it cover them. A turn of the queue manager finds enough bytes that are not in flight, and
before that bump stops short of the dummy byte. Packets acknowledge bytes in flight only, and
transmission is not reset while there are any. -/
def finOk (s : FinRun) : FinOp → Prop
  | .send (.call (.bump _ _ flags _)) =>
    flags &&& atxFltxdone = atxFltxdone → s.run.fs.has flowstTxfin = false → LastFits s.run.fs
  | .send (.call (.qman ctxId newCore _)) => newCore = ctxId →
      QmanFits s.run.fs ∧ (s.run.fs.has flowstTxfin = false → s.eos = none ∨ StopsShort s.run.fs)
  | .send (.call (.packet p _ _)) => packetSlow s.run.fs p = false →
      (ackBump s.run.fs p).all (· ≤ s.run.fs.txSent) ∧ (s.run.fs.txSent ≠ 0 → ackResets s.run.fs p = false) ∧
        (s.run.fs.has flowstTxfin = true → packetRecords s.run.fs p = true →
          rqNbytesEnqueued s.run.fs.tx ≤ p.wnd.toNat + ((ackBump s.run.fs p).getD 0).toNat)
  | .send (.call .retransmit) => s.run.fs.txSent = 0
  | _ => True

instance (s : FinRun) : ∀ op, Decidable (finOk s op)
  | .send (.call (.bump ..)) => inferInstanceAs (Decidable (_ → _ → LastFits _))
  | .send (.call (.qman ..)) => inferInstanceAs (Decidable (_ → _ ∧ (_ → _)))
  | .send (.call (.packet ..)) => inferInstanceAs (Decidable (_ → _ ∧ (_ → _) ∧ (_ → _ → _)))
  | .send (.call .retransmit) => inferInstanceAs (Decidable (_ = _))
  | .send (.publish _) | .send (.setRx _) | .pushtxeos => isTrue trivial

/-! ## The flag -/

section Flag

variable {fs fs' : FlowSt} {p : RxPacket}

theorem has_txfin_congr (h : fs'.rxFlags = fs.rxFlags) : fs'.has flowstTxfin = fs.has flowstTxfin := by
  simp [FlowSt.has, h]

theorem packetFin_txfin (fs : FlowSt) (p : RxPacket) : (packetFin fs p).1.has flowstTxfin = fs.has flowstTxfin := by
  unfold packetFin
  split
  · exact has_raise_of_disjoint fs (g := flowstRxfin) (by decide)
  · rfl

theorem fastFlowsPacket_txfin {flowId ts : BitVec 32} {env : RdmaEnv} {r : FlowResult}
    (h : fastFlowsPacket fs flowId p ts env = some r) : r.fs.has flowstTxfin = fs.has flowstTxfin := by
  rcases fastFlowsPacket_cases h with ⟨-, hfs | hfs, -⟩ | ⟨st, _, hst, hun⟩
  · rw [hfs]
  · rw [hfs]
    exact has_raise_of_disjoint fs (by decide)
  obtain ⟨-, a, ha, harr⟩ := packetReceived_arrives hst
  obtain ⟨rx, arx, rfl, -⟩ := packetUnlock_eq hun
  rw [← has_txfin_congr (packetAck_rx ha).2.2.1]
  cases harr with
  | reset | outside | dropped => rfl
  | outOfOrder =>
    obtain ⟨_, _, _, e⟩ := packetOoo_eq a.fs _ _ _
    rw [e]
    rfl
  | @taken _ _ t _ _ _ hseg =>
    refine (packetFin_txfin t.fs p).trans (has_txfin_congr ?_)
    split at hseg
    · obtain ⟨_, _, _, _, e⟩ := packetPayload_eq hseg
      rw [e]
      rfl
    · cases hseg
      rfl

/-- Only a bump that ends the stream sets the TXFIN flag. -/
theorem fastFlowsBump_txfin {flowId : BitVec 32} {bumpSeq : BitVec 16} {txBump : BitVec 32} {flags : BitVec 8}
    {ts : BitVec 32} (h : (fastFlowsBump fs flowId bumpSeq txBump flags ts).fs.has flowstTxfin = true) :
    fs.has flowstTxfin = true ∨ flags &&& atxFltxdone = atxFltxdone := by
  by_cases hdone : flags &&& atxFltxdone = atxFltxdone
  · exact .inr hdone
  · have hd : (flags &&& atxFltxdone == atxFltxdone) = false := beq_false_of_ne hdone
    refine .inl ?_
    simp only [fastFlowsBump, hd, Bool.and_false, Bool.false_and, Bool.false_eq_true, if_false] at h
    split at h
    · exact h
    · split at h <;> exact h

end Flag

/-! ## Steps -/

/-- A packet that acknowledges bytes in flight only takes these out of the queue, and may
announce another window. -/
theorem fastFlowsPacket_acked {fs : FlowSt} {P D : Nat} (h : SendSt fs P D) {p : RxPacket} {flowId ts : BitVec 32}
    {env : RdmaEnv} {r : FlowResult} (hr : fastFlowsPacket fs flowId p ts env = some r)
    (hack : packetSlow fs p = false → (ackBump fs p).all (· ≤ fs.txSent) ∧ (fs.txSent ≠ 0 → ackResets fs p = false)) :
    ∃ b, rqNbytesEnqueued r.fs.tx = rqNbytesEnqueued fs.tx - b ∧ r.fs.txSent.toNat + b = fs.txSent.toNat ∧
      (r.fs.rxRemoteAvail = fs.rxRemoteAvail ∨ packetSlow fs p = false ∧ packetRecords fs p = true ∧
        r.fs.rxRemoteAvail = p.wnd.setWidth 32 ∧ b = ((ackBump fs p).getD 0).toNat) := by
  rcases fastFlowsPacket_tx hr with ⟨-, hs⟩ | ⟨hslow, a, ha, htx, hsent, -, havail⟩
  · exact ⟨0, by rw [hs.tx, Nat.sub_zero], by rw [hs.sent, Nat.add_zero], .inl hs.avail⟩
  obtain ⟨hle, hreset⟩ := hack hslow
  have hwnd : ∀ {b : Nat}, a.fs.rxRemoteAvail = fs.rxRemoteAvail → b = ((ackBump fs p).getD 0).toNat →
      (r.fs.rxRemoteAvail = fs.rxRemoteAvail ∨ packetSlow fs p = false ∧ packetRecords fs p = true ∧
        r.fs.rxRemoteAvail = p.wnd.setWidth 32 ∧ b = ((ackBump fs p).getD 0).toNat) := by
    intro b e hb
    split at havail
    · rename_i hrec
      exact .inr ⟨hslow, hrec, havail, hb⟩
    · exact .inl (havail.trans e)
  rw [htx, hsent]
  rcases packetAck_tx ha with ⟨hb, hs, -⟩ | ⟨b, d, hb, hd, hrv, htx', -, hres, hsent', havail'⟩
  · exact ⟨0, by rw [hs.tx, Nat.sub_zero], by rw [hs.sent, Nat.add_zero], hwnd hs.avail (by rw [hb]; rfl)⟩
  rw [hb, all_some, decide_eq_true_eq] at hle
  simp only [hle, if_true] at hd hsent' havail'
  obtain ⟨-, hq, -, -⟩ := h.queue.dequeue hd hrv
  have h₁ := BitVec.le_def.mp hle
  have h₄ := toNat_sub_of_le h₁
  refine ⟨b.toNat, by rw [htx', hq.enqueued, h.queue.enqueued]; omega, ?_, hwnd ?_ (by rw [hb]; rfl)⟩
  · rw [hsent']
    split
    · -- with nothing in flight, a reset changes nothing
      rename_i hr'
      have h0 : fs.txSent = 0 := by_contra fun hne => by simp [hres, hreset hne] at hr'
      rw [h0] at h₁ ⊢
      simpa using h₁
    · omega
  · rw [havail']
    split
    · rename_i hr'
      have h0 : fs.txSent = 0 := by_contra fun hne => by simp [hres, hreset hne] at hr'
      rw [h0] at h₁ ⊢
      have hb0 : b = 0 := BitVec.eq_of_toNat_eq (by simpa using h₁)
      rw [hb0]
      simp
    · rfl

theorem LastFits.packet {fs : FlowSt} {P D : Nat} (hst : SendSt fs P D) (h : LastFits fs) {p : RxPacket}
    {flowId ts : BitVec 32} {env : RdmaEnv} {r : FlowResult} (hr : fastFlowsPacket fs flowId p ts env = some r)
    (hack : packetSlow fs p = false → (ackBump fs p).all (· ≤ fs.txSent) ∧ (fs.txSent ≠ 0 → ackResets fs p = false))
    (hwnd : packetSlow fs p = false → packetRecords fs p = true →
      rqNbytesEnqueued fs.tx ≤ p.wnd.toNat + ((ackBump fs p).getD 0).toNat) : LastFits r.fs := by
  obtain ⟨h₁, h₂⟩ := h
  obtain ⟨b, hb, hsent, hav⟩ := fastFlowsPacket_acked hst hr hack
  refine ⟨?_, by omega⟩
  rcases hav with e | ⟨hslow, hrec, e, rfl⟩
  · rw [e]
    omega
  · have := hwnd hslow hrec
    have hw := p.wnd.isLt
    rw [e, hb, BitVec.toNat_setWidth, Nat.mod_eq_of_lt (by omega)]
    omega

theorem LastFits.congr {fs fs' : FlowSt} (h : LastFits fs) (hs : SameTx fs fs') : LastFits fs' := by
  rw [LastFits, hs.tx, hs.sent, hs.avail]
  exact h

/-- A turn that finds what is left fit sends all of it. -/
theorem LastFits.ends {fs : FlowSt} {P D : Nat} (hst : SendSt fs P D) (h : LastFits fs) (hq : QmanFits fs) :
    fs.txSent.toNat + (qmanLen fs).toNat = rqNbytesEnqueued fs.tx := by
  obtain ⟨h₁, h₂⟩ := h
  have hle := hq.len_le
  have h₃ := hst.sent; have h₄ := hst.queue.enqueued; have h₅ := hst.queue.lap; have h₆ := hst.queue.size
  have hsent : fs.txSent.toNat ≤ fs.rxRemoteAvail.toNat := by omega
  have hav := toNat_tcpTxavail hsent (by omega)
  have hsub := toNat_sub_of_le hsent
  have hlen : (qmanLen fs).toNat = min tcpMss.toNat (tcpTxavail fs none).toNat := by
    simp only [qmanLen]
    split
    · rename_i hlt
      have := BitVec.lt_def.mp hlt
      omega
    · rename_i hlt
      have := BitVec.lt_def.not.mp hlt
      omega
  rcases hq with h0 | hfull | hwin
  · have : fs.txSent.toNat = 0 := by rw [h0]; rfl
    omega
  · omega
  · omega

/-- A turn that stops short leaves the last byte. -/
theorem StopsShort.len_lt {fs : FlowSt} (h : StopsShort fs) :
    fs.txSent.toNat + (qmanLen fs).toNat < rqNbytesEnqueued fs.tx := by
  obtain ⟨h₁, h₂, -⟩ := qmanLen_le fs
  rcases h with h | ⟨hle, h⟩
  · omega
  · rw [toNat_sub_of_le (BitVec.le_def.mp hle)] at h₂
    have := BitVec.le_def.mp hle
    omega

theorem Sent.FinPlaced.mono {localSeq : BitVec 32} {e : Sent} {stream stream' : List Byte} {eos : Option Nat}
    (h : e.FinPlaced localSeq stream eos) (hle : stream <+: stream') : e.FinPlaced localSeq stream' eos := by
  obtain ⟨t, rfl⟩ := hle
  refine ⟨h.payload.trans ?_, h.length, h.fin⟩
  rw [drop_append]
  exact prefix_append _ _

/-- Once the TXFIN flag is set the dummy byte is there and what is left fits one segment; it is
the last one; segments are placed right, and what was sent is carried by them. -/
structure FinInv (localSeq : BitVec 32) (s : FinRun) : Prop where
  streams : s.run.Streams localSeq
  txfin : s.run.fs.has flowstTxfin = true → s.eos.isSome = true ∧ LastFits s.run.fs
  eos : ∀ d ∈ s.eos, s.run.stream.length = d + 1
  placed : ∀ e ∈ s.run.sent, e.FinPlaced localSeq s.run.stream s.eos
  carried : ∀ i < s.run.acked + s.run.fs.txSent.toNat, (∀ d ∈ s.eos, i < d) → ∃ e ∈ s.run.sent, e.Carries localSeq i
  dataFirst : s.DataFirst localSeq

section Steps

variable {localSeq : BitVec 32} {s : FinRun}

/-- A step that sends nothing. -/
theorem FinInv.keep (h : FinInv localSeq s) {run : SendRun} (hst : run.Streams localSeq) (hsent : run.sent = s.run.sent)
    (hstream : s.run.stream <+: run.stream) (heos : ∀ d ∈ s.eos, run.stream.length = d + 1)
    (hsum : run.acked + run.fs.txSent.toNat ≤ s.run.acked + s.run.fs.txSent.toNat)
    (hfin : run.fs.has flowstTxfin = true → s.eos.isSome = true ∧ LastFits run.fs) : FinInv localSeq { s with run := run } := by
  refine ⟨hst, hfin, heos, ?_, ?_, ?_⟩
  · rw [hsent]
    exact fun e he => (h.placed e he).mono hstream
  · rw [hsent]
    exact fun i hi hd => h.carried i (Nat.lt_of_lt_of_le hi hsum) hd
  · simp only [FinRun.DataFirst, hsent]
    exact h.dataFirst

theorem FinInv.open_tx (h : FinInv localSeq s) (heos : s.eos = none) : s.run.fs.has flowstTxfin = false :=
  Bool.eq_false_iff.mpr fun hf => absurd (h.txfin hf).1 (by simp [heos])

theorem FinInv.pushtxeos (h : FinInv localSeq s) (heos : s.eos = none) {run : SendRun} (hst : run.Streams localSeq)
    (hsent : run.sent = s.run.sent) (hstream : run.stream = s.run.stream ++ [1]) (hacked : run.acked = s.run.acked)
    (htx : run.fs.txSent = s.run.fs.txSent) (hflags : run.fs.rxFlags = s.run.fs.rxFlags) :
    FinInv localSeq ⟨run, some s.run.stream.length⟩ := by
  -- no segment has the FIN flag yet
  have hno : ∀ e ∈ s.run.sent, e.seg.fin = false := by
    intro e he
    have := (h.placed e he).fin
    rw [heos] at this
    simpa using this
  refine ⟨hst, fun hf => ?_, ?_, fun e he => ?_, fun i hi hd => ?_, fun l hl hlast => ?_⟩
  · rw [has_txfin_congr hflags, h.open_tx heos] at hf
    cases hf
  · simp [hstream]
  · rw [hsent] at he
    have hp := h.placed e he
    refine ⟨(hp.mono (hstream ▸ prefix_append _ _)).payload, hp.length, ?_⟩
    have hle : e.stop ≤ s.run.stream.length := h.streams.covered.sent e he
    rw [hno e he]
    simp only [Bool.false_eq_true, false_iff, map_some, some.injEq]
    omega
  · rw [hsent]
    refine h.carried i ?_ (by simp [heos])
    rw [← hacked, ← htx]
    exact hi
  · -- a FIN in the list would be one of the segments before
    rw [hsent] at hl
    obtain ⟨e, he, hf⟩ := (Option.any_eq_true ..).mp hlast
    have := hno e (hl.subset (mem_of_getLast? he))
    simp only [this] at hf
    cases hf

theorem FinInv.qmanSent_spec (h : FinInv localSeq s) (hfits : QmanFits s.run.fs)
    (hshort : s.run.fs.has flowstTxfin = false → s.eos = none ∨ StopsShort s.run.fs)
    (hne : tcpTxavail s.run.fs none ≠ 0) (ts : BitVec 32) :
    let e : Sent := ⟨s.run.acked, (qmanSent s.run.fs).txSent, s.run.lastWnd, qmanSegment s.run.fs ts⟩
    e.first localSeq = s.run.acked + s.run.fs.txSent.toNat ∧
      e.stop = s.run.acked + s.run.fs.txSent.toNat + (qmanLen s.run.fs).toNat ∧
      e.FinPlaced localSeq s.run.stream s.eos := by
  have h₁ := hfits.len_le; have h₂ := h.streams.covered.st.queue.enqueued
  have h₄ := h.streams.covered.st.queue.lap
  have h₅ := h.streams.covered.st.queue.size
  have hpos : (qmanLen s.run.fs).toNat ≠ 0 := fun h0 => qmanLen_ne_zero hne (BitVec.eq_of_toNat_eq h0)
  -- something is left in the queue, so that the flag decides on the FIN
  have hfin : qmanFin s.run.fs = s.run.fs.has flowstTxfin := by
    rw [qmanFin, decide_eq_true (by omega), Bool.and_true]
  have hseg : (qmanSegment s.run.fs ts).fin = s.run.fs.has flowstTxfin := hfin
  have hfirst : s.run.acked + (s.run.fs.txNextSeq - (localSeq + BitVec.ofNat 32 s.run.acked)).toNat =
      s.run.acked + s.run.fs.txSent.toNat := by
    rw [h.streams.nextSeq, ← add_ofNat_add, ofNat_toNat, BitVec.add_comm _ s.run.fs.txSent, BitVec.add_sub_cancel]
  have hstop : s.run.acked + (s.run.fs.txSent + qmanLen s.run.fs).toNat =
      s.run.acked + s.run.fs.txSent.toNat + (qmanLen s.run.fs).toNat := by
    rw [BitVec.toNat_add_of_lt (by omega), Nat.add_assoc]
  have hpay := h.streams.qmanSegment_payload hfits hne ts
  refine ⟨hfirst, hstop, ⟨?_, ?_, ?_⟩⟩
  · rw [Sent.first]
    show (qmanSegment s.run.fs ts).payload <+: drop (_ + (s.run.fs.txNextSeq - _).toNat) _
    rw [hfirst, hpay]
    exact take_prefix _ _
  · show _ + (s.run.fs.txNextSeq - _).toNat + (qmanSegment s.run.fs ts).payload.length +
      (qmanSegment s.run.fs ts).fin.toNat = s.run.acked + (s.run.fs.txSent + qmanLen s.run.fs).toNat
    rw [hfirst, hstop, hpay, hseg, hfin, length_take, length_drop]
    have := Bool.toNat_le (s.run.fs.has flowstTxfin)
    omega
  · show (qmanSegment s.run.fs ts).fin = true ↔
      s.eos.map (· + 1) = some (s.run.acked + (s.run.fs.txSent + qmanLen s.run.fs).toNat)
    rw [hseg, hstop]
    cases hf : s.run.fs.has flowstTxfin with
    | true =>
      obtain ⟨heos, hlast⟩ := h.txfin hf
      obtain ⟨d, hd⟩ := isSome_iff_exists.mp heos
      have hend := hlast.ends h.streams.covered.st hfits
      have hlen := h.eos d hd
      rw [hd]
      simp only [map_some, some.injEq, true_iff]
      omega
    | false =>
      simp only [Bool.false_eq_true, false_iff]
      rcases hshort hf with hnone | hshort
      · simp [hnone]
      · intro he
        have hlt := hshort.len_lt
        obtain ⟨d, hd, hd'⟩ := map_eq_some_iff.mp he
        have hlen := h.eos d hd
        omega

/-- A turn of the queue manager that sends. -/
theorem FinInv.qman (h : FinInv localSeq s) (hfits : QmanFits s.run.fs)
    (hshort : s.run.fs.has flowstTxfin = false → s.eos = none ∨ StopsShort s.run.fs) (hne : tcpTxavail s.run.fs none ≠ 0)
    (ts : BitVec 32) {run : SendRun} (hst : run.Streams localSeq) (hfs : run.fs = qmanSent s.run.fs)
    (hstream : run.stream = s.run.stream) (hacked : run.acked = s.run.acked)
    (hsent : run.sent = s.run.sent ++
      [⟨s.run.acked, (qmanSent s.run.fs).txSent, s.run.lastWnd, qmanSegment s.run.fs ts⟩]) :
    FinInv localSeq { s with run := run } := by
  obtain ⟨hfirst, hstop, hplaced⟩ := h.qmanSent_spec hfits hshort hne ts
  generalize he : (⟨s.run.acked, (qmanSent s.run.fs).txSent, s.run.lastWnd, qmanSegment s.run.fs ts⟩ : Sent) = e
    at hsent hfirst hstop hplaced
  have hsum : run.acked + run.fs.txSent.toNat = e.stop := by rw [hacked, hfs, ← he]; rfl
  have hlen := hplaced.length
  -- the bytes before those were carried, and the segment carries the others
  have hcarried : ∀ i < e.stop, (∀ d ∈ s.eos, i < d) → ∃ e' ∈ run.sent, e'.Carries localSeq i := by
    intro i hi hd
    by_cases hlt : i < s.run.acked + s.run.fs.txSent.toNat
    · obtain ⟨e', he', hc⟩ := h.carried i hlt hd
      exact ⟨e', by rw [hsent]; exact mem_append_left _ he', hc⟩
    · refine ⟨e, by rw [hsent]; simp, ?_, ?_⟩
      · omega
      · by_cases hf : e.seg.fin = true
        · obtain ⟨d, hd₁, hd₂⟩ := map_eq_some_iff.mp (hplaced.fin.mp hf)
          have := hd d hd₁
          rw [hf, Bool.toNat_true] at hlen
          omega
        · rw [Bool.not_eq_true] at hf
          rw [hf, Bool.toNat_false] at hlen
          omega
  refine ⟨hst, ?_, ?_, ?_, ?_, ?_⟩
  · rw [hfs]
    intro hf
    obtain ⟨heos, h₁, h₂⟩ := h.txfin hf
    have hle := hfits.len_le
    have hsum : (qmanSent s.run.fs).txSent.toNat = s.run.fs.txSent.toNat + (qmanLen s.run.fs).toNat := by
      have := hstop
      rw [← he] at this
      exact Nat.add_left_cancel (this.trans (Nat.add_assoc ..))
    refine ⟨heos, h₁, ?_⟩
    show rqNbytesEnqueued s.run.fs.tx ≤ _
    omega
  · rw [hstream]
    exact h.eos
  · rw [hsent, hstream]
    intro e' he'
    rcases mem_append.mp he' with he' | he'
    · exact h.placed e' he'
    · rw [mem_singleton.mp he']
      exact hplaced
  · rw [hsum]
    exact hcarried
  · intro l hl hlast d hd i hi
    simp only [hsent] at hl
    rcases prefix_concat_iff.mp hl with rfl | hl
    · -- the new segment has the FIN flag: it covers everything up to the dummy byte
      rw [← hsent]
      refine hcarried i ?_ fun d' hd' => ?_
      · rw [getLast?_concat] at hlast
        obtain ⟨d', hd₁, hd₂⟩ := map_eq_some_iff.mp (hplaced.fin.mp hlast)
        rw [mem_def, hd₁, some.injEq] at hd
        omega
      · rw [mem_def] at hd hd'
        rw [hd, some.injEq] at hd'
        omega
    · exact h.dataFirst l hl hlast d hd i hi

end Steps

theorem finOk_send {s : FinRun} {op : SendOp} (h : finOk s (.send op)) : sendFits s.run op ∧ sendInOrder s.run op := by
  cases op with
  | publish | setRx => exact ⟨trivial, trivial⟩
  | call c =>
    cases c with
    | packet p ts env => exact ⟨trivial, fun hslow hne => ⟨(h hslow).1, (h hslow).2.1 hne⟩⟩
    | bump => exact ⟨trivial, trivial⟩
    | qman ctxId newCore ts => exact ⟨fun hc => (h hc).1, trivial⟩
    | retransmit => exact ⟨trivial, h⟩

theorem finStep_inv {localSeq : BitVec 32} (flowId : BitVec 32) (s : FinRun) (op : FinOp) (s' : FinRun)
    (h : FinInv localSeq s) (hok : finDomain s op ∧ finOk s op) (hs : finStep flowId s op = some s') :
    FinInv localSeq s' := by
  obtain ⟨hdom, hok⟩ := hok
  cases op with
  | pushtxeos =>
    obtain ⟨run, hr, rfl⟩ := map_eq_some_iff.mp hs
    have hst := sendStep_streams flowId s.run (.publish [1]) run h.streams ⟨trivial, trivial⟩ hr
    obtain ⟨q, -, rfl⟩ := map_eq_some_iff.mp hr
    exact h.pushtxeos hdom hst rfl rfl rfl rfl rfl
  | send op =>
    obtain ⟨run, hr, rfl⟩ := map_eq_some_iff.mp hs
    have hst := sendStep_streams flowId s.run op run h.streams (finOk_send hok) hr
    cases op with
    | publish bytes =>
      obtain ⟨q, -, rfl⟩ := map_eq_some_iff.mp hr
      refine h.keep hst rfl (prefix_append _ _) ?_ (Nat.le_refl _) fun hf => ?_
      · rw [show s.eos = none from hdom]
        exact fun d hd => nomatch hd
      · exact absurd ((h.open_tx hdom).symm.trans hf) (by decide)
    | setRx q =>
      cases hr
      exact h.keep hst rfl prefix_rfl h.eos (Nat.le_refl _) h.txfin
    | call c =>
      obtain ⟨r, hc, rfl⟩ := map_eq_some_iff.mp hr
      cases c with
      | packet p ts env =>
        have hack := fun hslow => And.intro (hok hslow).1 (hok hslow).2.1
        obtain ⟨b, hb, hsum, -⟩ := fastFlowsPacket_acked h.streams.covered.st hc hack
        refine h.keep hst (append_nil _) prefix_rfl h.eos ?_ fun hf => ?_
        · simp only [SendRun.after]
          omega
        · rw [show (s.run.after (.packet p ts env) r).fs = r.fs from rfl, fastFlowsPacket_txfin hc] at hf
          obtain ⟨heos, hlast⟩ := h.txfin hf
          exact ⟨heos, hlast.packet h.streams.covered.st hc hack fun hslow => (hok hslow).2.2 hf⟩
      | bump bumpSeq txBump flags ts =>
        cases hc
        have hb := fastFlowsBump_tx s.run.fs flowId bumpSeq txBump flags ts
        refine h.keep hst (append_nil _) prefix_rfl h.eos ?_ fun hfin => ?_
        · simp [SendRun.after, hb.tx, hb.sent]
        · have hold : s.run.fs.has flowstTxfin = true → s.eos.isSome = true ∧ LastFits s.run.fs := h.txfin
          cases hf : s.run.fs.has flowstTxfin with
          | true => exact ⟨(hold hf).1, (hold hf).2.congr hb⟩
          | false =>
            have hdone := (fastFlowsBump_txfin hfin).resolve_left (by simp [hf])
            exact ⟨hdom hdone, LastFits.congr (hok hdone hf) hb⟩
      | retransmit =>
        cases hc
        have hfs := (fastFlowsRetransmit_fs s.run.fs flowId).trans (if_pos hok)
        refine h.keep hst (append_nil _) prefix_rfl h.eos ?_ ?_
        · simp [SendRun.after, hfs]
        · simp only [SendRun.after, hfs]
          exact h.txfin
      | qman ctxId newCore ts =>
        rcases sentBy_qman hc with ⟨hfs, hnone⟩ | ⟨hcore, hne, hfs, hsent⟩
        · refine h.keep hst (by simp [SendRun.after, hnone]) prefix_rfl h.eos ?_ ?_
          · simp [SendRun.after, hfs]
          · simp only [SendRun.after, hfs]
            exact h.txfin
        · refine h.qman (hok hcore).1 (hok hcore).2 hne ts hst hfs rfl ?_ (by simp [SendRun.after, hsent])
          simp [SendRun.after, hfs, qmanSent]

theorem SendFresh.open_tx {fs : FlowSt} {localSeq : BitVec 32} (h : SendFresh fs localSeq) :
    fs.has flowstTxfin = false := by
  obtain ⟨old, a, ha, -, -⟩ := h
  unfold flowstInit at ha
  split at ha
  · cases ha
  split at ha
  · cases ha
  · cases ha
    simp only [FlowSt.has]
    cases a.ecn <;> decide

/-- In every run of a flow from its registration on in which the stream ends with a dummy byte
and a bump behind it, and what is left then fits the peer's window and one segment, a segment
has the FIN flag if what it covers ends with the dummy byte, and otherwise not; its payload is
then one byte shorter than what it covers; and every byte before the dummy byte was carried by
then. -/
theorem fin_at_end {fs : FlowSt} {localSeq : BitVec 32} (hfresh : SendFresh fs localSeq) (flowId : BitVec 32)
    (ops : List FinOp) (hdom : Run.All (finStep flowId) finDomain (finInit fs) ops)
    (hok : Run.All (finStep flowId) finOk (finInit fs) ops) :
    ∀ s, Run.exec (finStep flowId) (finInit fs) ops = some s →
      (∀ e ∈ s.run.sent, e.FinPlaced localSeq s.run.stream s.eos) ∧ s.DataFirst localSeq := by
  intro s hs
  obtain ⟨-, hsent, -⟩ := hfresh.start
  have h₀ : FinInv localSeq (finInit fs) := by
    refine ⟨hfresh.streams, ?_, fun d hd => (nomatch hd), fun e he => absurd he not_mem_nil, ?_, ?_⟩
    · rw [show (finInit fs).run.fs = fs from rfl, hfresh.open_tx]
      exact fun h => absurd h (by decide)
    · simp [finInit, sendInit, hsent]
    · exact fun l hl hlast d hd => nomatch hd
  have h := Run.exec_inv (finStep_inv flowId) h₀ (hdom.and hok) hs
  exact ⟨h.placed, h.dataFirst⟩

/-- Ten bytes are sent and acknowledged; three more and the FIN follow in one segment. -/
theorem fin_at_end_two_segments :
    SendFresh (zeroedFlow 64 0 1000) 1000 ∧
    ∃ s, Run.exec (finStep 0) (finInit (zeroedFlow 64 0 1000))
        [.send (.publish [0, 1, 2, 3, 4, 5, 6, 7, 8, 9]), .send (.call (.bump 1 10 0 0)), .send (.call (.qman 0 0 0)),
          .send (.call (.packet (.ofStream countingBytes 0 0 0 1010 56) 0 fun _ => (0, 0))), .send (.publish [10, 11, 12]),
          .pushtxeos, .send (.call (.bump 2 4 1 0)), .send (.call (.qman 0 0 0))] = some s ∧
      (∀ e ∈ s.run.sent, e.FinPlaced 1000 s.run.stream s.eos) ∧ s.DataFirst 1000 := by
  exact ⟨sendFresh_zeroed, Run.exists_exec (by decide +kernel) fun s hs =>
    fin_at_end sendFresh_zeroed 0 _ (by decide +kernel) (by decide +kernel) s hs⟩

/-- The peer's window is 5. Of ten bytes and the dummy byte the first turn of the queue
manager covers five: it sends four, and a FIN in place of the fifth. -/
theorem fin_too_early :
    ¬ ∀ (fs : FlowSt) (localSeq : BitVec 32), SendFresh fs localSeq → ∀ (flowId : BitVec 32) (ops : List FinOp),
      Run.All (finStep flowId) finDomain (finInit fs) ops →
      ∀ s, Run.exec (finStep flowId) (finInit fs) ops = some s →
        ∀ e ∈ s.run.sent, e.FinPlaced localSeq s.run.stream s.eos := by
  intro h
  exact Run.not_forall_exec (by decide +kernel) (h (zeroedFlow 64 0 1000) 1000 sendFresh_zeroed 0
    [.send (.call (.packet (.ofStream countingBytes 0 0 0 1000 5) 0 fun _ => (0, 0))),
      .send (.publish [0, 1, 2, 3, 4, 5, 6, 7, 8, 9]), .pushtxeos, .send (.call (.bump 1 11 1 0)),
      .send (.call (.qman 0 0 0))] (by decide +kernel))

end TasNic
