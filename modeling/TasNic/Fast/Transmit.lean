import TasNic.Fast.FastFlows
import TasNic.Rdma.Paired
import TasNic.Lib.Run

/-!
# The transmit stream

`NicTx q P D`: `P` bytes were made available in the transmit queue and `D` of them taken out, after
they were acknowledged. Three slips show in runs: a reset leaves `tx_next_seq` where it is and adds
`tx_sent` to the peer's window, an acknowledgement beyond `tx_sent` takes too few bytes out of the
queue, and `tcp_txavail` counts bytes in flight as still to be sent and subtracts `tx_sent` from a
smaller window. Each result has the condition under which these do not matter.
-/

namespace TasNic

open Circ RdmaQueue Serial List Option

/-! ## The transmit queue -/

/-- The end of the bytes the NIC can see in a queue it receives from. -/
def publishedOffset (q : RdmaQueue) : Nat := if q.paired then q.txOffset else q.flushOffset

/-- The application makes bytes available, as the NIC sees it: they are in the
ring after those before, and the offset the NIC reads has moved. They leave
the padding free. -/
def txPublish (q : RdmaQueue) (bytes : List Byte) : Option RdmaQueue :=
  if rqNbytesEnqueued q + bytes.length + rdmaQueuePad ≤ q.bufferSize then
    let o := publishedOffset q
    let q' := q.setBuffer (ringWrite q.bufferSize q.buffer o bytes.length (bytes.getD · 0))
    let o' := adv q.bufferSize o bytes.length
    some (if q.paired then q'.setTxOffset o' else q'.setFlushOffset o')
  else none

/-- A queue the NIC receives from, after `P` bytes were made available and `D`
taken out. -/
structure NicTx (q : RdmaQueue) (P D : Nat) : Prop where
  rxAddr : q.endpoints.rx.addr = q.self
  pad : rdmaQueuePad < q.bufferSize
  size : q.bufferSize < 2 ^ 31
  rx : q.rxOffset = pos q.bufferSize D
  published : publishedOffset q = pos q.bufferSize P
  taken : D ≤ P
  room : P + rdmaQueuePad ≤ D + q.bufferSize

namespace NicTx

variable {q : RdmaQueue} {P D : Nat}

theorem size_pos (h : NicTx q P D) : 0 < q.bufferSize := by
  have := h.pad
  omega

theorem lap (h : NicTx q P D) : P < D + q.bufferSize := by
  have := h.room
  simp only [rdmaQueuePad] at this
  omega

theorem enqueued (h : NicTx q P D) : rqNbytesEnqueued q = P - D := by
  have e : rqNbytesEnqueued q = rqNbytes q q.rxOffset (publishedOffset q) true := by
    unfold rqNbytesEnqueued publishedOffset
    split <;> rfl
  rw [e, h.rx, h.published, rqNbytes_pos h.taken h.lap]

theorem dequeue (h : NicTx q P D) {sz : Nat} {d : Dequeued} (hd : rqTryDequeue q false sz = some d)
    (hrv : d.rv = 0) : D + sz ≤ P ∧ NicTx d.queue P (D + sz) ∧ d.queue.buffer = q.buffer ∧
      d.queue.bufferSize = q.bufferSize := by
  have h₁ := h.taken; have h₃ := h.room
  by_cases hsz : sz ≤ rqNbytesEnqueued q
  · have hle := hsz
    rw [h.enqueued] at hle
    rw [rqTryDequeue, rqTryPossibleDequeue_fits false true h.rxAddr h.size_pos h.rx hsz (by omega),
      some.injEq] at hd
    subst hd
    exact ⟨by omega, ⟨h.rxAddr, h.pad, h.size, rfl, h.published, by omega,
      by simp only [setRxOffset, if_true]; omega⟩, rfl, rfl⟩
  · rw [rqTryDequeue, rqTryPossibleDequeue_short false true h.rxAddr (Nat.lt_of_not_le hsz),
      some.injEq] at hd
    subst hd
    cases hrv

theorem publish (h : NicTx q P D) {bytes : List Byte} {q' : RdmaQueue} (hq : txPublish q bytes = some q') :
    NicTx q' (P + bytes.length) D ∧ q'.bufferSize = q.bufferSize ∧
      q'.buffer = put q.bufferSize q.buffer P bytes.length (bytes.getD · 0) ∧
      P + bytes.length ≤ D + q.bufferSize := by
  have h₁ := h.taken
  have hle := pos_le h.size_pos P
  unfold txPublish at hq
  split at hq
  · rename_i hroom
    rw [h.enqueued] at hroom
    have hbuf := ringWrite_eq_put q.buffer (fun i => bytes.getD i 0) h.size_pos hle (pos_mod h.size_pos P)
      (show bytes.length ≤ q.bufferSize by omega)
    have hadv := adv_pos (n := P) h.size_pos (show bytes.length ≤ q.bufferSize by omega)
    rw [some.injEq] at hq
    simp only [h.published, hbuf, hadv] at hq
    subst hq
    have hpub := h.published
    unfold publishedOffset at hpub
    by_cases hp : q.paired = true
    · simp only [hp, if_true]
      refine ⟨⟨h.rxAddr, h.pad, h.size, h.rx, ?_, by omega, ?_⟩, rfl, rfl, by omega⟩
      · exact if_pos hp
      · simp only [setTxOffset, setBuffer]; omega
    · simp only [hp, if_false, Bool.false_eq_true]
      refine ⟨⟨h.rxAddr, h.pad, h.size, h.rx, ?_, by omega, ?_⟩, rfl, rfl, by omega⟩
      · exact if_neg hp
      · simp only [setFlushOffset, setBuffer]; omega
  · cases hq

end NicTx

/-- A new queue: unpaired, or the receiver's of a new pair. -/
def TxFresh (q : RdmaQueue) : Prop :=
  rdmaQueuePad < q.bufferSize ∧
    ((∃ addr mem nbytes lkey rkey, rqAllocateInPlace addr mem nbytes lkey rkey = some q) ∨
      ∃ addr mem nbytes lkey rkey r addr' mem' lkey' rkey' t,
        rqAllocateInPlace addr mem nbytes lkey rkey = some r ∧
        rqAllocateInPlace addr' mem' nbytes lkey' rkey' = some t ∧ q = (pairInit t r).rx)

theorem TxFresh.nicTx {q : RdmaQueue} (h : TxFresh q) : NicTx q 0 0 := by
  obtain ⟨hpad, ⟨addr, mem, nbytes, lkey, rkey, ha⟩ | ⟨addr, mem, nbytes, lkey, rkey, r, addr', mem', lkey', rkey', t,
    hr, ht, hq⟩⟩ := h
  · obtain ⟨-, hlt, e⟩ := rqAllocateInPlace_some ha
    generalize q.bufferSize = B at hpad hlt e
    subst e
    exact ⟨rfl, hpad, hlt, rfl, rfl, Nat.le_refl _, by simp only; omega⟩
  · obtain ⟨-, hlt, er⟩ := rqAllocateInPlace_some hr
    obtain ⟨-, -, et⟩ := rqAllocateInPlace_some ht
    generalize hB : r.bufferSize = B at hlt er
    generalize t.bufferSize = B' at et
    subst er et hq
    exact ⟨rfl, hpad, hlt, rfl, rfl, Nat.le_refl _, by simp only [pairInit, rqPaired] at hpad ⊢; omega⟩

/-! ## What calls do to transmission -/

structure SameTx (fs fs' : FlowSt) : Prop where
  tx : fs'.tx = fs.tx
  sent : fs'.txSent = fs.txSent
  next : fs'.txNextSeq = fs.txNextSeq
  avail : fs'.rxRemoteAvail = fs.rxRemoteAvail

theorem SameTx.refl (fs : FlowSt) : SameTx fs fs := ⟨rfl, rfl, rfl, rfl⟩

theorem SameTx.trans {fs₁ fs₂ fs₃ : FlowSt} (h : SameTx fs₁ fs₂) (h' : SameTx fs₂ fs₃) : SameTx fs₁ fs₃ :=
  ⟨h'.tx.trans h.tx, h'.sent.trans h.sent, h'.next.trans h.next, h'.avail.trans h.avail⟩

def ackBump (fs : FlowSt) (p : RxPacket) : Option (BitVec 32) :=
  if p.has tcpAck then tcpValidRxack fs p.ackno else none

def ackResets (fs : FlowSt) (p : RxPacket) : Bool :=
  ackBump fs p == some 0 && p.payloadBytes == 0 && decide (fs.rxDupackCnt + 1 ≥ 3)

/-- A packet that is not for the slow path and sets the peer's window: in
order, and not the third duplicate acknowledgement. -/
def packetRecords (fs : FlowSt) (p : RxPacket) : Bool :=
  !packetSlow fs p && match packetAck fs p with
    | none => false
    | some a => !a.reset && match packetTrim a.fs p with
      | .inOrder .. => true
      | _ => false

section Calls

variable {fs : FlowSt} {p : RxPacket}

theorem packetFin_tx (fs : FlowSt) (p : RxPacket) : SameTx fs (packetFin fs p).1 := by
  unfold packetFin
  split <;> exact ⟨rfl, rfl, rfl, rfl⟩

theorem packetDupack_tx (fs : FlowSt) (b n : BitVec 32) :
    (packetDupack fs b n).2 = (b == 0 && n == 0 && decide (fs.rxDupackCnt + 1 ≥ 3)) ∧
    (packetDupack fs b n).1.tx = fs.tx ∧ (packetDupack fs b n).1.txNextSeq = fs.txNextSeq ∧
    (packetDupack fs b n).1.txSent = (if (packetDupack fs b n).2 then 0 else fs.txSent) ∧
    (packetDupack fs b n).1.rxRemoteAvail =
      if (packetDupack fs b n).2 then fs.rxRemoteAvail + fs.txSent else fs.rxRemoteAvail := by
  simp only [packetDupack]
  split
  · rename_i hb
    refine ⟨?_, rfl, rfl, rfl, rfl⟩
    rw [beq_false_of_ne hb, Bool.false_and, Bool.false_and]
  rename_i hb
  rw [Decidable.not_not] at hb
  split
  · rename_i hn
    rw [hb, hn, beq_self_eq_true, Bool.true_and, Bool.true_and]
    split
    · rename_i h3
      exact ⟨(decide_eq_true h3).symm, rfl, rfl, rfl, rfl⟩
    · rename_i h3
      exact ⟨(decide_eq_false h3).symm, rfl, rfl, rfl, rfl⟩
  · rename_i hn
    refine ⟨?_, rfl, rfl, rfl, rfl⟩
    rw [beq_false_of_ne hn, Bool.and_false, Bool.false_and]

/-- Processing an acknowledgement: it is not valid; or it covers `b` bytes,
and these are taken out of the queue, less those in flight if it covers more. -/
theorem packetAck_tx {a : AckResult} (h : packetAck fs p = some a) :
    (ackBump fs p = none ∧ SameTx fs a.fs ∧ a.reset = false) ∨
    ∃ b d, ackBump fs p = some b ∧
      rqTryDequeue fs.tx false (if b ≤ fs.txSent then b else b - fs.txSent).toNat = some d ∧ d.rv = 0 ∧
      a.fs.tx = d.queue ∧
      a.fs.txNextSeq = (if b ≤ fs.txSent then fs.txNextSeq else fs.txNextSeq + (b - fs.txSent)) ∧
      a.reset = ackResets fs p ∧
      a.fs.txSent = (if a.reset then 0 else if b ≤ fs.txSent then fs.txSent - b else 0) ∧
      a.fs.rxRemoteAvail =
        if a.reset then fs.rxRemoteAvail + (if b ≤ fs.txSent then fs.txSent - b else 0) else fs.rxRemoteAvail := by
  simp only [packetAck] at h
  split at h
  · rename_i hack
    have hb : ackBump fs p = tcpValidRxack { fs with cntRxAcks := fs.cntRxAcks + 1 } p.ackno := if_pos hack
    split at h
    · rename_i hv
      cases h
      exact .inl ⟨hb.trans hv, ⟨rfl, rfl, rfl, rfl⟩, rfl⟩
    · rename_i b hv
      rw [hv] at hb
      split at h
      · cases h
      · rename_i fs₁ hd
        cases h
        obtain ⟨d, hq, hrv, rfl⟩ := packetDequeue_eq hd
        obtain ⟨h₁, h₂, h₃, h₄, h₅⟩ := packetDupack_tx _ b p.payloadBytes
        refine .inr ⟨b, d, hb, hq, hrv, h₂, h₃, h₁.trans ?_, h₄, h₅⟩
        simp [ackResets, hb]
  · rename_i hack
    cases h
    exact .inl ⟨if_neg hack, .refl fs, rfl⟩

theorem fastFlowsPacket_tx {flowId ts : BitVec 32} {env : RdmaEnv} {r : FlowResult}
    (h : fastFlowsPacket fs flowId p ts env = some r) :
    (packetSlow fs p = true ∧ SameTx fs r.fs) ∨
    (packetSlow fs p = false ∧ ∃ a, packetAck fs p = some a ∧ r.fs.tx = a.fs.tx ∧ r.fs.txSent = a.fs.txSent ∧
      r.fs.txNextSeq = a.fs.txNextSeq ∧
      r.fs.rxRemoteAvail = if packetRecords fs p then p.wnd.setWidth 32 else a.fs.rxRemoteAvail) := by
  rcases fastFlowsPacket_cases h with ⟨hslow, hfs, -⟩ | ⟨st, txBump, hst, hun⟩
  · refine .inl ⟨hslow, ?_⟩
    rcases hfs with e | e <;> rw [e] <;> exact ⟨rfl, rfl, rfl, rfl⟩
  obtain ⟨hslow, a, ha, harr⟩ := packetReceived_arrives hst
  obtain ⟨rx, arx, rfl, -⟩ := packetUnlock_eq hun
  refine .inr ⟨hslow, a, ha, ?_⟩
  simp only [packetRecords, hslow, ha, Bool.not_false, Bool.true_and]
  cases harr with
  | reset hr =>
    rw [hr]
    exact ⟨rfl, rfl, rfl, rfl⟩
  | outside hr ht =>
    rw [hr, ht]
    exact ⟨rfl, rfl, rfl, rfl⟩
  | outOfOrder hr ht =>
    obtain ⟨_, _, _, e⟩ := packetOoo_eq a.fs _ _ _
    rw [hr, ht, e]
    exact ⟨rfl, rfl, rfl, rfl⟩
  | dropped hr ht =>
    rw [hr, ht]
    exact ⟨rfl, rfl, rfl, rfl⟩
  | @taken _ _ t hr ht _ hseg =>
    have hs : SameTx (packetWindow a.fs p ts) t.fs := by
      split at hseg
      · obtain ⟨_, _, _, _, e⟩ := packetPayload_eq hseg
        rw [e]
        exact ⟨rfl, rfl, rfl, rfl⟩
      · cases hseg
        exact .refl _
    have hs := hs.trans (packetFin_tx t.fs p)
    rw [hr, ht]
    exact ⟨hs.tx, hs.sent, hs.next, hs.avail⟩

theorem fastFlowsBump_tx (fs : FlowSt) (flowId : BitVec 32) (bumpSeq : BitVec 16) (txBump : BitVec 32)
    (flags : BitVec 8) (ts : BitVec 32) : SameTx fs (fastFlowsBump fs flowId bumpSeq txBump flags ts).fs := by
  rcases fastFlowsBump_fs fs flowId bumpSeq txBump flags ts with ⟨-, h⟩ | ⟨-, h | h⟩ <;> rw [h] <;>
    exact ⟨rfl, rfl, rfl, rfl⟩

theorem fastFlowsRetransmit_fs (fs : FlowSt) (flowId : BitVec 32) :
    (fastFlowsRetransmit fs flowId).fs = if fs.txSent = 0 then fs else flowResetRetransmit fs := by
  simp only [fastFlowsRetransmit]
  split <;> rfl

end Calls

/-- A segment the fast path sent: how many bytes were acknowledged then, how
many in flight with it, and the last window recorded. -/
structure Sent where
  acked : Nat
  inFlight : BitVec 32
  wnd : BitVec 32
  seg : TxSegment
deriving DecidableEq

/-- A flow with what happened to it: the bytes made available in `tx`, how
many were taken out again, the last window recorded from the peer, whether
transmission was reset with bytes in flight since, and what was sent. -/
structure SendRun where
  fs : FlowSt
  stream : List Byte
  acked : Nat
  lastWnd : BitVec 32
  inflated : Bool
  sent : List Sent

def sendInit (fs : FlowSt) : SendRun := ⟨fs, [], 0, fs.rxRemoteAvail, false, []⟩

namespace SendRun

def windowAfter (s : SendRun) : FlowCall → BitVec 32
  | .packet p _ _ => if packetRecords s.fs p then p.wnd.setWidth 32 else s.lastWnd
  | _ => s.lastWnd

def inflatedAfter (s : SendRun) : FlowCall → Bool
  | .packet p _ _ =>
    !packetRecords s.fs p && (s.inflated || (!packetSlow s.fs p && ackResets s.fs p && s.fs.txSent != 0))
  | .retransmit => s.inflated || s.fs.txSent != 0
  | _ => s.inflated

def sentBy (s : SendRun) (r : FlowResult) : FlowCall → List Sent
  | .qman .. => r.out.filterMap fun
    | .segment t => some ⟨s.acked, r.fs.txSent, s.lastWnd, t⟩
    | _ => none
  | _ => []

def after (s : SendRun) (c : FlowCall) (r : FlowResult) : SendRun where
  fs := r.fs
  stream := s.stream
  acked := s.acked + (rqNbytesEnqueued s.fs.tx - rqNbytesEnqueued r.fs.tx)
  lastWnd := s.windowAfter c
  inflated := s.inflatedAfter c
  sent := s.sent ++ s.sentBy r c

end SendRun

/-- A call of the fast path, bytes made available by the application, or any
change of the receive queue by its other side. -/
inductive SendOp where
  | call (c : FlowCall)
  | publish (bytes : List Byte)
  | setRx (q : RdmaQueue)

def sendStep (flowId : BitVec 32) (s : SendRun) : SendOp → Option SendRun
  | .call c => (c.run s.fs flowId).map (s.after c)
  | .publish bytes => (txPublish s.fs.tx bytes).map fun q =>
      { s with fs := { s.fs with tx := q }, stream := s.stream ++ bytes }
  | .setRx q => some { s with fs := { s.fs with rx := q } }

/-- A flow that `nicif_connection_add` registered, with a new transmit queue. -/
def SendFresh (fs : FlowSt) (localSeq : BitVec 32) : Prop :=
  ∃ old a, flowstInit old a = some fs ∧ a.localSeq = localSeq ∧ TxFresh a.tx

variable {fs : FlowSt} {localSeq : BitVec 32} {r : FlowResult}

theorem SendFresh.start (h : SendFresh fs localSeq) :
    NicTx fs.tx 0 0 ∧ fs.txSent = 0 ∧ fs.txNextSeq = localSeq := by
  obtain ⟨old, a, ha, hseq, htx⟩ := h
  unfold flowstInit at ha
  split at ha
  · cases ha
  split at ha
  · cases ha
  · cases ha
    exact ⟨htx.nicTx, rfl, hseq⟩

/-! ## The queue covers what is in flight -/

/-- The queue manager's turn on a flow that sends no more than the bytes not
yet in flight: nothing is in flight, or there are bytes for a full segment, or
the window of the peer is the tighter limit. -/
def QmanFits (fs : FlowSt) : Prop :=
  fs.txSent = 0 ∨ fs.txSent.toNat + tcpMss.toNat ≤ rqNbytesEnqueued fs.tx ∨
    fs.txSent.toNat + (fs.rxRemoteAvail - fs.txSent).toNat ≤ rqNbytesEnqueued fs.tx
deriving Decidable

theorem toNat_tcpTxavail_le (fs : FlowSt) :
    (tcpTxavail fs none).toNat ≤ (fs.rxRemoteAvail - fs.txSent).toNat ∧
      (tcpTxavail fs none).toNat ≤ rqNbytesEnqueued fs.tx := by
  have hle : (BitVec.ofNat 32 (rqNbytesEnqueued fs.tx)).toNat ≤ rqNbytesEnqueued fs.tx := by
    rw [BitVec.toNat_ofNat]
    exact Nat.mod_le _ _
  simp only [tcpTxavail]
  split
  · rename_i h
    have := BitVec.lt_def.mp h
    omega
  · rename_i h
    have := BitVec.lt_def.not.mp h
    omega

theorem toNat_tcpTxavail_some (hw : fs.txSent.toNat ≤ fs.rxRemoteAvail.toNat) (a : BitVec 32) :
    (tcpTxavail fs (some a)).toNat = min (fs.rxRemoteAvail.toNat - fs.txSent.toNat) a.toNat := by
  have h := toNat_sub_of_le hw
  simp only [tcpTxavail]
  split
  · rename_i hlt
    have := BitVec.lt_def.mp hlt
    omega
  · rename_i hlt
    have := BitVec.lt_def.not.mp hlt
    omega

theorem toNat_tcpTxavail (hw : fs.txSent.toNat ≤ fs.rxRemoteAvail.toNat) (he : rqNbytesEnqueued fs.tx < 2 ^ 32) :
    (tcpTxavail fs none).toNat = min (fs.rxRemoteAvail.toNat - fs.txSent.toNat) (rqNbytesEnqueued fs.tx) := by
  have h := toNat_tcpTxavail_some hw (BitVec.ofNat 32 (rqNbytesEnqueued fs.tx))
  rwa [toNat_ofNat_of_lt he] at h

theorem qmanLen_le (fs : FlowSt) :
    (qmanLen fs).toNat ≤ tcpMss.toNat ∧ (qmanLen fs).toNat ≤ (fs.rxRemoteAvail - fs.txSent).toNat ∧
      (qmanLen fs).toNat ≤ rqNbytesEnqueued fs.tx := by
  have h := toNat_tcpTxavail_le fs
  simp only [qmanLen]
  split
  · rename_i h'
    have := BitVec.lt_def.mp h'
    omega
  · rename_i h'
    have := BitVec.lt_def.not.mp h'
    omega

theorem qmanLen_ne_zero (h : tcpTxavail fs none ≠ 0) : qmanLen fs ≠ 0 := by
  simp only [qmanLen]
  split
  · decide
  · exact h

theorem QmanFits.len_le (h : QmanFits fs) :
    fs.txSent.toNat + (qmanLen fs).toNat ≤ rqNbytesEnqueued fs.tx := by
  obtain ⟨h₁, h₂, h₃⟩ := qmanLen_le fs
  rcases h with h | h | h
  · rw [h]
    simpa using h₃
  · omega
  · omega

/-- While bytes are in flight, the packet acknowledges no more than these and
does not reset transmission. -/
def AckInOrder (fs : FlowSt) (p : RxPacket) : Prop :=
  packetSlow fs p = false → fs.txSent ≠ 0 → (ackBump fs p).all (· ≤ fs.txSent) ∧ ackResets fs p = false
deriving Decidable

/-- `D` of `P` bytes are taken out of the queue, and those in flight follow. -/
structure SendSt (fs : FlowSt) (P D : Nat) : Prop where
  queue : NicTx fs.tx P D
  sent : D + fs.txSent.toNat ≤ P

/-- `k` more bytes are taken out of the queue, which is otherwise the same. -/
structure SendAdvance (fs fs' : FlowSt) (P D k : Nat) : Prop where
  st : SendSt fs' P (D + k)
  buffer : fs'.tx.buffer = fs.tx.buffer
  size : fs'.tx.bufferSize = fs.tx.bufferSize

section Steps

variable {fs : FlowSt} {P D : Nat}

theorem SendAdvance.same {fs' : FlowSt} (h : SendSt fs P D) (htx : fs'.tx = fs.tx) (hsent : fs'.txSent = fs.txSent) :
    SendAdvance fs fs' P D 0 :=
  ⟨⟨htx ▸ h.queue, hsent ▸ h.sent⟩, by rw [htx], by rw [htx]⟩

theorem SendAdvance.taken {fs' : FlowSt} {k : Nat} (h : SendSt fs P D) (h' : SendAdvance fs fs' P D k) :
    rqNbytesEnqueued fs.tx - rqNbytesEnqueued fs'.tx = k := by
  have h₁ := h'.st.queue.taken
  rw [h.queue.enqueued, h'.st.queue.enqueued]
  omega

/-- A packet takes bytes out of the queue. The first sequence number not
acknowledged moves by as many if the acknowledgement is in order. -/
theorem fastFlowsPacket_advance (h : SendSt fs P D) {p : RxPacket} {flowId ts : BitVec 32} {env : RdmaEnv}
    {r : FlowResult} (hr : fastFlowsPacket fs flowId p ts env = some r) :
    ∃ k, SendAdvance fs r.fs P D k ∧
      (AckInOrder fs p → r.fs.txNextSeq - r.fs.txSent = fs.txNextSeq - fs.txSent + BitVec.ofNat 32 k) := by
  have keep : ∀ fs' : FlowSt, fs'.tx = fs.tx → fs'.txSent = fs.txSent → fs'.txNextSeq = fs.txNextSeq →
      ∃ k, SendAdvance fs fs' P D k ∧
        (AckInOrder fs p → fs'.txNextSeq - fs'.txSent = fs.txNextSeq - fs.txSent + BitVec.ofNat 32 k) := by
    intro fs' h₁ h₂ h₃
    refine ⟨0, .same h h₁ h₂, fun _ => ?_⟩
    rw [h₂, h₃]
    exact (BitVec.add_zero _).symm
  rcases fastFlowsPacket_tx hr with ⟨-, hs⟩ | ⟨hslow, a, ha, htx, hsent, hnext, -⟩
  · exact keep r.fs hs.tx hs.sent hs.next
  rcases packetAck_tx ha with ⟨-, hs, -⟩ | ⟨b, d, hb, hd, hrv, htx', hnext', hreset, hsent', -⟩
  · exact keep r.fs (htx.trans hs.tx) (hsent.trans hs.sent) (hnext.trans hs.next)
  rw [htx'] at htx
  rw [hnext'] at hnext
  rw [hsent', hreset] at hsent
  obtain ⟨hle, hq, hbuf, hsize⟩ := h.queue.dequeue hd hrv
  refine ⟨_, ⟨⟨htx ▸ hq, ?_⟩, htx ▸ hbuf, htx ▸ hsize⟩, fun hok => ?_⟩
  · have h₁ := h.sent
    by_cases hb' : b ≤ fs.txSent
    · have h₂ := BitVec.le_def.mp hb'
      have h₃ := toNat_sub_of_le h₂
      simp only [hb', if_true] at hle hsent ⊢
      split at hsent <;> rw [hsent]
      · exact hle
      · omega
    · simp only [hb', if_false, ite_self] at hle hsent ⊢
      rw [hsent]
      exact hle
  · rw [BitVec.ofNat_toNat, BitVec.setWidth_eq]
    by_cases h0 : fs.txSent = 0
    · -- nothing in flight: only an acknowledgement of bytes never sent moves anything
      by_cases hb' : b ≤ 0
      · have hb0 : b = 0 := BitVec.eq_of_toNat_eq (Nat.le_zero.mp (BitVec.le_def.mp hb'))
        simp [hnext, hsent, h0, hb0]
      · simp only [h0, hb', if_false, ite_self] at hnext hsent ⊢
        rw [hnext, hsent]
        simp
    · obtain ⟨hb', hno⟩ := hok hslow h0
      rw [hb, all_some, decide_eq_true_eq] at hb'
      simp only [hb', hno, if_true, if_false, Bool.false_eq_true] at hnext hsent ⊢
      rw [hnext, hsent]
      grind

theorem qmanSent_sendSt (h : SendSt fs P D) (hfits : QmanFits fs) : SendSt (qmanSent fs) P D := by
  have h₁ := hfits.len_le
  have h₂ := h.queue.enqueued; have h₃ := h.queue.lap; have h₄ := h.queue.size; have h₅ := h.queue.taken
  refine ⟨h.queue, ?_⟩
  show D + (fs.txSent + qmanLen fs).toNat ≤ P
  rw [BitVec.toNat_add_of_lt (by omega)]
  omega

theorem flowResetRetransmit_sendSt (h : SendSt fs P D) : SendSt (flowResetRetransmit fs) P D :=
  ⟨h.queue, h.queue.taken⟩

end Steps

/-- Every turn of the queue manager sends no more than the bytes not yet in
flight. -/
def sendFits (s : SendRun) : SendOp → Prop
  | .call (.qman ctxId newCore _) => newCore = ctxId → QmanFits s.fs
  | _ => True

instance (s : SendRun) : ∀ op, Decidable (sendFits s op)
  | .call (.qman ctxId newCore _) => inferInstanceAs (Decidable (newCore = ctxId → QmanFits s.fs))
  | .call (.packet ..) | .call (.bump ..) | .call .retransmit | .publish _ | .setRx _ => isTrue trivial

/-- What a run has in flight is in the queue, and what it sent was made
available before. -/
structure SendRun.Covered (s : SendRun) : Prop where
  st : SendSt s.fs s.stream.length s.acked
  sent : ∀ e ∈ s.sent, e.acked + e.inFlight.toNat ≤ s.stream.length

theorem SendRun.Covered.advance {s : SendRun} (h : s.Covered) {c : FlowCall} {k : Nat}
    (hk : SendAdvance s.fs r.fs s.stream.length s.acked k) (hsent : s.sentBy r c = []) : (s.after c r).Covered := by
  refine ⟨?_, ?_⟩
  · simp only [SendRun.after, hk.taken h.st]
    exact hk.st
  · simp only [SendRun.after, hsent, append_nil]
    exact h.sent

/-- What the queue manager's turn adds to a run. -/
theorem sentBy_qman {s : SendRun} {flowId ts : BitVec 32} {ctxId newCore : BitVec 16}
    (h : fastFlowsQman s.fs flowId ctxId newCore ts = some r) :
    (r.fs = s.fs ∧ s.sentBy r (.qman ctxId newCore ts) = []) ∨
    (newCore = ctxId ∧ tcpTxavail s.fs none ≠ 0 ∧ r.fs = qmanSent s.fs ∧
      s.sentBy r (.qman ctxId newCore ts) =
        [⟨s.acked, (qmanSent s.fs).txSent, s.lastWnd, qmanSegment s.fs ts⟩]) := by
  rcases fastFlowsQman_cases h with rfl | rfl | ⟨hcore, hne, rfl⟩
  · exact .inl ⟨rfl, rfl⟩
  · exact .inl ⟨rfl, rfl⟩
  · exact .inr ⟨hcore, hne, rfl, rfl⟩

theorem sendStep_covered (flowId : BitVec 32) (s : SendRun) (op : SendOp) (s' : SendRun) (h : s.Covered)
    (hok : sendFits s op) (hs : sendStep flowId s op = some s') : s'.Covered := by
  cases op with
  | publish bytes =>
    obtain ⟨q, hq, rfl⟩ := map_eq_some_iff.mp hs
    obtain ⟨hq', -⟩ := h.st.queue.publish hq
    have h₁ := h.st.sent
    refine ⟨⟨?_, ?_⟩, fun e he => ?_⟩
    · simp only [length_append]
      exact hq'
    · simp only [length_append]
      omega
    · have := h.sent e he
      simp only [length_append]
      omega
  | setRx q =>
    cases hs
    exact ⟨⟨h.st.queue, h.st.sent⟩, h.sent⟩
  | call c =>
    obtain ⟨r, hr, rfl⟩ := map_eq_some_iff.mp hs
    cases c with
    | packet p ts env =>
      obtain ⟨k, hk, -⟩ := fastFlowsPacket_advance h.st hr
      exact h.advance hk rfl
    | bump bumpSeq txBump flags ts =>
      cases hr
      have hb := fastFlowsBump_tx s.fs flowId bumpSeq txBump flags ts
      exact h.advance (.same h.st hb.tx hb.sent) rfl
    | retransmit =>
      cases hr
      refine h.advance (k := 0) ?_ rfl
      rw [fastFlowsRetransmit_fs]
      split
      · exact .same h.st rfl rfl
      · exact ⟨flowResetRetransmit_sendSt h.st, rfl, rfl⟩
    | qman ctxId newCore ts =>
      rcases sentBy_qman hr with ⟨hfs, hnone⟩ | ⟨hcore, -, hfs, hsent⟩
      · exact h.advance (SendAdvance.same h.st (by rw [hfs]) (by rw [hfs])) hnone
      · have hst := qmanSent_sendSt h.st (hok hcore)
        refine ⟨?_, fun e he => ?_⟩
        · simp only [SendRun.after, hfs]
          rw [show rqNbytesEnqueued (qmanSent s.fs).tx = rqNbytesEnqueued s.fs.tx from rfl, Nat.sub_self]
          exact hst
        · simp only [SendRun.after, hsent, mem_append, mem_singleton] at he
          rcases he with he | rfl
          · exact h.sent e he
          · exact hst.sent

/-- In every run of a flow from its registration in which every turn of the
queue manager finds enough bytes that are not in flight, the bytes in flight
are in the transmit queue, and no segment goes beyond what the application
made available. -/
theorem sent_within_queue {fs : FlowSt} {localSeq : BitVec 32} (hfresh : SendFresh fs localSeq) (flowId : BitVec 32)
    (ops : List SendOp) (hfits : Run.All (sendStep flowId) sendFits (sendInit fs) ops) :
    ∀ s, Run.exec (sendStep flowId) (sendInit fs) ops = some s →
      s.fs.txSent.toNat ≤ rqNbytesEnqueued s.fs.tx ∧ ∀ e ∈ s.sent, e.acked + e.inFlight.toNat ≤ s.stream.length := by
  intro s hs
  obtain ⟨hq, hsent, -⟩ := hfresh.start
  have h₀ : (sendInit fs).Covered := ⟨⟨hq, by simp [sendInit, hsent]⟩, by simp [sendInit]⟩
  have h := Run.exec_inv (sendStep_covered flowId) h₀ hfits hs
  have h₁ := h.st.sent
  refine ⟨?_, h.sent⟩
  rw [h.st.queue.enqueued]
  omega

theorem sendFresh_zeroed : SendFresh (zeroedFlow 64 0 1000) 1000 :=
  ⟨zeroedFlow 64 0 1000,
    ⟨0, 0, 0, 0, 0, 0, zeroedQueue 4096 64, zeroedQueue 8192 64, 0, 1000, 0, false, 0, 0⟩, rfl, rfl, by decide,
    .inl ⟨8192, fun _ => 0, 152, 0, 0, rfl⟩⟩

/-- Ten bytes are sent and acknowledged, then five more are sent. -/
theorem sent_within_queue_acked :
    SendFresh (zeroedFlow 64 0 1000) 1000 ∧
    ∃ s, Run.exec (sendStep 0) (sendInit (zeroedFlow 64 0 1000))
        [.publish [0, 1, 2, 3, 4, 5, 6, 7, 8, 9], .call (.bump 1 10 0 0), .call (.qman 0 0 0),
          .call (.packet (.ofStream countingBytes 0 0 0 1010 56) 0 fun _ => (0, 0)), .publish [10, 11, 12, 13, 14],
          .call (.bump 2 5 0 0), .call (.qman 0 0 0)] = some s ∧
      s.fs.txSent.toNat ≤ rqNbytesEnqueued s.fs.tx ∧ ∀ e ∈ s.sent, e.acked + e.inFlight.toNat ≤ s.stream.length := by
  exact ⟨sendFresh_zeroed, Run.exists_exec (by decide +kernel) fun s hs =>
    sent_within_queue sendFresh_zeroed 0 _ (by decide +kernel) s hs⟩

/-- Ten bytes are sent. The application adds one, and the queue manager's next
turn sends eleven. -/
theorem sent_beyond_queue :
    ¬ ∀ (fs : FlowSt) (localSeq : BitVec 32), SendFresh fs localSeq → ∀ (flowId : BitVec 32) (ops : List SendOp),
      ∀ s, Run.exec (sendStep flowId) (sendInit fs) ops = some s → s.fs.txSent.toNat ≤ rqNbytesEnqueued s.fs.tx := by
  intro h
  exact Run.not_forall_exec (by decide +kernel) (h (zeroedFlow 64 0 1000) 1000 sendFresh_zeroed 0
    [.publish [0, 1, 2, 3, 4, 5, 6, 7, 8, 9], .call (.bump 1 10 0 0), .call (.qman 0 0 0), .publish [10],
      .call (.bump 2 1 0 0), .call (.qman 0 0 0)])

/-! ## Sequence numbers and bytes go together -/

/-- The bytes in the queue are those of the stream from `acked` on, and
`tx_next_seq - tx_sent` is the sequence number of the first of them. -/
def SendRun.Coherent (localSeq : BitVec 32) (s : SendRun) : Prop :=
  s.fs.txNextSeq - s.fs.txSent = localSeq + BitVec.ofNat 32 s.acked ∧
    rqBytes s.fs.tx (rqNbytesEnqueued s.fs.tx) = s.stream.drop s.acked
deriving Decidable

/-- The segment carries the bytes of the stream from the byte `k` on that its
sequence number stands for. -/
def Sent.InStream (localSeq : BitVec 32) (stream : List Byte) (e : Sent) : Prop :=
  ∃ k, e.acked ≤ k ∧ k < e.acked + 2 ^ 31 ∧ e.seg.seq = localSeq + BitVec.ofNat 32 k ∧
    e.seg.payload <+: stream.drop k

theorem Sent.InStream.append {stream : List Byte} {e : Sent} (h : e.InStream localSeq stream) (bytes : List Byte) :
    e.InStream localSeq (stream ++ bytes) := by
  obtain ⟨k, h₁, h₂, h₃, h₄⟩ := h
  refine ⟨k, h₁, h₂, h₃, h₄.trans ?_⟩
  rw [drop_append]
  exact prefix_append _ _

/-- Bytes in flight are acknowledged in order, and transmission is not reset
while there are any. -/
def sendInOrder (s : SendRun) : SendOp → Prop
  | .call (.packet p _ _) => AckInOrder s.fs p
  | .call .retransmit => s.fs.txSent = 0
  | _ => True

instance (s : SendRun) : ∀ op, Decidable (sendInOrder s op)
  | .call (.packet p _ _) => inferInstanceAs (Decidable (AckInOrder s.fs p))
  | .call .retransmit => inferInstanceAs (Decidable (s.fs.txSent = 0))
  | .call (.bump ..) | .call (.qman ..) | .publish _ | .setRx _ => isTrue trivial

/-- The stream is in the ring where it was published. -/
structure SendRun.Streams (localSeq : BitVec 32) (s : SendRun) : Prop where
  covered : s.Covered
  ring : Agree s.fs.tx.bufferSize s.fs.tx.buffer s.acked s.stream.length (s.stream.getD · 0)
  una : s.fs.txNextSeq - s.fs.txSent = localSeq + BitVec.ofNat 32 s.acked
  sent : ∀ e ∈ s.sent, e.InStream localSeq s.stream

namespace SendRun.Streams

variable {localSeq : BitVec 32} {s : SendRun}

variable (h : s.Streams localSeq)

include h

theorem coherent : s.Coherent localSeq := by
  have h₁ := h.covered.st.queue.taken; have h₂ := h.covered.st.queue.lap
  refine ⟨h.una, ?_⟩
  simp only [rqBytes, h.covered.st.queue.rx, h.covered.st.queue.enqueued]
  rw [slice_append_eq_take s.fs.tx.buffer h.covered.st.queue.size_pos (by omega) rfl,
    h.ring.take_eq (Nat.le_refl _) (by omega), map_getD_eq _ _ (by omega)]
  exact take_of_length_le (by simp)

theorem flowTxRead_eq {len : BitVec 16}
    (hlen : s.acked + s.fs.txSent.toNat + len.toNat ≤ s.stream.length) :
    flowTxRead s.fs (BitVec.ofNat 32 (qmanSendOffset s.fs)) len =
      (s.stream.drop (s.acked + s.fs.txSent.toNat)).take len.toNat := by
  have h₂ := h.covered.st.queue.lap; have h₃ := h.covered.st.queue.size
  have hB := h.covered.st.queue.size_pos
  have hoff : qmanSendOffset s.fs = pos s.fs.tx.bufferSize (s.acked + s.fs.txSent.toNat) := by
    rw [← adv_pos hB (by omega), ← h.covered.st.queue.rx]
    rfl
  have hle := pos_le hB (s.acked + s.fs.txSent.toNat)
  rw [flowTxRead, hoff, toNat_ofNat_of_lt (by omega), ringRead_eq_take _ hB (by omega),
    h.ring.take_eq (by omega) hlen, map_getD_eq _ _ hlen]

theorem nextSeq :
    s.fs.txNextSeq = localSeq + BitVec.ofNat 32 (s.acked + s.fs.txSent.toNat) := by
  rw [← add_ofNat_add, ← h.una, ofNat_toNat]
  exact (BitVec.sub_add_cancel _ _).symm

theorem qmanSegment_payload (hfits : QmanFits s.fs) (hne : tcpTxavail s.fs none ≠ 0)
    (ts : BitVec 32) :
    (qmanSegment s.fs ts).payload =
      (s.stream.drop (s.acked + s.fs.txSent.toNat)).take ((qmanLen s.fs).toNat - (qmanFin s.fs).toNat) := by
  have h₁ := hfits.len_le; have h₂ := h.covered.st.queue.enqueued
  obtain ⟨hmss, -, -⟩ := qmanLen_le s.fs
  have hpos : (qmanLen s.fs).toNat ≠ 0 := fun h0 => qmanLen_ne_zero hne (BitVec.eq_of_toNat_eq h0)
  have hlen : ((if qmanFin s.fs then qmanLen s.fs - 1 else qmanLen s.fs).setWidth 16).toNat =
      (qmanLen s.fs).toNat - (qmanFin s.fs).toNat := by
    have hlt : tcpMss.toNat < 2 ^ 16 := by decide
    rw [BitVec.toNat_setWidth, Nat.mod_eq_of_lt]
    · cases qmanFin s.fs with
      | true => exact toNat_sub_of_le (by simp; omega)
      | false => rfl
    · cases qmanFin s.fs with
      | true =>
        have := toNat_sub_of_le (x := qmanLen s.fs) (y := 1) (by simp; omega)
        simp only [if_true]
        omega
      | false =>
        simp only [Bool.false_eq_true, if_false]
        omega
  simp only [qmanSegment, flowTxSegment]
  rw [← hlen]
  generalize (if qmanFin s.fs then qmanLen s.fs - 1 else qmanLen s.fs).setWidth 16 = len at hlen ⊢
  split
  · exact h.flowTxRead_eq (by omega)
  · rw [show len.toNat = 0 by omega, take_zero]

theorem qmanSegment_inStream (hfits : QmanFits s.fs) (hne : tcpTxavail s.fs none ≠ 0)
    (ts : BitVec 32) :
    Sent.InStream localSeq s.stream ⟨s.acked, (qmanSent s.fs).txSent, s.lastWnd, qmanSegment s.fs ts⟩ := by
  have h₄ := h.covered.st.queue.lap; have h₅ := h.covered.st.queue.size
  have h₆ := h.covered.st.sent
  refine ⟨s.acked + s.fs.txSent.toNat, Nat.le_add_right _ _, by simp only; omega, h.nextSeq, ?_⟩
  rw [h.qmanSegment_payload hfits hne]
  exact take_prefix _ _

/-- A call that takes `k` bytes out of the queue and sends nothing. -/
theorem advance {c : FlowCall} {r : FlowResult} {k : Nat} (hcov : (s.after c r).Covered)
    (hk : SendAdvance s.fs r.fs s.stream.length s.acked k) (hsent : s.sentBy r c = [])
    (huna : r.fs.txNextSeq - r.fs.txSent = s.fs.txNextSeq - s.fs.txSent + BitVec.ofNat 32 k) :
    (s.after c r).Streams localSeq := by
  have htaken := hk.taken h.covered.st
  refine ⟨hcov, ?_, ?_, ?_⟩
  · simp only [SendRun.after, htaken, hk.buffer, hk.size]
    exact h.ring.mono (Nat.le_add_right _ _) (Nat.le_refl _)
  · simp [SendRun.after, htaken, huna, h.una, add_ofNat_add]
  · simp only [SendRun.after, hsent, append_nil]
    exact h.sent

end SendRun.Streams

theorem sendStep_streams (flowId : BitVec 32) (s : SendRun) (op : SendOp) (s' : SendRun) (h : s.Streams localSeq)
    (hok : sendFits s op ∧ sendInOrder s op) (hs : sendStep flowId s op = some s') :
    s'.Streams localSeq := by
  have hcov := sendStep_covered flowId s op s' h.covered hok.1 hs
  have hzero : ∀ x : BitVec 32, x = x + BitVec.ofNat 32 0 := fun x => (BitVec.add_zero x).symm
  cases op with
  | publish bytes =>
    obtain ⟨q, hq, rfl⟩ := map_eq_some_iff.mp hs
    obtain ⟨-, hsize, hbuf, hroom⟩ := h.covered.st.queue.publish hq
    have h₁ := h.covered.st.queue.taken
    refine ⟨hcov, ?_, h.una, fun e he => (h.sent e he).append bytes⟩
    simp only [hsize, hbuf, length_append]
    refine (h.ring.congr fun c _ hc => ?_).put_next h₁ hroom fun j _ => ?_
    · exact getD_append_of_lt hc
    · simp [List.getElem?_append_right (Nat.le_add_right _ _)]
  | setRx q =>
    cases hs
    exact ⟨hcov, h.ring, h.una, h.sent⟩
  | call c =>
    obtain ⟨r, hr, rfl⟩ := map_eq_some_iff.mp hs
    cases c with
    | packet p ts env =>
      obtain ⟨k, hk, huna⟩ := fastFlowsPacket_advance h.covered.st hr
      exact h.advance hcov hk rfl (huna hok.2)
    | bump bumpSeq txBump flags ts =>
      cases hr
      have hb := fastFlowsBump_tx s.fs flowId bumpSeq txBump flags ts
      refine h.advance hcov (.same h.covered.st hb.tx hb.sent) rfl ?_
      rw [hb.next, hb.sent]
      exact hzero _
    | retransmit =>
      cases hr
      have hfs := (fastFlowsRetransmit_fs s.fs flowId).trans (if_pos hok.2)
      refine h.advance hcov (.same h.covered.st (by rw [hfs]) (by rw [hfs])) rfl ?_
      rw [hfs]
      exact hzero _
    | qman ctxId newCore ts =>
      rcases sentBy_qman hr with ⟨hfs, hnone⟩ | ⟨hcore, hne, hfs, hsent⟩
      · refine h.advance hcov (.same h.covered.st (by rw [hfs]) (by rw [hfs])) hnone ?_
        rw [hfs]
        exact hzero _
      · have hacked : (s.after (.qman ctxId newCore ts) r).acked = s.acked := by
          simp [SendRun.after, hfs, qmanSent]
        refine ⟨hcov, ?_, ?_, fun e he => ?_⟩
        · rw [hacked]
          simp only [SendRun.after, hfs]
          exact h.ring
        · rw [hacked, ← h.una]
          simp only [SendRun.after, hfs, qmanSent]
          grind
        · simp only [SendRun.after, hsent, mem_append, mem_singleton] at he
          rcases he with he | rfl
          · exact h.sent e he
          · exact h.qmanSegment_inStream (hok.1 hcore) hne ts

theorem SendFresh.streams (h : SendFresh fs localSeq) :
    (sendInit fs).Streams localSeq := by
  obtain ⟨hq, hsent, hnext⟩ := h.start
  exact ⟨⟨⟨hq, by simp [sendInit, hsent]⟩, by simp [sendInit]⟩, Agree.empty (Nat.le_refl _),
    by simp [sendInit, hsent, hnext], by simp [sendInit]⟩

/-- In every run of a flow from its registration in which turns of the queue
manager find enough bytes that are not in flight, bytes in flight are
acknowledged in order and transmission is not reset while there are any,
sequence numbers and bytes go together: the first byte in the queue has
sequence number `tx_next_seq - tx_sent`, and every segment carries the bytes
of the stream its sequence number stands for. -/
theorem sent_stream {fs : FlowSt} {localSeq : BitVec 32} (hfresh : SendFresh fs localSeq) (flowId : BitVec 32)
    (ops : List SendOp) (hfits : Run.All (sendStep flowId) sendFits (sendInit fs) ops)
    (horder : Run.All (sendStep flowId) sendInOrder (sendInit fs) ops) :
    ∀ s, Run.exec (sendStep flowId) (sendInit fs) ops = some s →
      s.Coherent localSeq ∧ ∀ e ∈ s.sent, e.InStream localSeq s.stream := by
  intro s hs
  have h := Run.exec_inv (sendStep_streams flowId) hfresh.streams (hfits.and horder) hs
  exact ⟨h.coherent, h.sent⟩

/-- Twelve bytes are sent in two segments, the first of which is acknowledged
in between. -/
theorem sent_stream_two_segments :
    SendFresh (zeroedFlow 64 0 1000) 1000 ∧
    ∃ s, Run.exec (sendStep 0) (sendInit (zeroedFlow 64 0 1000))
        [.publish [0, 1, 2, 3, 4, 5, 6, 7], .call (.bump 1 8 0 0), .call (.qman 0 0 0),
          .call (.packet (.ofStream countingBytes 0 0 0 1008 56) 0 fun _ => (0, 0)), .publish [8, 9, 10, 11],
          .call (.bump 2 4 0 0), .call (.qman 0 0 0)] = some s ∧
      s.Coherent 1000 ∧ ∀ e ∈ s.sent, e.InStream 1000 s.stream := by
  exact ⟨sendFresh_zeroed, Run.exists_exec (by decide +kernel) fun s hs =>
    sent_stream sendFresh_zeroed 0 _ (by decide +kernel) (by decide +kernel) s hs⟩

/-- Eight bytes are sent and a timeout follows: the bytes to send again have
the sequence numbers after their own. -/
theorem sent_reset_incoherent :
    ¬ ∀ (fs : FlowSt) (localSeq : BitVec 32), SendFresh fs localSeq → ∀ (flowId : BitVec 32) (ops : List SendOp),
      ∀ s, Run.exec (sendStep flowId) (sendInit fs) ops = some s → s.Coherent localSeq := by
  intro h
  exact Run.not_forall_exec (by decide +kernel) (h (zeroedFlow 64 0 1000) 1000 sendFresh_zeroed 0
    [.publish [0, 1, 2, 3, 4, 5, 6, 7], .call (.bump 1 8 0 0), .call (.qman 0 0 0), .call .retransmit])

/-! ## The window of the peer -/

/-- The queue manager's turn finds nothing to send, or a window that was
recorded since transmission was last reset with bytes in flight and is not
smaller than what is in flight. -/
def sendWindow (s : SendRun) : SendOp → Prop
  | .call (.qman ctxId newCore _) => newCore = ctxId →
      rqNbytesEnqueued s.fs.tx = 0 ∨ s.fs.rxRemoteAvail = s.fs.txSent ∨
        (s.inflated = false ∧ s.fs.txSent ≤ s.fs.rxRemoteAvail)
  | _ => True

instance (s : SendRun) : ∀ op, Decidable (sendWindow s op)
  | .call (.qman ctxId newCore _) => inferInstanceAs (Decidable (newCore = ctxId → _ ∨ _ ∨ _ ∧ _))
  | .call (.packet ..) | .call (.bump ..) | .call .retransmit | .publish _ | .setRx _ => isTrue trivial

/-- Every segment sent kept what is in flight within the last window. -/
def SendRun.WithinWindow (s : SendRun) : Prop := ∀ e ∈ s.sent, e.inFlight ≤ e.wnd
deriving Decidable

/-- Without a reset the window is the last one recorded. -/
structure SendRun.Windowed (s : SendRun) : Prop where
  recorded : s.inflated = false → s.fs.rxRemoteAvail = s.lastWnd
  sent : s.WithinWindow

theorem tcpTxavail_eq_zero (h : rqNbytesEnqueued fs.tx = 0 ∨ fs.rxRemoteAvail = fs.txSent) :
    tcpTxavail fs none = 0 := by
  have h' := toNat_tcpTxavail_le fs
  apply BitVec.eq_of_toNat_eq
  rcases h with h | h
  · rw [h] at h'
    exact Nat.le_zero.mp h'.2
  · rw [h, BitVec.sub_self] at h'
    exact Nat.le_zero.mp h'.1

theorem qmanSent_le (h : fs.txSent ≤ fs.rxRemoteAvail) : (qmanSent fs).txSent ≤ fs.rxRemoteAvail := by
  have h₁ := BitVec.le_def.mp h
  have h₂ := (qmanLen_le fs).2.1
  rw [toNat_sub_of_le h₁] at h₂
  show fs.txSent + qmanLen fs ≤ _
  rw [BitVec.le_def, BitVec.toNat_add_of_lt (by omega)]
  omega

/-- The window after a packet that neither sets it nor resets transmission
with bytes in flight. -/
theorem fastFlowsPacket_avail {p : RxPacket} {flowId ts : BitVec 32} {env : RdmaEnv}
    (hr : fastFlowsPacket fs flowId p ts env = some r) (hrec : packetRecords fs p = false)
    (hreset : packetSlow fs p = false → ackResets fs p = true → fs.txSent = 0) :
    r.fs.rxRemoteAvail = fs.rxRemoteAvail := by
  rcases fastFlowsPacket_tx hr with ⟨-, hs⟩ | ⟨hslow, a, ha, -, -, -, havail⟩
  · exact hs.avail
  rw [havail, hrec, if_neg Bool.false_ne_true]
  rcases packetAck_tx ha with ⟨-, hs, -⟩ | ⟨b, d, hb, -, -, -, -, he, -, havail'⟩
  · exact hs.avail
  rw [havail', he]
  split
  · rename_i h
    have h0 := hreset hslow h
    simp only [ackResets, hb, Bool.and_eq_true, beq_iff_eq, some.injEq] at h
    simp [h0, h.1.1]
  · rfl

theorem sendStep_windowed (flowId : BitVec 32) (s : SendRun) (op : SendOp) (s' : SendRun) (h : s.Windowed)
    (hok : sendWindow s op) (hs : sendStep flowId s op = some s') : s'.Windowed := by
  cases op with
  | publish bytes =>
    obtain ⟨q, hq, rfl⟩ := map_eq_some_iff.mp hs
    exact ⟨h.recorded, h.sent⟩
  | setRx q =>
    cases hs
    exact ⟨h.recorded, h.sent⟩
  | call c =>
    obtain ⟨r, hr, rfl⟩ := map_eq_some_iff.mp hs
    -- only the queue manager's turn sends
    have keep (hnone : s.sentBy r c = []) (hrec : (s.after c r).inflated = false →
        r.fs.rxRemoteAvail = s.windowAfter c) : (s.after c r).Windowed := by
      refine ⟨hrec, ?_⟩
      simp only [SendRun.WithinWindow, SendRun.after, hnone, append_nil]
      exact h.sent
    cases c with
    | packet p ts env =>
      refine keep rfl fun hinf => ?_
      simp only [SendRun.after, SendRun.inflatedAfter] at hinf
      simp only [SendRun.windowAfter]
      split
      · rename_i hrec
        rcases fastFlowsPacket_tx hr with ⟨hslow, -⟩ | ⟨-, a, -, -, -, -, havail⟩
        · simp [packetRecords, hslow] at hrec
        · rw [havail, if_pos hrec]
      · rename_i hrec
        rw [Bool.not_eq_true] at hrec
        simp only [hrec, Bool.not_false, Bool.true_and, Bool.or_eq_false_iff] at hinf
        rw [fastFlowsPacket_avail hr hrec fun hslow hres => by simpa [hslow, hres] using hinf.2]
        exact h.recorded hinf.1
    | bump bumpSeq txBump flags ts =>
      cases hr
      refine keep rfl fun hinf => ?_
      rw [(fastFlowsBump_tx s.fs flowId bumpSeq txBump flags ts).avail]
      exact h.recorded hinf
    | retransmit =>
      cases hr
      refine keep rfl fun hinf => ?_
      obtain ⟨hinf, h0⟩ := Bool.or_eq_false_iff.mp hinf
      rw [fastFlowsRetransmit_fs, if_pos (by simpa using h0)]
      exact h.recorded hinf
    | qman ctxId newCore ts =>
      rcases sentBy_qman hr with ⟨hfs, hnone⟩ | ⟨hcore, hne, hfs, hsent⟩
      · exact keep hnone fun hinf => hfs ▸ h.recorded hinf
      · obtain hz | hz | ⟨hinf, hle⟩ := hok hcore
        · exact absurd (tcpTxavail_eq_zero (.inl hz)) hne
        · exact absurd (tcpTxavail_eq_zero (.inr hz)) hne
        · refine ⟨fun hinf => (congrArg FlowSt.rxRemoteAvail hfs).trans (h.recorded hinf), fun e he => ?_⟩
          simp only [SendRun.after, hsent, mem_append, mem_singleton] at he
          rcases he with he | rfl
          · exact h.sent e he
          · exact h.recorded hinf ▸ qmanSent_le hle

/-- In every run in which turns of the queue manager find nothing to send, or a
window recorded since the last reset with bytes in flight and not smaller than
what is in flight, every segment keeps what is in flight within the last
window recorded from the peer. -/
theorem sent_within_window (fs : FlowSt) (flowId : BitVec 32) (ops : List SendOp)
    (hwnd : Run.All (sendStep flowId) sendWindow (sendInit fs) ops) :
    ∀ s, Run.exec (sendStep flowId) (sendInit fs) ops = some s → s.WithinWindow := by
  intro s hs
  have h₀ : (sendInit fs).Windowed := ⟨fun _ => rfl, by simp [SendRun.WithinWindow, sendInit]⟩
  exact (Run.exec_inv (sendStep_windowed flowId) h₀ hwnd hs).sent

/-- The peer acknowledges ten bytes with a window of three, and three of the
next five bytes are sent. -/
theorem sent_within_window_small :
    ∃ s, Run.exec (sendStep 0) (sendInit (zeroedFlow 64 0 1000))
        [.publish [0, 1, 2, 3, 4, 5, 6, 7, 8, 9], .call (.bump 1 10 0 0), .call (.qman 0 0 0),
          .call (.packet (.ofStream countingBytes 0 0 0 1010 3) 0 fun _ => (0, 0)), .publish [10, 11, 12, 13, 14],
          .call (.bump 2 5 0 0), .call (.qman 0 0 0), .call (.qman 0 0 0)] = some s ∧ s.WithinWindow := by
  exact Run.exists_exec (by decide +kernel) fun s hs => sent_within_window (zeroedFlow 64 0 1000) 0 _ (by decide +kernel) s hs

/-- Ten bytes are in flight when the peer shrinks its window to five. The
next byte of the application makes the fast path send eleven more. -/
theorem sent_beyond_window :
    ¬ ∀ (fs : FlowSt) (localSeq : BitVec 32), SendFresh fs localSeq → ∀ (flowId : BitVec 32) (ops : List SendOp),
      ∀ s, Run.exec (sendStep flowId) (sendInit fs) ops = some s → s.WithinWindow := by
  intro h
  exact Run.not_forall_exec (by decide +kernel) (h (zeroedFlow 64 0 1000) 1000 sendFresh_zeroed 0
    [.publish [0, 1, 2, 3, 4, 5, 6, 7, 8, 9], .call (.bump 1 10 0 0), .call (.qman 0 0 0),
      .call (.packet (.ofStream countingBytes 0 0 0 1000 5) 0 fun _ => (0, 0)), .publish [10],
      .call (.bump 2 1 0 0), .call (.qman 0 0 0)])

end TasNic
