import TasNic.Fast.Transmit

/-!
# Acknowledgements

The first byte not acknowledged has sequence number `una = tx_next_seq - tx_sent`, and the
transmit queue holds `E` bytes from there on. `tcp_valid_rxack` adds `E` to `tx_next_seq` and
not to `una`, and the branch for bytes not sent takes only the bytes after those in flight out of
the queue. So acknowledgements are right exactly if nothing is in flight, or if they cover only
bytes in flight or are far off (`AckPlain`).
-/

namespace TasNic

open Circ RdmaQueue Serial

/-- `una`, the sequence number of the first byte in the transmit queue. -/
def FlowSt.una (fs : FlowSt) : BitVec 32 := fs.txNextSeq - fs.txSent

/-- How far an acknowledgement is ahead of `una`. -/
def FlowSt.ahead (fs : FlowSt) (ack : BitVec 32) : Nat := (ack - fs.una).toNat

/-- An acknowledgement of `a` bytes: they leave the queue, in which nothing else changes,
and are no longer in flight. -/
structure AckTaken (fs fs' : FlowSt) (ack : BitVec 32) (a : Nat) : Prop where
  removed : rqNbytesEnqueued fs'.tx + a = rqNbytesEnqueued fs.tx
  queue : fs'.tx = fs.tx.setRxOffset (adv fs.tx.bufferSize fs.tx.rxOffset a)
  una : fs'.una = ack
  sent : fs'.txSent.toNat = fs.txSent.toNat - a

/-- The acknowledgement of a packet is taken if it is for bytes in the queue, taking the
bytes out does not fail, and after the acknowledgement and after the packet they are gone. -/
def AckRight (fs : FlowSt) (p : RxPacket) : Prop :=
  ((tcpValidRxack fs p.ackno).isSome ↔ fs.ahead p.ackno ≤ rqNbytesEnqueued fs.tx) ∧
  ∃ a, packetAck fs p = some a ∧ (fs.ahead p.ackno ≤ rqNbytesEnqueued fs.tx →
    AckTaken fs a.fs p.ackno (fs.ahead p.ackno) ∧
    ∀ flowId ts env r, fastFlowsPacket fs flowId p ts env = some r → AckTaken fs r.fs p.ackno (fs.ahead p.ackno))

/-- While bytes are in flight, the acknowledgement is for bytes in flight or for none that
`tcp_valid_rxack` takes, and does not reset transmission. -/
def AckPlain (fs : FlowSt) (p : RxPacket) : Prop :=
  fs.txSent ≠ 0 →
    (fs.ahead p.ackno ≤ fs.txSent.toNat ∨ rqNbytesEnqueued fs.tx + fs.txSent.toNat < fs.ahead p.ackno) ∧
      ackResets fs p = false
deriving Decidable

/-- `tcp_valid_rxack`, wherever the interval wraps. -/
theorem tcpValidRxack_eq {fs : FlowSt} (h : rqNbytesEnqueued fs.tx + fs.txSent.toNat < 2 ^ 32) (ack : BitVec 32) :
    tcpValidRxack fs ack =
      if fs.ahead ack ≤ rqNbytesEnqueued fs.tx + fs.txSent.toNat then some (ack - fs.una) else none := by
  have hend : fs.txNextSeq + BitVec.ofNat 32 (rqNbytesEnqueued fs.tx) =
      fs.una + (fs.txSent + BitVec.ofNat 32 (rqNbytesEnqueued fs.tx)) := by
    simp only [FlowSt.una]
    grind
  have hlen : (fs.txSent + BitVec.ofNat 32 (rqNbytesEnqueued fs.tx)).toNat =
      rqNbytesEnqueued fs.tx + fs.txSent.toNat := by
    rw [BitVec.toNat_add_of_lt (by rw [toNat_ofNat_of_lt (by omega)]; omega), toNat_ofNat_of_lt (by omega), Nat.add_comm]
  have hadd := toNat_add_cases fs.una (fs.txSent + BitVec.ofNat 32 (rqNbytesEnqueued fs.tx))
  have hsub := toNat_sub_cases ack fs.una
  have ha : fs.ahead ack = (ack - fs.una).toNat := rfl
  simp only [tcpValidRxack, hend, ← FlowSt.una.eq_1, BitVec.lt_def, BitVec.le_def, gt_iff_lt]
  rw [hlen] at hadd
  rw [← ha] at hsub
  -- whether the interval wraps, and then whether the acknowledgement is in it
  rcases hadd with ⟨hwrap, hb⟩ | ⟨hwrap, hb⟩
  · rw [if_pos (by omega)]
    split
    · rw [if_neg (by omega)]
    · rw [if_pos (by omega)]
  · rw [if_neg (by omega)]
    split
    · rw [if_neg (by omega)]
    · rw [if_pos (by omega)]

section

variable {fs : FlowSt} {P D : Nat} {p : RxPacket}

theorem NicTx.dequeue_fits {q : RdmaQueue} (h : NicTx q P D) {sz : Nat} (hsz : sz ≤ rqNbytesEnqueued q) :
    rqTryDequeue q false sz = some ⟨q.setRxOffset (adv q.bufferSize q.rxOffset sz), 0, []⟩ := by
  have h₂ := h.lap
  have hle : sz ≤ q.bufferSize := by
    rw [h.enqueued] at hsz
    omega
  rw [rqTryDequeue, rqTryPossibleDequeue_fits false true h.rxAddr h.size_pos h.rx hsz hle, h.rx,
    adv_pos h.size_pos hle]
  rfl

theorem NicTx.packetDequeue_isSome {b : BitVec 32} (h : NicTx fs.tx P D)
    (hb : (if b ≤ fs.txSent then b else b - fs.txSent).toNat ≤ rqNbytesEnqueued fs.tx) :
    (packetDequeue fs b).isSome := by
  unfold packetDequeue
  split
  all_goals
    rename_i hle
    simp only [hle, if_true, if_false] at hb
    rw [h.dequeue_fits hb]
    rfl

/-- No more bytes are taken out than are there. -/
theorem SendSt.dequeue_le (h : SendSt fs P D) {b : BitVec 32} (hb : b.toNat ≤ rqNbytesEnqueued fs.tx + fs.txSent.toNat) :
    (if b ≤ fs.txSent then b else b - fs.txSent).toNat ≤ rqNbytesEnqueued fs.tx := by
  have hE := h.queue.enqueued; have h₃ := h.sent
  split
  · rename_i hle
    rw [BitVec.le_def] at hle
    omega
  · rename_i hlt
    rw [BitVec.le_def, Nat.not_le] at hlt
    rw [toNat_sub_of_le (by omega)]
    omega

/-- Processing an acknowledgement never fails: `tcp_valid_rxack` takes none for more bytes
than can be taken out of the queue. -/
theorem SendSt.packetAck_isSome (h : SendSt fs P D) (p : RxPacket) : (packetAck fs p).isSome := by
  have hE := h.queue.enqueued; have h₁ := h.queue.lap; have h₂ := h.queue.size; have h₃ := h.sent
  have hsum : rqNbytesEnqueued fs.tx + fs.txSent.toNat < 2 ^ 32 := by omega
  simp only [packetAck]
  split
  · split
    · rfl
    · rename_i b hb
      have hv := tcpValidRxack_eq hsum p.ackno
      rw [show tcpValidRxack fs p.ackno = some b from hb] at hv
      have hle : b.toNat ≤ rqNbytesEnqueued fs.tx + fs.txSent.toNat := by
        split at hv
        · cases hv
          assumption
        · cases hv
      have hsome : ∀ fs' : FlowSt, fs'.tx = fs.tx → fs'.txSent = fs.txSent → packetDequeue fs' b ≠ none := by
        intro fs' htx hsent
        refine Option.isSome_iff_ne_none.mp (NicTx.packetDequeue_isSome (htx ▸ h.queue) ?_)
        rw [htx, hsent]
        exact h.dequeue_le hle
      split
      · rename_i hn
        exact absurd hn (hsome _ rfl rfl)
      · rfl
  · rfl

theorem ack_counts (next : BitVec 32) {sent b : BitVec 32} {reset : Bool}
    (h : sent = 0 ∨ b ≤ sent ∧ reset = false) :
    (if b ≤ sent then b else b - sent) = b ∧
    (if b ≤ sent then next else next + (b - sent)) -
      (if reset then 0 else if b ≤ sent then sent - b else 0) = next - sent + b ∧
    (if reset then 0 else if b ≤ sent then sent - b else 0).toNat = sent.toNat - b.toNat := by
  rcases h with rfl | ⟨hb, rfl⟩
  · by_cases hb : b = 0#32
    · simp [hb]
    · simp [hb]
  · have := toNat_sub_of_le (BitVec.le_def.mp hb)
    simp only [hb, if_true, if_false, Bool.false_eq_true, this, and_true, true_and]
    grind

/-- What an acknowledgement that `tcp_valid_rxack` takes does. -/
theorem SendSt.ack_taken (h : SendSt fs P D) (hack : p.has tcpAck)
    (hle : fs.ahead p.ackno ≤ rqNbytesEnqueued fs.tx + fs.txSent.toNat) {a : AckResult} (ha : packetAck fs p = some a) :
    ∃ sz, sz = (if p.ackno - fs.una ≤ fs.txSent then p.ackno - fs.una else p.ackno - fs.una - fs.txSent).toNat ∧
      sz ≤ rqNbytesEnqueued fs.tx ∧ rqNbytesEnqueued a.fs.tx + sz = rqNbytesEnqueued fs.tx ∧
      a.fs.tx = fs.tx.setRxOffset (adv fs.tx.bufferSize fs.tx.rxOffset sz) ∧
      a.fs.txNextSeq = (if p.ackno - fs.una ≤ fs.txSent then fs.txNextSeq
        else fs.txNextSeq + (p.ackno - fs.una - fs.txSent)) ∧
      a.fs.txSent = (if ackResets fs p then 0
        else if p.ackno - fs.una ≤ fs.txSent then fs.txSent - (p.ackno - fs.una) else 0) := by
  have hE := h.queue.enqueued; have h₁ := h.queue.lap; have h₂ := h.queue.size; have h₃ := h.sent
  have hfit : rqNbytesEnqueued fs.tx + fs.txSent.toNat < 2 ^ 32 := by omega
  have hv := tcpValidRxack_eq hfit p.ackno
  rw [if_pos hle] at hv
  have hbump : ackBump fs p = some (p.ackno - fs.una) := by rw [ackBump, if_pos hack, hv]
  rcases packetAck_tx ha with ⟨hn, -, -⟩ | ⟨b, d, hb, hd, hrv, htx, hnext, hreset, hsent, -⟩
  · rw [hbump] at hn
    cases hn
  rw [hbump] at hb
  cases hb
  have hsz := h.dequeue_le hle
  have hfits := h.queue.dequeue_fits hsz
  rw [hfits, Option.some.injEq] at hd
  rw [← hd] at htx
  refine ⟨_, rfl, hsz, ?_, htx, hnext, ?_⟩
  · rw [htx, (h.queue.dequeue hfits rfl).2.1.enqueued]
    omega
  · rw [hsent, hreset]

/-- An acknowledgement is right exactly if it is plain. -/
theorem packet_ack_right (h : SendSt fs P D) (hack : p.has tcpAck) (hslow : packetSlow fs p = false) :
    AckRight fs p ↔ AckPlain fs p := by
  have hE := h.queue.enqueued; have h₁ := h.queue.lap; have h₂ := h.queue.size; have h₃ := h.sent
  have hfit : rqNbytesEnqueued fs.tx + fs.txSent.toNat < 2 ^ 32 := by omega
  have hv := tcpValidRxack_eq hfit p.ackno
  have hbytes : fs.ahead p.ackno = (p.ackno - fs.una).toNat := rfl
  constructor
  · rintro ⟨hvalid, a, ha, htaken⟩ h0
    have h0' : 0 < fs.txSent.toNat := Nat.pos_of_ne_zero fun e => h0 (BitVec.eq_of_toNat_eq e)
    refine ⟨?_, ?_⟩
    · by_contra hc
      have hle : fs.ahead p.ackno ≤ rqNbytesEnqueued fs.tx + fs.txSent.toNat := by omega
      rw [hv, if_pos hle] at hvalid
      obtain ⟨sz, hsz, -, hleft, -⟩ := h.ack_taken hack hle ha
      have hgone := (htaken (hvalid.mp rfl)).1.removed
      rw [if_neg (by rw [BitVec.le_def]; omega), toNat_sub_of_le (by omega)] at hsz
      omega
    · by_contra hr
      rw [Bool.not_eq_false] at hr
      have hb : ackBump fs p = some 0 := by
        simp only [ackResets, Bool.and_eq_true, beq_iff_eq] at hr
        exact hr.1.1
      rw [ackBump, if_pos hack, hv] at hb
      split at hb
      · rename_i hle
        have hzero : p.ackno - fs.una = 0 := Option.some.inj hb
        obtain ⟨sz, -, -, -, -, hnext, hsent⟩ := h.ack_taken hack hle ha
        have huna := (htaken (by rw [hbytes, hzero]; exact Nat.zero_le _)).1.una
        rw [FlowSt.una, hnext, hsent, hr, if_pos rfl, hzero, if_pos (BitVec.le_def.mpr (Nat.zero_le _))] at huna
        rw [← huna, FlowSt.una] at hzero
        refine h0 ?_
        rw [← hzero]
        grind
      · cases hb
  · intro hplain
    have hiff : fs.ahead p.ackno ≤ rqNbytesEnqueued fs.tx + fs.txSent.toNat ↔
        fs.ahead p.ackno ≤ rqNbytesEnqueued fs.tx := by
      by_cases h0 : fs.txSent = 0
      · rw [h0]
        rfl
      · have := (hplain h0).1
        omega
    obtain ⟨a, ha⟩ := Option.isSome_iff_exists.mp (h.packetAck_isSome p)
    refine ⟨?_, a, ha, fun hle => ?_⟩
    · rw [hv, ← hiff]
      split <;> simp_all
    have hcase : fs.txSent = 0 ∨ p.ackno - fs.una ≤ fs.txSent ∧ ackResets fs p = false := by
      by_cases h0 : fs.txSent = 0
      · exact .inl h0
      · obtain ⟨hin, hno⟩ := hplain h0
        exact .inr ⟨BitVec.le_def.mpr (hin.resolve_right (by omega)), hno⟩
    obtain ⟨hk, huna, hleft⟩ := ack_counts fs.txNextSeq hcase
    obtain ⟨sz, hsz, -, hgone, htx, hnext, hsent⟩ := h.ack_taken hack (hiff.mpr hle) ha
    rw [hk, ← hbytes] at hsz
    subst hsz
    have htaken : AckTaken fs a.fs p.ackno (fs.ahead p.ackno) := by
      refine ⟨hgone, htx, ?_, ?_⟩
      · rw [FlowSt.una, hsent, hnext, huna]
        show fs.una + (p.ackno - fs.una) = p.ackno
        grind
      · rw [hsent, hleft]
        rfl
    refine ⟨htaken, fun flowId ts env r hr => ?_⟩
    rcases fastFlowsPacket_tx hr with ⟨hs, -⟩ | ⟨-, a', ha', htx', hsent', hnext', -⟩
    · rw [hslow] at hs
      cases hs
    rw [ha] at ha'
    cases ha'
    exact ⟨htx' ▸ htaken.removed, htx'.trans htaken.queue, by rw [FlowSt.una, hsent', hnext']; exact htaken.una,
      hsent' ▸ htaken.sent⟩

end

/-- A flow with 16 bytes to send, the first of which has sequence number `2³² - 2`. Eight of
them are in flight, and `dupacks` duplicate acknowledgements have arrived. -/
def flowInFlight (dupacks : BitVec 32) : FlowSt :=
  { zeroedFlow 64 0 6 with
    tx := ((zeroedQueue 8192 64).setTxOffset 16).setFlushOffset 16
    txSent := 8
    rxDupackCnt := dupacks }

theorem sendSt_flowInFlight (dupacks : BitVec 32) : SendSt (flowInFlight dupacks) 16 0 :=
  ⟨⟨rfl, show rdmaQueuePad < 64 by decide, show 64 < 2 ^ 31 by decide, rfl, rfl, Nat.zero_le _,
    show 16 + rdmaQueuePad ≤ 0 + 64 by decide⟩, show 0 + 8 ≤ 16 by decide⟩

def ackPacket (ack : BitVec 32) : RxPacket := .ofStream (fun _ => 0) 0 0 0 ack 100

theorem packet_ack_right_wrapped :
    (ackPacket 3).has tcpAck ∧ packetSlow (flowInFlight 0) (ackPacket 3) = false ∧
    AckPlain (flowInFlight 0) (ackPacket 3) ∧ AckRight (flowInFlight 0) (ackPacket 3) :=
  ⟨by decide, by decide, by decide,
    (packet_ack_right (sendSt_flowInFlight 0) (by decide) (by decide)).mpr (by decide)⟩

/-- Eight of 16 bytes in flight, and an acknowledgement of 12, of 20, and for the third time
of none. -/
def ackSlips : List (FlowSt × RxPacket) :=
  [(flowInFlight 0, ackPacket 10), (flowInFlight 0, ackPacket 18),
    (flowInFlight 2, ackPacket 0xFFFFFFFE)]

/-- Four bytes leave the queue for the first, the second is taken although there are only 16
bytes, and after the third `una` has moved. -/
theorem packet_ack_slips :
    ackSlips.Forall fun s => SendSt s.1 16 0 ∧ s.2.has tcpAck ∧ packetSlow s.1 s.2 = false ∧ ¬ AckRight s.1 s.2 := by
  refine ⟨⟨sendSt_flowInFlight 0, by decide, by decide, fun h => ?_⟩,
    ⟨sendSt_flowInFlight 0, by decide, by decide, fun h => ?_⟩,
    ⟨sendSt_flowInFlight 2, by decide, by decide, fun h => ?_⟩⟩
  · obtain ⟨-, a, ha, htaken⟩ := h
    have hbad : ∀ a ∈ packetAck (flowInFlight 0) (ackPacket 10), rqNbytesEnqueued a.fs.tx = 12 := by decide +kernel
    have := (htaken (by decide)).1.removed
    rw [hbad a ha] at this
    exact absurd this (by decide)
  · exact absurd (h.1.mp (by decide)) (by decide)
  · obtain ⟨-, a, ha, htaken⟩ := h
    have hbad : ∀ a ∈ packetAck (flowInFlight 2) (ackPacket 0xFFFFFFFE), a.fs.una = 6 := by decide +kernel
    have := (htaken (by decide)).1.una
    rw [hbad a ha] at this
    exact absurd this (by decide)

end TasNic
