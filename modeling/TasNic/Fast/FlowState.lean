import TasNic.Rdma.Queue
import TasNic.Lib.Serial

/-!
# Flow state and TCP arithmetic (`include/tas_memif.h`, `tas_nic/fast/tcp_common.h`)

The state the fast path keeps for a flow, and the decisions on sequence numbers, which are
32-bit words. `tcpTrimRxbuf` has a slip: it does not trim the end of a segment that starts inside
the window and wraps, if the window does not (`TrimSlip`). `tcpValidRxseq` drops such a segment if it
reaches the next byte expected (`RxseqSlip`).
-/

namespace TasNic

open Option Serial

/-- `struct flextcp_pl_flowst`, without its lock. -/
structure FlowSt where
  appOpaque : BitVec 64
  rx : RdmaQueue
  rxFlags : BitVec 64
  tx : RdmaQueue
  localIp : BitVec 32
  remoteIp : BitVec 32
  localPort : BitVec 16
  remotePort : BitVec 16
  remoteMac : BitVec 48
  dbId : BitVec 16
  flowGroup : BitVec 16
  bumpSeq : BitVec 16
  rxNextSeq : BitVec 32
  rxRemoteAvail : BitVec 32
  rxDupackCnt : BitVec 32
  rxOooStart : BitVec 32
  rxOooLen : BitVec 32
  txSent : BitVec 32
  txNextSeq : BitVec 32
  txNextTs : BitVec 32
  txRate : BitVec 32
  cntTxDrops : BitVec 16
  cntRxAcks : BitVec 16
  cntRxAckBytes : BitVec 32
  cntRxEcnBytes : BitVec 32
  rttEst : BitVec 32

/-- `FLEXNIC_PL_FLOWST_SLOWPATH`. -/
def flowstSlowpath : BitVec 64 := 1
/-- `FLEXNIC_PL_FLOWST_ECN`. -/
def flowstEcn : BitVec 64 := 8
/-- `FLEXNIC_PL_FLOWST_TXFIN`. -/
def flowstTxfin : BitVec 64 := 16
/-- `FLEXNIC_PL_FLOWST_RXFIN`. -/
def flowstRxfin : BitVec 64 := 32

namespace FlowSt

/-- A flag of `rx_flags` is set. -/
def has (fs : FlowSt) (flag : BitVec 64) : Bool := fs.rxFlags &&& flag == flag

/-- Setting a flag of `rx_flags`. -/
def raise (fs : FlowSt) (flag : BitVec 64) : FlowSt := { fs with rxFlags := fs.rxFlags ||| flag }

end FlowSt

/-- The arguments of `nicif_connection_add` that go into the flow state. -/
structure ConnArgs where
  db : BitVec 16
  macRemote : BitVec 48
  ipLocal : BitVec 32
  portLocal : BitVec 16
  ipRemote : BitVec 32
  portRemote : BitVec 16
  rx : RdmaQueue
  tx : RdmaQueue
  remoteSeq : BitVec 32
  localSeq : BitVec 32
  appOpaque : BitVec 64
  ecn : Bool
  rate : BitVec 32
  flowGroup : BitVec 16

/-- The flow state `nicif_connection_add` makes from the state the slot had
before: the out-of-order interval, the count of duplicate acknowledgements
and the statistics are not set. -/
def flowstInit (fs : FlowSt) (a : ConnArgs) : Option FlowSt :=
  if a.rx.endpoints.tx.addr ≠ a.rx.self then none
  else if a.tx.endpoints.rx.addr ≠ a.tx.self then none
  else some { fs with
    appOpaque := a.appOpaque
    rxFlags := if a.ecn then flowstEcn else 0
    rx := a.rx
    tx := a.tx
    remoteMac := a.macRemote
    dbId := a.db
    localIp := a.ipLocal
    remoteIp := a.ipRemote
    localPort := a.portLocal
    remotePort := a.portRemote
    flowGroup := a.flowGroup
    bumpSeq := 0
    rxNextSeq := a.remoteSeq
    rxRemoteAvail := BitVec.ofNat 32 (rqNbytesEmpty a.rx)
    txSent := 0
    txNextSeq := a.localSeq
    txNextTs := 0
    txRate := a.rate
    rttEst := 0 }

/-- A flow state with two new queues of `size` bytes and nothing else in it. -/
def zeroedFlow (size : Nat) (remoteSeq localSeq : BitVec 32) : FlowSt :=
  ⟨0, zeroedQueue 4096 size, 0, zeroedQueue 8192 size, 0, 0, 0, 0, 0, 0, 0, 0, remoteSeq,
    BitVec.ofNat 32 (size - rdmaQueuePad), 0, 0, 0, 0, localSeq, 0, 0, 0, 0, 0, 0, 0⟩

/-- The comparisons of `tcp_trim_rxbuf` on the ends of a packet interval and
of the unused receive buffer. -/
def trimEnds (pseqA pseqB sseqA sseqB : BitVec 32) : Option (BitVec 32 × BitVec 32) :=
  if pseqA ≤ pseqB ∧ sseqA ≤ sseqB then
    -- neither packet interval nor receive buffer split
    if pseqB < sseqA then none
    else if pseqA > sseqB then none
    else some (if pseqA < sseqA then sseqA - pseqA else 0, if pseqB > sseqB then pseqB - sseqB else 0)
  else if pseqA ≤ pseqB ∧ sseqA > sseqB then
    -- packet interval not split, but receive buffer split
    if pseqA > sseqB ∧ pseqB < sseqA then none
    else some (if pseqA > sseqB ∧ pseqA < sseqA then sseqA - pseqA else 0,
      if pseqB ≥ sseqB ∧ pseqB < sseqA then pseqB - sseqB else 0)
  else if pseqA > pseqB ∧ sseqA ≤ sseqB then
    -- packet interval split, receive buffer not split
    if pseqA > sseqB ∧ pseqB < sseqA then none
    else some (if sseqA ≤ pseqB ∨ sseqA > pseqA then sseqA - pseqA else 0,
      if pseqB > sseqB ∨ sseqA ≥ pseqA then pseqB - sseqB else 0)
  else
    -- both intervals split
    some (if pseqA < sseqA then sseqA - pseqA else 0, if pseqB > sseqB then pseqB - sseqB else 0)

/-- `tcp_trim_rxbuf`: how many bytes of a segment to trim off its start and
its end to fit it into the unused part of the receive buffer, as 16-bit
words; `none` to drop it. -/
def tcpTrimRxbuf (fs : FlowSt) (pktSeq : BitVec 32) (pktBytes : BitVec 16) : Option (BitVec 16 × BitVec 16) :=
  (trimEnds pktSeq (pktSeq + pktBytes.setWidth 32) fs.rxNextSeq
    (fs.rxNextSeq + BitVec.ofNat 32 (rqNbytesEmpty fs.rx))).map fun t => (t.1.setWidth 16, t.2.setWidth 16)

/-- `tcp_valid_rxack` with `ALLOW_FUTURE_ACKS`: the bytes a valid
acknowledgement covers. -/
def tcpValidRxack (fs : FlowSt) (ack : BitVec 32) : Option (BitVec 32) :=
  let fsackA := fs.txNextSeq - fs.txSent
  let fsackB := fs.txNextSeq + BitVec.ofNat 32 (rqNbytesEnqueued fs.tx)
  if fsackA ≤ fsackB then
    if ack < fsackA ∨ ack > fsackB then none else some (ack - fsackA)
  else if fsackA > ack ∧ ack > fsackB then none
  else some (ack - fsackA)

/-- `tcp_txavail`; `pavail` replaces the bytes in the transmit buffer. -/
def tcpTxavail (fs : FlowSt) (pavail : Option (BitVec 32)) : BitVec 32 :=
  let bufAvail := match pavail with
    | some a => a
    | none => BitVec.ofNat 32 (rqNbytesEnqueued fs.tx)
  let fcAvail := fs.rxRemoteAvail - fs.txSent
  if fcAvail < bufAvail then fcAvail else bufAvail

/-! ## What is left after trimming -/

/-- A segment that wraps and starts strictly inside a window that does not. -/
def TrimSlip (fs : FlowSt) (seq : BitVec 32) (bytes : BitVec 16) : Prop :=
  let sseqB := fs.rxNextSeq + BitVec.ofNat 32 (rqNbytesEmpty fs.rx)
  seq + bytes.setWidth 32 < seq ∧ fs.rxNextSeq ≤ sseqB ∧ fs.rxNextSeq < seq ∧ seq ≤ sseqB
deriving Decidable

/-- What trimming is for. A segment of `n` bytes lies at the distance `d` from the start
of a window of `w` bytes: it is dropped if it does not touch the window, and otherwise the
bytes before and after the window are trimmed. -/
def trimmed (d : Int) (n w : Nat) : Option (Nat × Nat) :=
  if 0 ≤ d + n ∧ d ≤ w then some ((-d).toNat, (d + n - w).toNat) else none

/-- `trimEnds` for a segment of `L` bytes at `p` and a window of `w` bytes at `n`. -/
theorem trimEnds_eq {n p w pb sb : BitVec 32} {d : Int} {L : Nat} (hL : L < 2 ^ 16) (hw : w.toNat < 2 ^ 31)
    (hpb : pb = p + BitVec.ofNat 32 L) (hsb : sb = n + w) (hd : d = (p - n).toInt) :
    (trimEnds p pb n sb).map (fun t => (t.1.toNat, t.2.toNat)) =
      if 0 ≤ d + L ∧ d ≤ w.toNat then
        some ((-d).toNat, if pb < p ∧ n ≤ sb ∧ n < p ∧ p ≤ sb then 0 else (d + L - w.toNat).toNat)
      else none := by
  have hadd := toNat_add_cases n w
  have hadd' := toNat_add_cases p (BitVec.ofNat 32 L)
  rw [← hsb] at hadd
  rw [← hpb, toNat_ofNat_of_lt (by omega)] at hadd'
  have hnp := toNat_sub_cases n p
  have hbs := toNat_sub_cases pb sb
  have hz : (0 : BitVec 32).toNat = 0 := rfl
  obtain ⟨hlo, hhi, hdist⟩ := toInt_sub_cases p n
  rw [← hd] at hlo hhi hdist
  simp only [trimEnds, BitVec.lt_def, BitVec.le_def, gt_iff_lt, ge_iff_le]
  generalize pb - sb = y at *
  -- the bytes to trim play no part in the conditions
  revert hnp hbs
  -- the cases of the source: neither is split, the window, the packet, both
  rcases hadd' with ⟨hpack, hpb⟩ | ⟨hpack, hpb⟩ <;> rcases hadd with ⟨hwin, hsb⟩ | ⟨hwin, hsb⟩
  · rw [if_pos (by omega)]
    split
    · exact fun _ _ => (if_neg (by omega)).symm
    split
    · exact fun _ _ => (if_neg (by omega)).symm
    rw [if_pos (c := 0 ≤ d + L ∧ _) (by omega), if_neg (c := _ ∧ n.toNat ≤ sb.toNat ∧ _) (by omega)]
    simp only [map_some, some.injEq, Prod.mk.injEq]
    exact fun hnp hbs => ⟨by split <;> omega, by split <;> omega⟩
  · rw [if_neg (by omega), if_pos (by omega)]
    split
    · exact fun _ _ => (if_neg (by omega)).symm
    rw [if_pos (c := 0 ≤ d + L ∧ _) (by omega), if_neg (c := _ ∧ n.toNat ≤ sb.toNat ∧ _) (by omega)]
    simp only [map_some, some.injEq, Prod.mk.injEq]
    exact fun hnp hbs => ⟨by split <;> omega, by split <;> omega⟩
  · rw [if_neg (by omega), if_neg (by omega), if_pos (by omega)]
    split
    · exact fun _ _ => (if_neg (by omega)).symm
    rw [if_pos (c := 0 ≤ d + L ∧ _) (by omega)]
    simp only [map_some, some.injEq, Prod.mk.injEq]
    -- the slip: the end is only looked at if the segment is past the window or starts before it
    exact fun hnp hbs => ⟨by split <;> omega, by split <;> split <;> omega⟩
  · rw [if_neg (by omega), if_neg (by omega), if_neg (by omega)]
    rw [if_pos (c := 0 ≤ d + L ∧ _) (by omega), if_neg (c := _ ∧ n.toNat ≤ sb.toNat ∧ _) (by omega)]
    simp only [map_some, some.injEq, Prod.mk.injEq]
    exact fun hnp hbs => ⟨by split <;> omega, by split <;> omega⟩

/-- Trims below `2 ^ 16` survive as 16-bit words. -/
theorem toNat_trims {o : Option (BitVec 32 × BitVec 32)} {r : Option (Nat × Nat)}
    (h : o.map (fun t => (t.1.toNat, t.2.toNat)) = r) (hr : ∀ t ∈ r, t.1 < 2 ^ 16 ∧ t.2 < 2 ^ 16) :
    (o.map fun t => (t.1.setWidth 16, t.2.setWidth 16)).map (fun t => (t.1.toNat, t.2.toNat)) = r := by
  subst h
  cases o with
  | none => rfl
  | some t => simpa using hr _ rfl

/-- `tcp_trim_rxbuf`, with its slip. -/
theorem tcpTrimRxbuf_eq {fs : FlowSt} (hw : rqNbytesEmpty fs.rx < 2 ^ 31) (seq : BitVec 32) (bytes : BitVec 16) :
    (tcpTrimRxbuf fs seq bytes).map (fun t => (t.1.toNat, t.2.toNat)) =
      (trimmed (seq - fs.rxNextSeq).toInt bytes.toNat (rqNbytesEmpty fs.rx)).map fun t =>
        (t.1, if TrimSlip fs seq bytes then 0 else t.2) := by
  have hL := bytes.isLt
  have hw' := toNat_ofNat_of_lt (show rqNbytesEmpty fs.rx < 2 ^ 32 by omega)
  have hb := (BitVec.ofNat_toNat 32 bytes).symm
  have h := trimEnds_eq (n := fs.rxNextSeq) (p := seq) (w := BitVec.ofNat 32 (rqNbytesEmpty fs.rx)) hL
    (by rw [hw']; exact hw) rfl rfl rfl
  rw [hw'] at h
  rw [tcpTrimRxbuf, hb, toNat_trims h]
  · simp only [trimmed, TrimSlip, hb]
    split <;> rfl
  · intro t ht
    split at ht
    · cases ht
      dsimp only
      split <;> omega
    · cases ht

/-- A segment that slips touches the window and ends after it. -/
theorem TrimSlip.past {fs : FlowSt} {seq : BitVec 32} {bytes : BitVec 16} (hs : TrimSlip fs seq bytes)
    (hw : rqNbytesEmpty fs.rx < 2 ^ 31) :
    (seq - fs.rxNextSeq).toInt ≤ rqNbytesEmpty fs.rx ∧ rqNbytesEmpty fs.rx < (seq - fs.rxNextSeq).toInt + bytes.toNat := by
  obtain ⟨h₁, h₂, h₃, h₄⟩ := hs
  have hw' := toNat_ofNat_of_lt (show rqNbytesEmpty fs.rx < 2 ^ 32 by omega)
  have hwin := toNat_add_cases fs.rxNextSeq (BitVec.ofNat 32 (rqNbytesEmpty fs.rx))
  have hpack := toNat_add_cases seq (bytes.setWidth 32)
  have hd := toInt_sub_cases seq fs.rxNextSeq
  rw [hw'] at hwin
  rw [toNat_setWidth32] at hpack
  simp only [BitVec.lt_def, BitVec.le_def] at h₁ h₂ h₃ h₄
  omega

/-- Segments are trimmed as they should be, wherever they and the window wrap, exactly if there
is no slip. -/
theorem trim_rxbuf_exact (fs : FlowSt) (hw : rqNbytesEmpty fs.rx < 2 ^ 31 - 65536) (seq : BitVec 32) (bytes : BitVec 16) :
    (tcpTrimRxbuf fs seq bytes).map (fun t => (t.1.toNat, t.2.toNat)) =
      trimmed (seq - fs.rxNextSeq).toInt bytes.toNat (rqNbytesEmpty fs.rx) ↔ ¬ TrimSlip fs seq bytes := by
  rw [tcpTrimRxbuf_eq (by omega)]
  refine ⟨fun h hs => ?_, fun hs => ?_⟩
  · obtain ⟨hle, hpast⟩ := hs.past (by omega)
    rw [trimmed, if_pos (by omega)] at h
    simp only [if_pos hs, map_some, some.injEq, Prod.mk.injEq, true_and] at h
    omega
  · simp only [if_neg hs]
    exact map_id'

/-- A segment that overlaps both ends of a window around `2³²`. -/
theorem trim_rxbuf_exact_both_split :
    rqNbytesEmpty (zeroedFlow 1008 0xFFFFFF00 0).rx < 2 ^ 31 - 65536 ∧
    ((tcpTrimRxbuf (zeroedFlow 1008 0xFFFFFF00 0) 0xFFFFFEC0 1400).map (fun t => (t.1.toNat, t.2.toNat)) =
      trimmed (-64) 1400 1000 ↔ ¬ TrimSlip (zeroedFlow 1008 0xFFFFFF00 0) 0xFFFFFEC0 1400) :=
  ⟨by decide, trim_rxbuf_exact (zeroedFlow 1008 0xFFFFFF00 0) (by decide) 0xFFFFFEC0 1400⟩

/-- 100 bytes, 192 bytes into a window of 200 that ends 56 bytes before `2³²`: nothing is
trimmed, and 92 bytes should be. -/
theorem trim_rxbuf_wrapped_end :
    ¬ ∀ (fs : FlowSt) (seq : BitVec 32) (bytes : BitVec 16), rqNbytesEmpty fs.rx < 2 ^ 31 - 65536 →
      (tcpTrimRxbuf fs seq bytes).map (fun t => (t.1.toNat, t.2.toNat)) =
        trimmed (seq - fs.rxNextSeq).toInt bytes.toNat (rqNbytesEmpty fs.rx) := by
  intro h
  have := h (zeroedFlow 208 0xFFFFFF00 0) 0xFFFFFFC0 100 (by decide)
  revert this
  decide

/-- What is left of bytes that are trimmed at both ends. -/
theorem toNat_sub_trims {x : BitVec 32} {ts te : BitVec 16} (h : ts.toNat + te.toNat ≤ x.toNat) :
    (x - (ts.setWidth 32 + te.setWidth 32)).toNat = x.toNat - (ts.toNat + te.toNat) := by
  have hsum : (ts.setWidth 32 + te.setWidth 32).toNat = ts.toNat + te.toNat := by
    rw [BitVec.toNat_add_of_lt, toNat_setWidth32, toNat_setWidth32]
    rw [toNat_setWidth32, toNat_setWidth32]
    omega
  rw [toNat_sub_of_le (by rw [hsum]; exact h), hsum]

/-- What is left of a segment starts at some `a` inside the window, and ends
inside it but for the slip. -/
theorem tcpTrimRxbuf_spec {fs : FlowSt} {seq : BitVec 32} {bytes ts te : BitVec 16}
    (hw : rqNbytesEmpty fs.rx < 2 ^ 31) (h : tcpTrimRxbuf fs seq bytes = some (ts, te)) :
    ∃ a, seq + ts.setWidth 32 = fs.rxNextSeq + BitVec.ofNat 32 a ∧ a ≤ rqNbytesEmpty fs.rx ∧
      ts.toNat + te.toNat ≤ bytes.toNat ∧
      (¬ TrimSlip fs seq bytes → a + (bytes.toNat - ts.toNat - te.toNat) ≤ rqNbytesEmpty fs.rx) := by
  have e := tcpTrimRxbuf_eq hw seq bytes
  rw [h] at e
  simp only [map_some, trimmed] at e
  obtain ⟨hlo, hhi, hdist⟩ := toInt_sub_cases seq fs.rxNextSeq
  generalize hd : (seq - fs.rxNextSeq).toInt = d at *
  by_cases hacc : 0 ≤ d + bytes.toNat ∧ d ≤ rqNbytesEmpty fs.rx
  · simp only [if_pos hacc, map_some, some.injEq, Prod.mk.injEq] at e
    obtain ⟨ht, he⟩ := e
    have he' : te.toNat ≤ (d + bytes.toNat - rqNbytesEmpty fs.rx).toNat := by
      rw [he]
      split <;> omega
    refine ⟨d.toNat, ?_, by omega, by omega, fun hs => ?_⟩
    · have h₁ := toNat_add_cases seq (ts.setWidth 32)
      have h₂ := toNat_add_cases fs.rxNextSeq (BitVec.ofNat 32 d.toNat)
      rw [toNat_setWidth32] at h₁
      rw [toNat_ofNat_of_lt (by omega)] at h₂
      apply BitVec.eq_of_toNat_eq
      omega
    · rw [if_neg hs] at he
      omega
  · simp [if_neg hacc] at e

/-! ## In-order segments -/

/-- The comparisons of `tcp_valid_rxseq` on the ends of a packet interval and of the unused
receive buffer. -/
def rxseqEnds (pseqA pseqB sseqA sseqB : BitVec 32) : Option (BitVec 32 × BitVec 32) :=
  if pseqA ≤ pseqB ∧ sseqA ≤ sseqB then
    -- neither packet interval nor receive buffer split
    if pseqB < sseqA then none
    else if pseqA > sseqA then none
    else some (sseqA - pseqA, if pseqB > sseqB then pseqB - sseqB else 0)
  else if pseqA ≤ pseqB ∧ sseqA > sseqB then
    -- packet interval not split, but receive buffer split
    if pseqA ≥ sseqB ∧ pseqB < sseqA then none
    else if pseqA > sseqA ∨ pseqA < sseqB then none
    else some (sseqA - pseqA, 0)
  else if pseqA > pseqB ∧ sseqA ≤ sseqB then
    -- packet interval split, receive buffer not split
    if pseqB < sseqA then none
    else if pseqA > sseqA then none
    else some (sseqA - pseqA, if pseqB > sseqB then pseqB - sseqB else 0)
  else
    -- both intervals split
    if pseqA > sseqA then none
    else some (sseqA - pseqA, if pseqB > sseqB then pseqB - sseqB else 0)

/-- `tcp_valid_rxseq`: how many bytes of a segment to trim off its start and its end, as 16-bit
words; `none` to drop it. -/
def tcpValidRxseq (fs : FlowSt) (pktSeq : BitVec 32) (pktBytes : BitVec 16) : Option (BitVec 16 × BitVec 16) :=
  (rxseqEnds pktSeq (pktSeq + pktBytes.setWidth 32) fs.rxNextSeq
    (fs.rxNextSeq + BitVec.ofNat 32 (rqNbytesEmpty fs.rx))).map fun t => (t.1.setWidth 16, t.2.setWidth 16)

/-- What it is for. A segment of `n` bytes at the distance `d` from the next byte expected is
accepted if it has that byte or ends right before it. -/
def inOrder (d : Int) (n w : Nat) : Option (Nat × Nat) :=
  if d ≤ 0 ∧ 0 ≤ d + n then some ((-d).toNat, (d + n - w).toNat) else none

/-- A segment that wraps and reaches the next byte expected, with a window that does not wrap. -/
def RxseqSlip (fs : FlowSt) (seq : BitVec 32) (bytes : BitVec 16) : Prop :=
  seq + bytes.setWidth 32 < seq ∧ fs.rxNextSeq ≤ fs.rxNextSeq + BitVec.ofNat 32 (rqNbytesEmpty fs.rx) ∧
    (fs.rxNextSeq - seq).toNat ≤ bytes.toNat
deriving Decidable

theorem rxseqEnds_eq {n p w pb sb : BitVec 32} {d : Int} {L : Nat} (hL : L < 2 ^ 16) (hw : w.toNat < 2 ^ 31 - 65536)
    (hpb : pb = p + BitVec.ofNat 32 L) (hsb : sb = n + w) (hd : d = (p - n).toInt) :
    (rxseqEnds p pb n sb).map (fun t => (t.1.toNat, t.2.toNat)) =
      if (d ≤ 0 ∧ 0 ≤ d + L) ∧ ¬ (pb < p ∧ n ≤ sb) then some ((-d).toNat, (d + L - w.toNat).toNat) else none := by
  have hadd := toNat_add_cases n w
  have hadd' := toNat_add_cases p (BitVec.ofNat 32 L)
  rw [← hsb] at hadd
  rw [← hpb, toNat_ofNat_of_lt (by omega)] at hadd'
  have hnp := toNat_sub_cases n p
  have hbs := toNat_sub_cases pb sb
  have hz : (0 : BitVec 32).toNat = 0 := rfl
  obtain ⟨hlo, hhi, hdist⟩ := toInt_sub_cases p n
  rw [← hd] at hlo hhi hdist
  simp only [rxseqEnds, BitVec.lt_def, BitVec.le_def, gt_iff_lt, ge_iff_le]
  generalize pb - sb = y at *
  generalize n - p = x at *
  clear hpb hsb hd
  split_ifs <;> simp only [map_some, map_none, some.injEq, Prod.mk.injEq, reduceCtorEq] <;> omega

/-- Segments are accepted and trimmed as they should be, wherever they and the window wrap,
exactly if there is no slip. -/
theorem valid_rxseq_iff (fs : FlowSt) (hw : rqNbytesEmpty fs.rx < 2 ^ 31 - 65536) (seq : BitVec 32) (bytes : BitVec 16) :
    (tcpValidRxseq fs seq bytes).map (fun t => (t.1.toNat, t.2.toNat)) =
      inOrder (seq - fs.rxNextSeq).toInt bytes.toNat (rqNbytesEmpty fs.rx) ↔ ¬ RxseqSlip fs seq bytes := by
  have hL := bytes.isLt
  have hw' := toNat_ofNat_of_lt (show rqNbytesEmpty fs.rx < 2 ^ 32 by omega)
  have hb := (BitVec.ofNat_toNat 32 bytes).symm
  have h := rxseqEnds_eq (n := fs.rxNextSeq) (p := seq) (w := BitVec.ofNat 32 (rqNbytesEmpty fs.rx)) hL
    (by rw [hw']; exact hw) rfl rfl rfl
  rw [hw'] at h
  rw [tcpValidRxseq, hb, toNat_trims h, inOrder, RxseqSlip, hb]
  · have hreach : (seq - fs.rxNextSeq).toInt ≤ 0 ∧ 0 ≤ (seq - fs.rxNextSeq).toInt + bytes.toNat ↔
        (fs.rxNextSeq - seq).toNat ≤ bytes.toNat := by
      have h₁ := toInt_sub_cases seq fs.rxNextSeq
      have h₂ := toNat_sub_cases fs.rxNextSeq seq
      omega
    rw [← hreach]
    split_ifs <;> tauto
  · intro t ht
    split at ht
    · cases ht
      omega
    · cases ht

/-- A segment that has one old byte and wraps with the window. -/
theorem valid_rxseq_iff_both_split :
    rqNbytesEmpty (zeroedFlow 1008 0xFFFFFF00 0).rx < 2 ^ 31 - 65536 ∧
    ((tcpValidRxseq (zeroedFlow 1008 0xFFFFFF00 0) 0xFFFFFEFF 1400).map (fun t => (t.1.toNat, t.2.toNat)) =
      inOrder (-1) 1400 1000 ↔ ¬ RxseqSlip (zeroedFlow 1008 0xFFFFFF00 0) 0xFFFFFEFF 1400) :=
  ⟨by decide, valid_rxseq_iff (zeroedFlow 1008 0xFFFFFF00 0) (by decide) 0xFFFFFEFF 1400⟩

/-- 100 bytes around `2³²`, of which 16 are old, for a window that starts at 0: they are dropped. -/
theorem valid_rxseq_dropped :
    ¬ ∀ (fs : FlowSt) (seq : BitVec 32) (bytes : BitVec 16), rqNbytesEmpty fs.rx < 2 ^ 31 - 65536 →
      (tcpValidRxseq fs seq bytes).map (fun t => (t.1.toNat, t.2.toNat)) =
        inOrder (seq - fs.rxNextSeq).toInt bytes.toNat (rqNbytesEmpty fs.rx) := by
  intro h
  have := h (zeroedFlow 1008 0 0) 0xFFFFFFF0 100 (by decide)
  revert this
  decide

end TasNic
