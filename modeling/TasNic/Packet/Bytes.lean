import TasNic.Lib.Bytes
import TasNic.Slow.Tcp

/-!
# Packets in memory (`include/packet_defs.h`)

The headers of a packet as they lie in its first 54 bytes (`PktTcp`), the packets that the
fast path writes, byte for byte (`flowTxSegmentBytes`, `flowTxAckBytes`), and the packet that
`fast_flows_packet` sees in a buffer (`RxPacket.decode`). The checksums are not computed: they
are inputs of the functions that fill them in.
-/

namespace TasNic

open Bytes BitVec

@[ext] structure PktTcp where
  ethDest : BitVec 48
  ethSrc : BitVec 48
  ethType : BitVec 16
  vHl : BitVec 8
  tos : BitVec 8
  ipLen : BitVec 16
  id : BitVec 16
  offset : BitVec 16
  ttl : BitVec 8
  proto : BitVec 8
  ipChksum : BitVec 16
  ipSrc : BitVec 32
  ipDest : BitVec 32
  tcpSrc : BitVec 16
  tcpDest : BitVec 16
  seqno : BitVec 32
  ackno : BitVec 32
  hdrlenFlags : BitVec 16
  wnd : BitVec 16
  tcpChksum : BitVec 16
  urgp : BitVec 16
deriving DecidableEq

namespace PktTcp

def fields (p : PktTcp) : List (Nat × Nat) :=
  [(6, p.ethDest.toNat), (6, p.ethSrc.toNat), (2, p.ethType.toNat),
    (1, p.vHl.toNat), (1, p.tos.toNat), (2, p.ipLen.toNat), (2, p.id.toNat), (2, p.offset.toNat), (1, p.ttl.toNat),
    (1, p.proto.toNat), (2, p.ipChksum.toNat), (4, p.ipSrc.toNat), (4, p.ipDest.toNat),
    (2, p.tcpSrc.toNat), (2, p.tcpDest.toNat), (4, p.seqno.toNat), (4, p.ackno.toNat), (2, p.hdrlenFlags.toNat),
    (2, p.wnd.toNat), (2, p.tcpChksum.toNat), (2, p.urgp.toNat)]

def load (m : Nat → Byte) : PktTcp where
  ethDest := .ofNat 48 (be m 0 6)
  ethSrc := .ofNat 48 (be m 6 6)
  ethType := .ofNat 16 (be m 12 2)
  vHl := m 14
  tos := m 15
  ipLen := .ofNat 16 (be m 16 2)
  id := .ofNat 16 (be m 18 2)
  offset := .ofNat 16 (be m 20 2)
  ttl := m 22
  proto := m 23
  ipChksum := .ofNat 16 (be m 24 2)
  ipSrc := .ofNat 32 (be m 26 4)
  ipDest := .ofNat 32 (be m 30 4)
  tcpSrc := .ofNat 16 (be m 34 2)
  tcpDest := .ofNat 16 (be m 36 2)
  seqno := .ofNat 32 (be m 38 4)
  ackno := .ofNat 32 (be m 42 4)
  hdrlenFlags := .ofNat 16 (be m 46 2)
  wnd := .ofNat 16 (be m 48 2)
  tcpChksum := .ofNat 16 (be m 50 2)
  urgp := .ofNat 16 (be m 52 2)

def store (p : PktTcp) (m : Nat → Byte) : Nat → Byte := Bytes.store m 0 (encode p.fields)

theorem length_encode (p : PktTcp) : (encode p.fields).length = pktTcpSize := by
  simp [Bytes.length_encode, fields, pktTcpSize]

theorem store_of_ge {p : PktTcp} {m : Nat → Byte} {i : Nat} (h : pktTcpSize ≤ i) : p.store m i = m i :=
  Bytes.store_of_ge (by rw [length_encode, Nat.zero_add]; exact h)

theorem ofNat_be {m : Nat → Byte} {i n w : Nat} {v : BitVec w} (hw : 256 ^ n = 2 ^ w) (h : be m i n = v.toNat % 256 ^ n) :
    BitVec.ofNat w (be m i n) = v := by
  rw [h, hw, Nat.mod_eq_of_lt v.isLt, ofNat_toNat, setWidth_eq]

theorem byte_eq {m : Nat → Byte} {i : Nat} {v : Byte} (h : be m i 1 = v.toNat % 256 ^ 1) : m i = v := by
  have e := ofNat_be (w := 8) rfl h
  simpa [be] using e

theorem load_store (p : PktTcp) (m : Nat → Byte) : load (p.store m) = p := by
  have h : Bytes.fields (p.store m) 0 _ = _ := fields_store_encode m 0 p.fields
  generalize p.store m = m' at h ⊢
  simp only [fields, List.map_cons, List.map_nil, Bytes.fields, List.cons.injEq, and_true, Nat.zero_add, Nat.reduceAdd] at h
  obtain ⟨h0, h6, h12, h14, h15, h16, h18, h20, h22, h23, h24, h26, h30, h34, h36, h38, h42, h46, h48, h50, h52⟩ := h
  apply PktTcp.ext
  · exact ofNat_be rfl h0
  · exact ofNat_be rfl h6
  · exact ofNat_be rfl h12
  · exact byte_eq h14
  · exact byte_eq h15
  · exact ofNat_be rfl h16
  · exact ofNat_be rfl h18
  · exact ofNat_be rfl h20
  · exact byte_eq h22
  · exact byte_eq h23
  · exact ofNat_be rfl h24
  · exact ofNat_be rfl h26
  · exact ofNat_be rfl h30
  · exact ofNat_be rfl h34
  · exact ofNat_be rfl h36
  · exact ofNat_be rfl h38
  · exact ofNat_be rfl h42
  · exact ofNat_be rfl h46
  · exact ofNat_be rfl h48
  · exact ofNat_be rfl h50
  · exact ofNat_be rfl h52

/-- `TCPH_HDRLEN`. -/
def hdrlen (p : PktTcp) : Nat := (p.hdrlenFlags >>> 12).toNat

/-- `TCPH_FLAGS`. -/
def flags (p : PktTcp) : BitVec 9 := p.hdrlenFlags.setWidth 9

/-- `IPH_ECN`. -/
def ecn (p : PktTcp) : BitVec 2 := p.tos.setWidth 2

theorem readBe16_eq (m : Nat → Byte) (i : Nat) : readBe16 m i = .ofNat 16 (be m i 2) := by
  have h1 := (m (i + 1)).isLt
  apply eq_of_toNat_eq
  rw [readBe16, toNat_append, ← Nat.shiftLeft_add_eq_or_of_lt h1, Nat.shiftLeft_eq, toNat_ofNat]
  simp only [be, Nat.add_zero]
  omega

theorem readBe32_eq (m : Nat → Byte) (i : Nat) : readBe32 m i = .ofNat 32 (be m i 4) := by
  have h1 := (m (i + 1)).isLt
  have h2 := (m (i + 2)).isLt
  have h3 := (m (i + 3)).isLt
  apply eq_of_toNat_eq
  rw [readBe32, toNat_append, toNat_append, toNat_append, ← Nat.shiftLeft_add_eq_or_of_lt h1,
    ← Nat.shiftLeft_add_eq_or_of_lt h2, ← Nat.shiftLeft_add_eq_or_of_lt h3, Nat.shiftLeft_eq, Nat.shiftLeft_eq,
    Nat.shiftLeft_eq, toNat_ofNat]
  simp only [be, Nat.add_zero]
  omega

theorem load_eq_rawPkt (m : Nat → Byte) :
    (load m).ipLen = RawPkt.ipLen m ∧ (load m).ipSrc = RawPkt.ipSrc m ∧ (load m).ipDest = RawPkt.ipDest m ∧
    (load m).tcpSrc = RawPkt.tcpSrc m ∧ (load m).tcpDest = RawPkt.tcpDest m ∧ (load m).seqno = RawPkt.seqno m ∧
    (load m).ackno = RawPkt.ackno m ∧ (load m).hdrlen = RawPkt.hdrlen m ∧ (load m).flags = RawPkt.flags m := by
  refine ⟨?_, ?_, ?_, ?_, ?_, ?_, ?_, ?_, ?_⟩
  · exact (readBe16_eq m 16).symm
  · exact (readBe32_eq m 26).symm
  · exact (readBe32_eq m 30).symm
  · exact (readBe16_eq m 34).symm
  · exact (readBe16_eq m 36).symm
  · exact (readBe32_eq m 38).symm
  · exact (readBe32_eq m 42).symm
  · rw [hdrlen, RawPkt.hdrlen, readBe16_eq]
    rfl
  · rw [flags, RawPkt.flags, readBe16_eq]
    rfl

end PktTcp

/-- The value of `TCPH_HDRLEN_FLAGS_SET`. -/
def tcphHdrlenFlags (len : Nat) (flags : BitVec 9) : BitVec 16 := .ofNat 16 (len <<< 12 ||| flags.toNat)

theorem tcphHdrlenFlags_toNat {len : Nat} (h : len < 16) (flags : BitVec 9) :
    (tcphHdrlenFlags len flags).toNat = len * 2 ^ 12 + flags.toNat := by
  rw [tcphHdrlenFlags, ← Nat.shiftLeft_add_eq_or_of_lt (by omega), Nat.shiftLeft_eq, toNat_ofNat]
  omega

/-- A window, cut to 16 bits: `MIN(0xFFFF, rxwnd)`. -/
def wndField (rxwnd : BitVec 32) : BitVec 16 := if rxwnd < 0xFFFF then rxwnd.setWidth 16 else 0xFFFF

theorem wndField_toNat (rxwnd : BitVec 32) : (wndField rxwnd).toNat = min 65535 rxwnd.toNat := by
  unfold wndField
  split
  · rename_i h
    have h' : rxwnd.toNat < 65535 := lt_def.mp h
    rw [toNat_setWidth]
    omega
  · rename_i h
    have h' : ¬ rxwnd.toNat < 65535 := fun hc => h (lt_def.mpr hc)
    have e : (0xFFFF : BitVec 16).toNat = 65535 := rfl
    omega

/-! ## Packets that are sent -/

/-- A packet handed to `tx_send`. -/
structure TxPacket where
  mem : Nat → Byte
  len : BitVec 16

/-- The checksums that `tcp_checksums` fills in. -/
structure Checksums where
  ip : BitVec 16
  tcp : BitVec 16

/-- `optlen` of `flow_tx_segment`: the timestamp option, padded to words. -/
def txOptlen : Nat := (10 + 3) / 4 * 4

/-- The headers of `flow_tx_segment`. -/
def flowTxSegmentHdr (fs : FlowSt) (ethAddr : BitVec 48) (seq ack rxwnd : BitVec 32) (payload : BitVec 16) (fin : Bool)
    (sums : Checksums) : PktTcp where
  ethDest := fs.remoteMac
  ethSrc := ethAddr
  ethType := 0x0800
  vHl := 0x45
  tos := if fs.has flowstEcn then 2 else 0
  ipLen := .ofNat 16 (pktTcpSize + txOptlen - 14 + payload.toNat)
  id := 3
  offset := 0
  ttl := 0xff
  proto := 6
  ipChksum := sums.ip
  ipSrc := fs.localIp
  ipDest := fs.remoteIp
  tcpSrc := fs.localPort
  tcpDest := fs.remotePort
  seqno := seq
  ackno := ack
  hdrlenFlags := tcphHdrlenFlags (5 + txOptlen / 4) (tcpPsh ||| tcpAck ||| if fin then tcpFin else 0)
  wnd := wndField rxwnd
  tcpChksum := sums.tcp
  urgp := 0

/-- `flow_tx_segment` in the buffer `m`: the headers, the timestamp option in zeroed bytes, and
the payload. -/
def flowTxSegmentBytes (m : Nat → Byte) (fs : FlowSt) (ethAddr : BitVec 48) (seq ack rxwnd : BitVec 32)
    (payload : BitVec 16) (payloadPos : BitVec 32) (tsEcho tsMy : BitVec 32) (fin : Bool) (sums : Checksums) :
    TxPacket where
  mem :=
    let m := (flowTxSegmentHdr fs ethAddr seq ack rxwnd payload fin sums).store m
    let m := store m pktTcpSize (List.replicate txOptlen 0)
    let m := store m pktTcpSize ([8, 10] ++ toBe 4 tsMy.toNat ++ toBe 4 tsEcho.toNat)
    if payload.toNat > 0 then store m (pktTcpSize + txOptlen) (flowTxRead fs payloadPos payload) else m
  len := .ofNat 16 (pktTcpSize + txOptlen + payload.toNat)

/-- The headers of `flow_tx_ack`, from those of the received packet. -/
def flowTxAckHdr (p : PktTcp) (seq ack rxwnd : BitVec 32) (sums : Checksums) : PktTcp :=
  { p with
    -- swap addresses
    ethSrc := p.ethDest
    ethDest := p.ethSrc
    ipSrc := p.ipDest
    ipDest := p.ipSrc
    tcpSrc := p.tcpDest
    tcpDest := p.tcpSrc
    tos := p.tos &&& 0xfc
    seqno := seq
    ackno := ack
    hdrlenFlags := tcphHdrlenFlags p.hdrlen (tcpAck ||| if p.ecn = 3 then tcpEce else 0)
    wnd := wndField rxwnd
    urgp := 0
    ipLen := .ofNat 16 (pktTcpSize + (p.hdrlen - 5) * 4 - 14)
    ttl := 0xff
    ipChksum := sums.ip
    tcpChksum := sums.tcp }

/-- `flow_tx_ack` in the buffer `m` of a received packet with its timestamp option at `ts`. -/
def flowTxAckBytes (m : Nat → Byte) (ts : Nat) (seq ack rxwnd echots myts : BitVec 32) (sums : Checksums) : TxPacket where
  mem := store ((flowTxAckHdr (.load m) seq ack rxwnd sums).store m) (ts + 2) (toBe 4 myts.toNat ++ toBe 4 echots.toNat)
  len := .ofNat 16 (pktTcpSize + ((PktTcp.load m).hdrlen - 5) * 4)

/-! ## Packets that are received -/

/-- The packet in the buffer `m`, with its timestamp option at `ts`. -/
def RxPacket.decode (m : Nat → Byte) (ts : Nat) : RxPacket where
  ipLen := (PktTcp.load m).ipLen
  ipEcn := (PktTcp.load m).ecn
  hdrlen := .ofNat 4 (PktTcp.load m).hdrlen
  flags := (PktTcp.load m).flags
  seqno := (PktTcp.load m).seqno
  ackno := (PktTcp.load m).ackno
  wnd := (PktTcp.load m).wnd
  tsVal := .ofNat 32 (be m (ts + 2) 4)
  tsEcr := .ofNat 32 (be m (ts + 6) 4)
  mem := m

end TasNic
