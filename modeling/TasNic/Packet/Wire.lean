import TasNic.Packet.Bounds

/-!
# Packets on the wire

A packet that is sent arrives in a buffer of the peer that has its bytes up to its length
(`Delivered`). A segment of `flow_tx_segment` is kept there and decodes to what was sent. So
does the acknowledgement that `flow_tx_ack` writes over a received packet: the loop over its
options never reads the timestamps, the only bytes behind the headers that have changed
(`optsLoop_avoids`). Both are `wire_round_trip`.
-/

namespace TasNic

open Bytes List

/-! ## Headers -/

theorem PktTcp.load_congr {m m' : Nat → Byte} (h : ∀ i < pktTcpSize, m i = m' i) : load m = load m' := by
  have hbe : ∀ i n, i + n ≤ pktTcpSize → be m i n = be m' i n := fun i n hi => be_congr fun k hk => h _ (by omega)
  simp (disch := decide) only [load, hbe, h]

theorem tcphHdrlenFlags_hdrlen {p : PktTcp} {len : Nat} {flags : BitVec 9} (hlen : len < 16)
    (h : p.hdrlenFlags = tcphHdrlenFlags len flags) : p.hdrlen = len := by
  rw [PktTcp.hdrlen, h, BitVec.toNat_ushiftRight, tcphHdrlenFlags_toNat hlen, Nat.shiftRight_eq_div_pow]
  omega

theorem tcphHdrlenFlags_flags {p : PktTcp} {len : Nat} {flags : BitVec 9} (hlen : len < 16)
    (h : p.hdrlenFlags = tcphHdrlenFlags len flags) : p.flags = flags := by
  apply BitVec.eq_of_toNat_eq
  rw [PktTcp.flags, h, BitVec.toNat_setWidth, tcphHdrlenFlags_toNat hlen]
  omega

theorem load_ipLen (m : Nat → Byte) : (PktTcp.load m).ipLen.toNat = be m 16 2 :=
  (BitVec.toNat_ofNat ..).trans (Nat.mod_eq_of_lt (be_lt m 16 2))

theorem load_hdrlen (m : Nat → Byte) : (PktTcp.load m).hdrlen = RawPkt.hdrlen m := by
  obtain ⟨-, -, -, -, -, -, -, h, -⟩ := PktTcp.load_eq_rawPkt m
  exact h

theorem headersOk_iff_load {m : Nat → Byte} {len : BitVec 16} : HeadersOk m len ↔
    pktTcpSize ≤ len.toNat ∧ (PktTcp.load m).ethType = 0x0800 ∧ (PktTcp.load m).proto = 6 ∧
      (PktTcp.load m).vHl >>> 4 = 4 ∧ (PktTcp.load m).vHl &&& 0x0f = 5 ∧ 5 ≤ (PktTcp.load m).hdrlen ∧
      (PktTcp.load m).ipLen.toNat + 14 ≤ len.toNat := by
  have htype : be m 12 2 = 0x0800 ↔ (PktTcp.load m).ethType = 0x0800 := by
    have hlt : be m 12 2 < 2 ^ 16 := be_lt m 12 2
    rw [← BitVec.toNat_inj, PktTcp.load, BitVec.toNat_ofNat, Nat.mod_eq_of_lt hlt]
    rfl
  rw [headersOk_iff, load_ipLen, load_hdrlen, htype]
  rfl

/-! ## Segments -/

def Delivered (w : TxPacket) (m : Nat → Byte) : Prop := ∀ i < w.len.toNat, m i = w.mem i

/-- A buffer holds the segment `t`, with its timestamps at `ts`. -/
structure SegmentRead (t : TxSegment) (m : Nat → Byte) (ts : Nat) : Prop where
  destMac : (PktTcp.load m).ethDest = t.destMac
  srcIp : (PktTcp.load m).ipSrc = t.srcIp
  destIp : (PktTcp.load m).ipDest = t.destIp
  srcPort : (PktTcp.load m).tcpSrc = t.srcPort
  destPort : (PktTcp.load m).tcpDest = t.destPort
  ect : (RxPacket.decode m ts).ipEcn = if t.ect then 2 else 0
  seq : (RxPacket.decode m ts).seqno = t.seq
  ack : (RxPacket.decode m ts).ackno = t.ack
  wnd : (RxPacket.decode m ts).wnd = t.wnd
  fin : (RxPacket.decode m ts).has tcpFin = t.fin
  tsVal : (RxPacket.decode m ts).tsVal = t.tsVal
  tsEcr : (RxPacket.decode m ts).tsEcr = t.tsEcr
  payload : (List.range (RxPacket.decode m ts).payloadBytes.toNat).map ((RxPacket.decode m ts).payload 0) = t.payload

theorem length_ringRead (B : Nat) (m : Nat → Byte) (pos len : Nat) : (ringRead B m pos len).length = len := by
  unfold ringRead
  split
  · rw [Circ.slice, length_map, length_range]
  · rw [length_append, Circ.slice, Circ.slice, length_map, length_map, length_range, length_range]
    omega

/-- A read from a ring, with wrap-around. -/
theorem ringRead_eq_take_of_le {B pos len : Nat} (m : Nat → Byte) (hpos : pos ≤ B) (hlen : len ≤ B) :
    ringRead B m pos len = Circ.take B m pos len := by
  rcases Nat.eq_zero_or_pos B with rfl | hB
  · obtain rfl : len = 0 := by omega
    exact length_eq_zero_iff.mp (length_ringRead ..)
  · rw [← ringRead_eq_take m hB hlen, Circ.pos_of_le hpos]

theorem map_range_eq {l : List Byte} {f : Nat → Byte} (h : ∀ j < l.length, f j = l.getD j 0) :
    (range l.length).map f = l := by
  refine ext_getElem (by simp) fun j hj hj' => ?_
  rw [getElem_map, getElem_range, h j hj', getD_eq_getElem _ _ hj']

theorem encode_timestamp (a b : Nat) : encode [(1, 8), (1, 10), (4, a), (4, b)] = [8, 10] ++ toBe 4 a ++ toBe 4 b := by
  rw [encode, encode, encode, encode, encode, append_nil, append_assoc]
  rfl

theorem store_timestamp (m : Nat → Byte) (i a b : Nat) :
    be (store m i ([8, 10] ++ toBe 4 a ++ toBe 4 b)) i 1 = 8 ∧ be (store m i ([8, 10] ++ toBe 4 a ++ toBe 4 b)) (i + 1) 1 = 10 ∧
    be (store m i ([8, 10] ++ toBe 4 a ++ toBe 4 b)) (i + 2) 4 = a % 256 ^ 4 ∧
    be (store m i ([8, 10] ++ toBe 4 a ++ toBe 4 b)) (i + 6) 4 = b % 256 ^ 4 := by
  have h := fields_store_encode m i [(1, 8), (1, 10), (4, a), (4, b)]
  rw [encode_timestamp] at h
  simp only [map_cons, map_nil, Bytes.fields, cons.injEq, and_true] at h
  obtain ⟨h8, h10, ha, hb⟩ := h
  exact ⟨h8, h10, ha, hb⟩

/-- A timestamp option, followed by the end of the options. -/
structure Timestamped (m : Nat → Byte) : Prop where
  kind : m pktTcpSize = 8
  length : m (pktTcpSize + 1) = 10
  last : m (pktTcpSize + 10) = 0

theorem Timestamped.run_loop {m : Nat → Byte} (h : Timestamped m) (fuel : Nat) :
    (optsLoop false 12 (fuel + 2) 0 {}).run m = some (0, { ts := some 54 }) := by
  have hts : (optsTurn false 12 0 {}).run m = .next 10 { ts := some 54 } := by
    rw [optsTurn, ByteProg.run_byte_bind, show m (pktTcpSize + 0) = 8 from h.kind, if_neg (by decide), if_neg (by decide),
      if_neg (by decide), ByteProg.run_byte_bind, show m (pktTcpSize + 0 + 1) = 10 from h.length]
    rfl
  have hend : (optsTurn false 12 10 { ts := some 54 }).run m = .stop 0 { ts := some 54 } := by
    rw [optsTurn, ByteProg.run_byte_bind, h.last, if_pos rfl]
    rfl
  rw [optsLoop, if_pos (by decide), ByteProg.run_bind, hts]
  dsimp only
  rw [optsLoop, if_pos (by decide), ByteProg.run_bind, hend]
  rfl

section segment

variable {m m' : Nat → Byte} {fs : FlowSt} {ethAddr : BitVec 48} {seq ack rxwnd : BitVec 32} {payload : BitVec 16}
  {pos tsEcho tsMy : BitVec 32} {fin : Bool} {sums : Checksums}

theorem flowTxSegmentBytes_of_lt {i : Nat} (hi : i < pktTcpSize + txOptlen) :
    (flowTxSegmentBytes m fs ethAddr seq ack rxwnd payload pos tsEcho tsMy fin sums).mem i =
      store (store ((flowTxSegmentHdr fs ethAddr seq ack rxwnd payload fin sums).store m) pktTcpSize
        (replicate txOptlen 0)) pktTcpSize ([8, 10] ++ toBe 4 tsMy.toNat ++ toBe 4 tsEcho.toNat) i := by
  unfold flowTxSegmentBytes
  split
  · exact store_of_lt hi
  · rfl

theorem flowTxSegmentBytes_len (hp : payload.toNat ≤ tcpMss.toNat) :
    (flowTxSegmentBytes m fs ethAddr seq ack rxwnd payload pos tsEcho tsMy fin sums).len.toNat = 66 + payload.toNat := by
  have hmss : tcpMss.toNat = 1448 := rfl
  rw [flowTxSegmentBytes]
  rw [BitVec.toNat_ofNat, show pktTcpSize + txOptlen = 66 from rfl]
  omega

variable (hd : Delivered (flowTxSegmentBytes m fs ethAddr seq ack rxwnd payload pos tsEcho tsMy fin sums) m')
  (hp : payload.toNat ≤ tcpMss.toNat)

include hd hp

theorem Delivered.segment_load :
    PktTcp.load m' = flowTxSegmentHdr fs ethAddr seq ack rxwnd payload fin sums := by
  refine (PktTcp.load_congr fun i hi => ?_).trans (PktTcp.load_store _ m)
  have hsize : pktTcpSize = 54 := rfl
  rw [hd i (by rw [flowTxSegmentBytes_len hp]; omega), flowTxSegmentBytes_of_lt (by omega), store_of_lt hi, store_of_lt hi]

theorem Delivered.segment_hdrlen : RawPkt.hdrlen m' = 8 := by
  rw [← load_hdrlen, hd.segment_load hp]
  exact tcphHdrlenFlags_hdrlen (by decide) rfl

theorem Delivered.segment_ipLen : be m' 16 2 = 52 + payload.toNat := by
  have hmss : tcpMss.toNat = 1448 := rfl
  have hlen : pktTcpSize + txOptlen - 14 = 52 := rfl
  rw [← load_ipLen, hd.segment_load hp, flowTxSegmentHdr, BitVec.toNat_ofNat, hlen]
  omega

theorem Delivered.segment_option {i n : Nat} (hi : i + n ≤ pktTcpSize + txOptlen) :
    be m' i n = be (store (store ((flowTxSegmentHdr fs ethAddr seq ack rxwnd payload fin sums).store m) pktTcpSize
        (replicate txOptlen 0)) pktTcpSize ([8, 10] ++ toBe 4 tsMy.toNat ++ toBe 4 tsEcho.toNat)) i n := by
  have hsize : pktTcpSize + txOptlen = 66 := rfl
  refine be_congr fun k hk => ?_
  rw [hd (i + k) (by rw [flowTxSegmentBytes_len hp]; omega), flowTxSegmentBytes_of_lt (by omega)]

theorem Delivered.segment_timestamped : Timestamped m' := by
  obtain ⟨h8, h10, -, -⟩ := store_timestamp (store ((flowTxSegmentHdr fs ethAddr seq ack rxwnd payload fin sums).store m)
    pktTcpSize (replicate txOptlen 0)) pktTcpSize tsMy.toNat tsEcho.toNat
  rw [← hd.segment_option hp (by decide)] at h8 h10
  refine ⟨PktTcp.byte_eq h8, PktTcp.byte_eq h10, ?_⟩
  have hsize : pktTcpSize = 54 := rfl
  have hopt : txOptlen = 12 := rfl
  have hten : ([8, 10] ++ toBe 4 tsMy.toNat ++ toBe 4 tsEcho.toNat).length = 10 := by simp
  rw [hd _ (by rw [flowTxSegmentBytes_len hp]; omega), flowTxSegmentBytes_of_lt (by omega), store_of_ge (by omega),
    store_add (by rw [length_replicate]; decide)]
  rfl

theorem Delivered.segment_kept {fuel : Nat} (hfuel : 2 ≤ fuel) :
    (fastFlowsPacketParse fuel (flowTxSegmentBytes m fs ethAddr seq ack rxwnd payload pos tsEcho tsMy fin sums).len).run m' =
      .kept 54 := by
  have hlen := @flowTxSegmentBytes_len m fs ethAddr seq ack rxwnd payload pos tsEcho tsMy fin sums hp
  have hopts : optsLen m' = 12 := by rw [optsLen, hd.segment_hdrlen hp]
  have hsize : pktTcpSize = 54 := rfl
  have hip := hd.segment_ipLen hp
  refine kept_iff.mpr ⟨headersOk_iff_load.mpr ?_, { ts := some 54 }, ?_, rfl⟩
  · rw [load_hdrlen, load_ipLen, hip, hlen, hd.segment_hdrlen hp, hd.segment_load hp]
    exact ⟨by omega, rfl, rfl, (by decide : (0x45 : Byte) >>> 4 = 4), (by decide : (0x45 : Byte) &&& 0x0f = 5), by decide,
      by omega⟩
  · rw [tcpParseOptions, (optionsParse_checked (.of_le (by rw [hd.segment_hdrlen hp]; decide) (by omega))).1, hopts]
    obtain ⟨fuel, rfl⟩ : ∃ k, fuel = k + 2 := ⟨fuel - 2, by omega⟩
    exact (hd.segment_timestamped hp).run_loop fuel

theorem Delivered.segment_payload :
    (range payload.toNat).map ((RxPacket.decode m' 54).payload 0) =
      if payload.toNat > 0 then flowTxRead fs pos payload else [] := by
  have hoff : (RxPacket.decode m' 54).payloadOff = pktTcpSize + txOptlen := by
    rw [RxPacket.payloadOff, decode_extraHlen, hd.segment_hdrlen hp]
    rfl
  have hsize : pktTcpSize + txOptlen = 66 := rfl
  have hlen : (flowTxRead fs pos payload).length = payload.toNat := length_ringRead ..
  by_cases h0 : payload.toNat > 0
  · rw [if_pos h0, ← hlen]
    refine map_range_eq fun j hj => ?_
    rw [RxPacket.payload, hoff, Nat.add_zero]
    refine (hd _ (by rw [flowTxSegmentBytes_len hp]; omega)).trans ?_
    unfold flowTxSegmentBytes
    dsimp only
    rw [if_pos h0, store_add hj]
  · rw [if_neg h0, show payload.toNat = 0 by omega]
    rfl

theorem Delivered.segment_read : SegmentRead (flowTxSegment fs seq ack rxwnd payload pos tsEcho tsMy fin) m' 54 := by
  have hload := hd.segment_load hp
  have hflags := @tcphHdrlenFlags_flags (flowTxSegmentHdr fs ethAddr seq ack rxwnd payload fin sums) _ _ (by decide) rfl
  obtain ⟨-, -, hval, hecr⟩ := store_timestamp (store ((flowTxSegmentHdr fs ethAddr seq ack rxwnd payload fin sums).store m)
    pktTcpSize (replicate txOptlen 0)) pktTcpSize tsMy.toNat tsEcho.toNat
  rw [← hd.segment_option hp (by decide)] at hval hecr
  constructor
  case destMac => exact congrArg PktTcp.ethDest hload
  case srcIp => exact congrArg PktTcp.ipSrc hload
  case destIp => exact congrArg PktTcp.ipDest hload
  case srcPort => exact congrArg PktTcp.tcpSrc hload
  case destPort => exact congrArg PktTcp.tcpDest hload
  case ect =>
    refine (congrArg PktTcp.ecn hload).trans ?_
    rw [flowTxSegment, PktTcp.ecn, flowTxSegmentHdr]
    split <;> rfl
  case seq => exact congrArg PktTcp.seqno hload
  case ack => exact congrArg PktTcp.ackno hload
  case wnd => exact congrArg PktTcp.wnd hload
  case fin =>
    rw [RxPacket.has, show (RxPacket.decode m' 54).flags = _ from (congrArg PktTcp.flags hload).trans hflags, flowTxSegment]
    cases fin <;> rfl
  case tsVal => exact PktTcp.ofNat_be rfl hval
  case tsEcr => exact PktTcp.ofNat_be rfl hecr
  case payload =>
    have hip := hd.segment_ipLen hp
    have hh := hd.segment_hdrlen hp
    have hbytes := @decode_payloadBytes m' 54 (by omega) (by omega)
    rw [show (RxPacket.decode m' 54).payloadBytes.toNat = payload.toNat by omega]
    exact hd.segment_payload hp

end segment

/-! ## Acknowledgements -/

/-- A buffer holds the acknowledgement `a` of a packet with headers `p`, with its timestamps at
`ts`. -/
structure AckRead (p : PktTcp) (a : TxAck) (m : Nat → Byte) (ts : Nat) : Prop where
  ethDest : (PktTcp.load m).ethDest = p.ethSrc
  ethSrc : (PktTcp.load m).ethSrc = p.ethDest
  ipSrc : (PktTcp.load m).ipSrc = p.ipDest
  ipDest : (PktTcp.load m).ipDest = p.ipSrc
  tcpSrc : (PktTcp.load m).tcpSrc = p.tcpDest
  tcpDest : (PktTcp.load m).tcpDest = p.tcpSrc
  seq : (RxPacket.decode m ts).seqno = a.seq
  ack : (RxPacket.decode m ts).ackno = a.ack
  wnd : (RxPacket.decode m ts).wnd = a.wnd
  flags : (RxPacket.decode m ts).flags = tcpAck ||| if a.ece then tcpEce else 0
  tsVal : (RxPacket.decode m ts).tsVal = a.tsVal
  tsEcr : (RxPacket.decode m ts).tsEcr = a.tsEcr
  empty : (RxPacket.decode m ts).payloadBytes = 0

/-- The loop does not read the values of the timestamps that it finds. -/
theorem optsLoop_avoids {mss : Bool} {m : Nat → Byte} {fuel off t : Nat} {o o' : TcpOpts} {rc : Int}
    (hr : (optsLoop mss (optsLen m) fuel off o).run m = some (rc, o')) (ht : o'.ts = some t)
    (ho : ∀ t, o.ts = some t → t + 10 ≤ pktTcpSize + off) :
    (o.ts = some t ∨ pktTcpSize + off ≤ t) ∧
      ∀ i ∈ (optsLoop mss (optsLen m) fuel off o).reads m, i < t + 2 ∨ t + 10 ≤ i := by
  refine @optsLoop_rule mss m (fun _ off o l r => ∀ rc o', r = some (rc, o') → o'.ts = some t →
    (∀ t, o.ts = some t → t + 10 ≤ pktTcpSize + off) →
    (o.ts = some t ∨ pktTcpSize + off ≤ t) ∧ ∀ i ∈ l, i < t + 2 ∨ t + 10 ≤ i) ?_ ?_ ?_ ?_ fuel off o rc o' hr ht ho
  · rintro fuel off o - rc o' ⟨⟩ ht -
    exact ⟨.inl ht, fun i hi => absurd hi not_mem_nil⟩
  · rintro off o - rc o' ⟨⟩
  · rintro fuel off o rc - - rc' o' ⟨⟩ ht ho
    refine ⟨.inl ht, fun i hi => ?_⟩
    have hle := ho t ht
    have := mem_reads_optsTurn hi
    omega
  · intro fuel off o off' o' l r hoff e ih rc o'' hr ht ho
    -- an option found before lies before this turn, and this turn's is where it is
    have hfound : ∀ t, o'.ts = some t → t + 10 ≤ pktTcpSize + off' ∧ (o.ts = some t ∨ pktTcpSize + off = t) := by
      intro t ht
      cases optsTurn_next e with
      | noOp h =>
        have := ho t ht
        exact ⟨by omega, .inl ht⟩
      | other h h0 h1 h2 h8 =>
        have := ho t ht
        exact ⟨by omega, .inl ht⟩
      | ts h h8 hlen =>
        obtain rfl : pktTcpSize + off = t := Option.some.inj ht
        exact ⟨by omega, .inr rfl⟩
      | mss h hm h2 hlen =>
        have := ho t ht
        exact ⟨by omega, .inl ht⟩
    have hle := (optsTurn_next e).le
    obtain ⟨hwhere, hreads⟩ := ih rc o'' hr ht fun t ht => (hfound t ht).1
    have hwhere' : o.ts = some t ∨ pktTcpSize + off ≤ t := by
      rcases hwhere with h | h
      · exact (hfound t h).2.imp_right fun h => by omega
      · exact .inr (by omega)
    refine ⟨hwhere', fun i hi => ?_⟩
    rcases mem_append.mp hi with hi | hi
    · have hturn := mem_reads_optsTurn hi
      rcases hwhere' with h | h
      · have := ho t h
        omega
      · omega
    · exact hreads i hi

section ack

variable {m m' : Nat → Byte} {fuel ts : Nat} {len : BitVec 16} {seq ack rxwnd echots myts : BitVec 32} {sums : Checksums}

theorem flowTxAckBytes_len (m : Nat → Byte) (ts : Nat) (seq ack rxwnd echots myts : BitVec 32) (sums : Checksums)
    (h5 : 5 ≤ RawPkt.hdrlen m) :
    (flowTxAckBytes m ts seq ack rxwnd echots myts sums).len.toNat = pktTcpSize + optsLen m := by
  have hlt := hdrlen_lt m
  have hsize : pktTcpSize = 54 := rfl
  rw [flowTxAckBytes, BitVec.toNat_ofNat, load_hdrlen, optsLen]
  omega

/-- Behind the headers `flow_tx_ack` writes the values of the timestamps only. -/
theorem flowTxAckBytes_of_outside {i : Nat} (hi : pktTcpSize ≤ i) (ht : i < ts + 2 ∨ ts + 10 ≤ i) :
    (flowTxAckBytes m ts seq ack rxwnd echots myts sums).mem i = m i := by
  rcases ht with ht | ht
  · rw [flowTxAckBytes]
    dsimp only
    rw [store_of_lt ht, PktTcp.store_of_ge hi]
  · exact flowTxAckBytes_of_ge hi ht ..

theorem kept_loop (hk : (fastFlowsPacketParse fuel len).run m = .kept ts) :
    HeadersOk m len ∧ ∃ o, (optsLoop false (optsLen m) fuel 0 {}).run m = some (0, o) ∧ o.ts = some ts ∧ pktTcpSize ≤ ts ∧
      ∀ i ∈ (optsLoop false (optsLen m) fuel 0 {}).reads m, i < ts + 2 ∨ ts + 10 ≤ i := by
  obtain ⟨hok, o, e, hts⟩ := kept_iff.mp hk
  by_cases hc : OptsChecked m len
  · have hloop := (optionsParse_checked hc).1.symm.trans e
    obtain ⟨hwhere, hreads⟩ := optsLoop_avoids hloop hts (by rintro t ⟨⟩)
    rcases hwhere with h | h
    · cases h
    · exact ⟨hok, o, hloop, hts, h, hreads⟩
  · rw [tcpParseOptions, (optionsParse_unchecked hc).1] at e
    cases e

variable (hk : (fastFlowsPacketParse fuel len).run m = .kept ts)
  (hd : Delivered (flowTxAckBytes m ts seq ack rxwnd echots myts sums) m')

include hk hd

theorem Delivered.ack_load : PktTcp.load m' = flowTxAckHdr (.load m) seq ack rxwnd sums := by
  obtain ⟨hok, -, -, -, hge, -⟩ := kept_loop hk
  refine (PktTcp.load_congr fun i hi => ?_).trans (PktTcp.load_store _ m)
  rw [hd i (by rw [flowTxAckBytes_len _ _ _ _ _ _ _ _ hok.hdrlen]; omega)]
  exact store_of_lt (by omega)

theorem Delivered.ack_hdrlen : RawPkt.hdrlen m' = RawPkt.hdrlen m := by
  rw [← load_hdrlen, hd.ack_load hk, ← load_hdrlen]
  exact tcphHdrlenFlags_hdrlen (by rw [load_hdrlen]; exact hdrlen_lt m) rfl

theorem Delivered.ack_ipLen : be m' 16 2 = 20 + RawPkt.hdrlen m * 4 := by
  have hok := (kept_loop hk).1.hdrlen
  have hlt := hdrlen_lt m
  have hsize : pktTcpSize = 54 := rfl
  rw [← load_ipLen, hd.ack_load hk, flowTxAckHdr, BitVec.toNat_ofNat, load_hdrlen]
  omega

/-- The loop goes as before. -/
theorem Delivered.ack_loop :
    (optsLoop false (optsLen m) fuel 0 {}).run m' = (optsLoop false (optsLen m) fuel 0 {}).run m := by
  obtain ⟨hok, -, -, -, -, hreads⟩ := kept_loop hk
  refine (ByteProg.run_congr fun i hi => ?_).1
  have hin := mem_reads_optsLoop hi
  rw [hd i (by rw [flowTxAckBytes_len _ _ _ _ _ _ _ _ hok.hdrlen]; omega)]
  exact flowTxAckBytes_of_outside (by omega) (hreads i hi)

theorem Delivered.ack_kept :
    (fastFlowsPacketParse fuel (flowTxAckBytes m ts seq ack rxwnd echots myts sums).len).run m' = .kept ts := by
  obtain ⟨hok, o, hloop, hts, -, -⟩ := kept_loop hk
  have hlen := flowTxAckBytes_len m ts seq ack rxwnd echots myts sums hok.hdrlen
  have hh := hd.ack_hdrlen hk
  have hip := hd.ack_ipLen hk
  have hopts : optsLen m' = optsLen m := by rw [optsLen, optsLen, hh]
  have h5 := hok.hdrlen
  have hsize : pktTcpSize = 54 := rfl
  refine kept_iff.mpr ⟨headersOk_iff_load.mpr ?_, o, ?_, hts⟩
  · obtain ⟨-, htype, hproto, hv, hhl, -, -⟩ := headersOk_iff_load.mp hok
    rw [load_hdrlen, load_ipLen, hip, hlen, hh, hd.ack_load hk]
    exact ⟨by omega, htype, hproto, hv, hhl, h5, by unfold optsLen; omega⟩
  · rw [tcpParseOptions, (optionsParse_checked (.of_le (by omega) (by omega))).1, hopts, hd.ack_loop hk, hloop]

theorem Delivered.ack_read (hts : ts + 10 ≤ pktTcpSize + optsLen m) :
    AckRead (.load m) (flowTxAck (.decode m ts) seq ack rxwnd echots myts) m' ts := by
  have hload := hd.ack_load hk
  obtain ⟨hok, -, -, -, hge, -⟩ := kept_loop hk
  have hflags := @tcphHdrlenFlags_flags (flowTxAckHdr (.load m) seq ack rxwnd sums) _ _
    (by rw [load_hdrlen]; exact hdrlen_lt m) rfl
  have hlen := flowTxAckBytes_len m ts seq ack rxwnd echots myts sums hok.hdrlen
  have hopt : ∀ i, i + 4 ≤ pktTcpSize + optsLen m →
      be m' i 4 = be (flowTxAckBytes m ts seq ack rxwnd echots myts sums).mem i 4 := by
    intro i hi
    exact be_congr fun k hk => hd _ (by omega)
  have hval : be m' (ts + 2) 4 = myts.toNat % 256 ^ 4 := by
    rw [hopt _ (by omega), flowTxAckBytes]
    rw [store_append, be_store_of_disjoint (.inr (by rw [length_toBe])), be_store_toBe]
  have hecr : be m' (ts + 6) 4 = echots.toNat % 256 ^ 4 := by
    rw [hopt _ (by omega), flowTxAckBytes]
    rw [store_append, length_toBe, be_store_toBe]
  constructor
  case ethDest => exact congrArg PktTcp.ethDest hload
  case ethSrc => exact congrArg PktTcp.ethSrc hload
  case ipSrc => exact congrArg PktTcp.ipSrc hload
  case ipDest => exact congrArg PktTcp.ipDest hload
  case tcpSrc => exact congrArg PktTcp.tcpSrc hload
  case tcpDest => exact congrArg PktTcp.tcpDest hload
  case seq => exact congrArg PktTcp.seqno hload
  case ack => exact congrArg PktTcp.ackno hload
  case wnd => exact congrArg PktTcp.wnd hload
  case flags =>
    refine ((congrArg PktTcp.flags hload).trans hflags).trans ?_
    simp [flowTxAck, RxPacket.decode]
  case tsVal => exact PktTcp.ofNat_be rfl hval
  case tsEcr => exact PktTcp.ofNat_be rfl hecr
  case empty =>
    have hip := hd.ack_ipLen hk
    have hh := hd.ack_hdrlen hk
    have h5 := hok.hdrlen
    have hbytes := @decode_payloadBytes m' ts (by omega) (by omega)
    apply BitVec.eq_of_toNat_eq
    change _ = 0
    omega

omit hd in
/-- What is written behind the packet, the peer does not get. -/
theorem ack_read_cut (h : ∀ m', Delivered (flowTxAckBytes m ts seq ack rxwnd echots myts sums) m' →
    AckRead (.load m) (flowTxAck (.decode m ts) seq ack rxwnd echots myts) m' ts) : ts + 10 ≤ pktTcpSize + optsLen m := by
  by_contra hcut
  have hlen := flowTxAckBytes_len m ts seq ack rxwnd echots myts sums (kept_loop hk).1.hdrlen
  generalize flowTxAckBytes m ts seq ack rxwnd echots myts sums = w at h hlen
  -- the last byte of the echoed timestamp, in two memories
  have h₁ := (h w.mem fun _ _ => rfl).tsEcr
  have h₂ := (h (Function.update w.mem (ts + 9) (w.mem (ts + 9) + 1)) fun i hi =>
    Function.update_of_ne (by omega) ..).tsEcr
  have he : BitVec.ofNat 32 (be w.mem (ts + 6) 4) =
      BitVec.ofNat 32 (be (Function.update w.mem (ts + 9) (w.mem (ts + 9) + 1)) (ts + 6) 4) := h₁.trans h₂.symm
  have hn := congrArg BitVec.toNat he
  have hx := (w.mem (ts + 9)).isLt
  have hbe : ∀ m' : Nat → Byte, be m' (ts + 6) 4 = be m' (ts + 6) 3 * 256 + (m' (ts + 9)).toNat := fun _ => rfl
  rw [BitVec.toNat_ofNat, BitVec.toNat_ofNat, hbe, hbe, Function.update_self, BitVec.toNat_add,
    show (1 : Byte).toNat = 1 from rfl] at hn
  omega

end ack

/-! ## Round trips -/

/-- A segment of `flow_tx_segment` is kept by the peer and read as it was sent, with its payload
from the ring. The acknowledgement that `flow_tx_ack` makes of a packet that was kept is kept,
and read as it was made exactly if the timestamp option lies within the options. -/
theorem wire_round_trip (m : Nat → Byte) (seq ack rxwnd : BitVec 32) (sums : Checksums) :
    (∀ fs ethAddr (payload : BitVec 16) pos tsEcho tsMy fin m', payload.toNat ≤ tcpMss.toNat →
      Delivered (flowTxSegmentBytes m fs ethAddr seq ack rxwnd payload pos tsEcho tsMy fin sums) m' →
      (∀ fuel, 2 ≤ fuel → (fastFlowsPacketParse fuel
        (flowTxSegmentBytes m fs ethAddr seq ack rxwnd payload pos tsEcho tsMy fin sums).len).run m' = .kept 54) ∧
      SegmentRead (flowTxSegment fs seq ack rxwnd payload pos tsEcho tsMy fin) m' 54 ∧
      (RxPacket.decode m' 54).wnd.toNat = min 65535 rxwnd.toNat ∧
      (pos.toNat ≤ fs.tx.bufferSize → payload.toNat ≤ fs.tx.bufferSize →
        (List.range payload.toNat).map ((RxPacket.decode m' 54).payload 0) =
          Circ.take fs.tx.bufferSize fs.tx.buffer pos.toNat payload.toNat)) ∧
    (∀ len fuel ts, (fastFlowsPacketParse fuel len).run m = .kept ts → ∀ echots myts,
      (∀ m', Delivered (flowTxAckBytes m ts seq ack rxwnd echots myts sums) m' →
        (fastFlowsPacketParse fuel (flowTxAckBytes m ts seq ack rxwnd echots myts sums).len).run m' = .kept ts) ∧
      ((∀ m', Delivered (flowTxAckBytes m ts seq ack rxwnd echots myts sums) m' →
        AckRead (.load m) (flowTxAck (.decode m ts) seq ack rxwnd echots myts) m' ts ∧
        (RxPacket.decode m' ts).wnd.toNat = min 65535 rxwnd.toNat) ↔ ts + 10 ≤ pktTcpSize + optsLen m)) := by
  constructor
  · intro fs ethAddr payload pos tsEcho tsMy fin m' hp hd
    have hread := hd.segment_read hp
    refine ⟨fun fuel hfuel => hd.segment_kept hp hfuel, hread, ?_, fun hpos hlen => ?_⟩
    · rw [hread.wnd]
      exact wndField_toNat rxwnd
    · rw [hd.segment_payload hp]
      split
      · exact ringRead_eq_take_of_le _ hpos hlen
      · rw [show payload.toNat = 0 by omega]
        rfl
  · intro len fuel ts hk echots myts
    refine ⟨fun m' hd => hd.ack_kept hk, fun h => ack_read_cut hk fun m' hd => (h m' hd).1, fun hts m' hd => ?_⟩
    have hread := hd.ack_read hk hts
    refine ⟨hread, ?_⟩
    rw [hread.wnd]
    exact wndField_toNat rxwnd

theorem wire_round_trip_wrapped :
    (fastFlowsPacketParse 2 69).run
      (flowTxSegmentBytes (fun _ => 0) (zeroedFlow 64 6 7) 1 2 3 100000 3 62 4 5 true ⟨0, 0⟩).mem = .kept 54 ∧
    SegmentRead (flowTxSegment (zeroedFlow 64 6 7) 2 3 100000 3 62 4 5 true)
      (flowTxSegmentBytes (fun _ => 0) (zeroedFlow 64 6 7) 1 2 3 100000 3 62 4 5 true ⟨0, 0⟩).mem 54 ∧
    AckRead (.load tsPacket) (flowTxAck (.decode tsPacket 54) 1 2 3 4 5) (flowTxAckBytes tsPacket 54 1 2 3 4 5 ⟨0, 0⟩).mem 54 := by
  obtain ⟨hkept, hread, -, -⟩ := (wire_round_trip (fun _ => 0) 2 3 100000 ⟨0, 0⟩).1 (zeroedFlow 64 6 7) 1 3 62 4 5 true _
    (by decide) fun _ _ => rfl
  have hack := ((wire_round_trip tsPacket 1 2 3 ⟨0, 0⟩).2 66 12 54 (by decide +kernel) 4 5).2.mpr (by decide +kernel)
  exact ⟨hkept 2 (Nat.le_refl 2), hread, (hack _ fun _ _ => rfl).1⟩

/-- Of the timestamps of a packet with a timestamp option of four bytes, the acknowledgement
carries two bytes. -/
theorem ack_timestamps_lost :
    ¬ ∀ m len fuel ts, (fastFlowsPacketParse fuel len).run m = .kept ts →
      ∀ seq ack rxwnd echots myts sums m', Delivered (flowTxAckBytes m ts seq ack rxwnd echots myts sums) m' →
        AckRead (.load m) (flowTxAck (.decode m ts) seq ack rxwnd echots myts) m' ts := by
  intro h
  have hlen : (flowTxAckBytes (optsPacket 6 44 [8, 10, 0, 0]) 54 0 0 0 0 1 ⟨0, 0⟩).len.toNat = 58 := by decide +kernel
  have hread := h (optsPacket 6 44 [8, 10, 0, 0]) 58 4 54 (by decide +kernel) 0 0 0 0 1 ⟨0, 0⟩
    (fun i => if i < 58 then (flowTxAckBytes (optsPacket 6 44 [8, 10, 0, 0]) 54 0 0 0 0 1 ⟨0, 0⟩).mem i else 0)
    fun i hi => if_pos (by omega)
  exact absurd hread.tsVal (by decide +kernel)

end TasNic
