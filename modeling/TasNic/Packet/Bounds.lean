import TasNic.Packet.Parse
import TasNic.Rdma.Transmitter

/-!
# What parsing does to any packet

The option parsers end after as many turns as there are bytes of options, exactly if they do
not come to an option of length 0 (`options_terminate`). They read and find options inside the
header, and what is written through the option found is inside it, exactly if the headers are
in the packet and no option is cut off (`options_bounded`). The payload of a packet that is kept
lies inside the packet exactly if its IP length is not smaller than its headers
(`payload_in_packet`).
-/

namespace TasNic

open Bytes BitVec

/-! ## Termination -/

/-- A parser returns after at most as many turns as there are bytes of options, exactly if it
comes to no option of length 0; if it does, no number of turns is enough. -/
theorem options_terminate (m : Nat → Byte) (len : BitVec 16) :
    (((tcpParseOptions (optsLen m) len).run m).isSome ↔ OptsAdvance false m len) ∧
    (((slowParseOptions (optsLen m) len).run m).isSome ↔ OptsAdvance true m len) ∧
    ((∃ o, parseOptions m len = .ok o) ↔ OptsAdvance true m len) ∧
    ∀ mss, ¬ OptsAdvance mss m len → ∀ fuel, (optionsParse mss fuel len).run m = none := by
  have hends : ∀ mss, ((optionsParse mss (optsLen m) len).run m).isSome ↔ OptsAdvance mss m len := by
    refine fun mss => ⟨fun h => ?_, optionsParse_ends⟩
    by_contra hadv
    rw [optionsParse_endless hadv] at h
    cases h
  exact ⟨hends false, hends true, parseOptions_ok_iff, fun mss => optionsParse_endless⟩

/-- A TCP packet with these lengths and options, and zeroes otherwise. -/
def optsPacket (hdrlen : Nat) (ipLen : BitVec 16) (opts : List Byte) : Nat → Byte :=
  store (PktTcp.store ⟨0, 0, 0x0800, 0x45, 0, ipLen, 0, 0, 0, 6, 0, 0, 0, 0, 0, 0, 0, tcphHdrlenFlags hdrlen tcpAck, 0, 0, 0⟩
    fun _ => 0) pktTcpSize opts

/-- A segment without payload, as the fast path sends it. -/
def tsPacket : Nat → Byte := optsPacket 8 52 [8, 10, 0, 0, 0, 1, 0, 0, 0, 2, 0, 0]

/-- An option with length 0 keeps both parsers in their loops, in a packet that is all right
otherwise. -/
theorem options_endless :
    (¬ ∀ (m : Nat → Byte) (len : BitVec 16), HeadersOk m len → ∃ fuel, ((tcpParseOptions fuel len).run m).isSome) ∧
    ¬ ∀ (m : Nat → Byte) (len : BitVec 16), pktTcpSize ≤ len.toNat → ∃ fuel, ((slowParseOptions fuel len).run m).isSome := by
  have hlen : optsLen (optsPacket 6 44 [5, 0, 0, 0]) = 4 := by decide +kernel
  have hz : ∀ mss, ZeroOpt mss (optsPacket 6 44 [5, 0, 0, 0]) 0 := fun mss =>
    ⟨by rw [hlen]; decide, by decide +kernel, by decide +kernel, by decide +kernel,
      fun h => absurd h.2 (by decide +kernel), by decide +kernel⟩
  have hnone : ∀ mss fuel, (optionsParse mss fuel 58).run (optsPacket 6 44 [5, 0, 0, 0]) = none := by
    intro mss fuel
    rw [(optionsParse_checked (.of_le (by decide +kernel) (by rw [hlen]; decide))).1]
    exact optsLoop_endless (hz mss) fuel _
  refine ⟨fun h => ?_, fun h => ?_⟩
  · obtain ⟨fuel, hf⟩ := h (optsPacket 6 44 [5, 0, 0, 0]) 58 (by decide +kernel)
    rw [tcpParseOptions, hnone] at hf
    cases hf
  · obtain ⟨fuel, hf⟩ := h (optsPacket 6 44 [5, 0, 0, 0]) 58 (by decide)
    rw [slowParseOptions, hnone] at hf
    cases hf

/-! ## Bounds -/

/-- A parser reads options only inside the header and the packet, and so are the options that
it finds. -/
structure OptsBounded (mss : Bool) (fuel : Nat) (m : Nat → Byte) (len : BitVec 16) : Prop where
  reads : ∀ i ∈ (optionsParse mss fuel len).reads m, i < len.toNat ∧ (pktTcpSize ≤ i → i < pktTcpSize + optsLen m)
  ts : ∀ rc o t, (optionsParse mss fuel len).run m = some (rc, o) → o.ts = some t →
    pktTcpSize ≤ t ∧ t + 10 ≤ pktTcpSize + optsLen m ∧ t + 10 ≤ len.toNat
  mss : ∀ rc o t, (optionsParse mss fuel len).run m = some (rc, o) → o.mss = some t →
    pktTcpSize ≤ t ∧ t + 4 ≤ pktTcpSize + optsLen m ∧ t + 4 ≤ len.toNat

theorem optsBounded {mss : Bool} {m : Nat → Byte} {len : BitVec 16} (fuel : Nat) (h48 : 48 ≤ len.toNat)
    (hle : pktTcpSize ≤ len.toNat ∨ optsLen m = 0) (hfit : OptsFit mss m len) : OptsBounded mss fuel m len := by
  have hsize : pktTcpSize = 54 := rfl
  have hreads := @reads_lt_iff mss m len |>.mpr ⟨h48, hle⟩ fuel
  by_cases hc : OptsChecked m len
  · obtain ⟨e, er⟩ := @optionsParse_checked mss m fuel len hc
    have hin := hc.le
    refine ⟨fun i hi => ⟨hreads i hi, fun h54 => ?_⟩, fun rc o t hr ht => ?_, fun rc o t hr ht => ?_⟩
    · rw [er, List.mem_append, mem_reads_tcphHdrlen] at hi
      rcases hi with hi | hi
      · omega
      · exact (mem_reads_optsLoop hi).2
    · have := (optsLoop_optsIn hfit (.start hc) (optsIn_none m) (e ▸ hr)).ts t ht
      omega
    · have := (optsLoop_optsIn hfit (.start hc) (optsIn_none m) (e ▸ hr)).mss t ht
      omega
  · obtain ⟨e, er⟩ := @optionsParse_unchecked mss m fuel len hc
    refine ⟨fun i hi => ⟨hreads i hi, fun h54 => ?_⟩, ?_, ?_⟩
    · rw [er, mem_reads_tcphHdrlen] at hi
      omega
    · rw [e]
      rintro rc o t ⟨⟩ ⟨⟩
    · rw [e]
      rintro rc o t ⟨⟩ ⟨⟩

/-- An option behind which the loop ends is returned. -/
theorem OptAt.last {mss : Bool} {m : Nat → Byte} {len : BitVec 16} {off off' : Nat} {o o' : TcpOpts}
    (h : OptAt mss m len off o) (hoff : off < optsLen m) (hf : OptFound mss m off o off' o') (hend : optsLen m ≤ off') :
    ∃ fuel, (optionsParse mss fuel len).run m = some (0, o') := by
  obtain ⟨k, hk, -⟩ := h.run
  refine ⟨k + 1, ?_⟩
  rw [(optionsParse_checked h.checked).1, hk, optsLoop_next hoff hf.run, optsLoop, if_neg (by omega), ByteProg.run_ret]

theorem OptsFit.of_bounded {mss : Bool} {m : Nat → Byte} {len : BitVec 16} (h : ∀ fuel, OptsBounded mss fuel m len) :
    OptsFit mss m len := by
  intro off o hat hoff
  refine ⟨fun h8 h10 => ?_, fun hm h2 h4 => ?_⟩
  · by_contra hlt
    obtain ⟨fuel, e⟩ := hat.last (by omega) (.ts hoff h8 h10) (by omega)
    have := (h fuel).ts 0 _ _ e rfl
    omega
  · by_contra hlt
    obtain ⟨fuel, e⟩ := hat.last (by omega) (.mss hoff hm h2 h4) (by omega)
    have := (h fuel).mss 0 _ _ e rfl
    omega

/-- Behind the headers `flow_tx_ack` writes to the timestamp option only. -/
theorem flowTxAckBytes_of_ge {m : Nat → Byte} {t i : Nat} (hi : pktTcpSize ≤ i) (ht : t + 10 ≤ i)
    (seq ack rxwnd echots myts : BitVec 32) (sums : Checksums) :
    (flowTxAckBytes m t seq ack rxwnd echots myts sums).mem i = m i := by
  rw [flowTxAckBytes]
  dsimp only
  rw [store_of_ge (by rw [List.length_append, length_toBe, length_toBe]; omega), PktTcp.store_of_ge hi]

/-- Behind the headers `inject_tcp_ts` writes to the timestamp option only. -/
theorem injectTcpTs_of_ge {fuel : Nat} {m m' : Nat → Byte} {len : BitVec 16} {ts : BitVec 32} {sums : Checksums}
    (h : injectTcpTs fuel m len ts sums = some m') {i : Nat} (hi : pktTcpSize ≤ i)
    (ht : ∀ rc o t, (tcpParseOptions fuel len).run m = some (rc, o) → o.ts = some t → t + 10 ≤ i) : m' i = m i := by
  unfold injectTcpTs at h
  split at h
  · cases h
    rfl
  · split at h
    · cases h
    · rename_i rc o e
      split at h
      · cases h
        rfl
      · split at h
        · cases h
          rfl
        · rename_i t hts
          have hlt := ht rc o t e hts
          cases h
          rw [PktTcp.store_of_ge hi, store_of_ge (by rw [length_toBe]; omega)]

/-- What a packet's options are read and written through stays inside them and the packet. -/
structure OptsInside (fuel : Nat) (m : Nat → Byte) (len : BitVec 16) : Prop where
  fast : OptsBounded false fuel m len
  slow : OptsBounded true fuel m len
  ack : ∀ ts, (fastFlowsPacketParse fuel len).run m = .kept ts → ∀ seq ack rxwnd echots myts sums i,
    pktTcpSize + optsLen m ≤ i → (flowTxAckBytes m ts seq ack rxwnd echots myts sums).mem i = m i
  inject : ∀ ts sums m', injectTcpTs fuel m len ts sums = some m' → ∀ i, pktTcpSize + optsLen m ≤ i → m' i = m i

theorem OptsBounded.inside {fuel : Nat} {m : Nat → Byte} {len : BitVec 16} (hfast : OptsBounded false fuel m len)
    (hslow : OptsBounded true fuel m len) : OptsInside fuel m len := by
  refine ⟨hfast, hslow, ?_, ?_⟩
  · intro ts hk seq ack rxwnd echots myts sums i hi
    obtain ⟨-, o, e, hts⟩ := kept_iff.mp hk
    have hin := hfast.ts 0 o ts e hts
    exact flowTxAckBytes_of_ge (by omega) (by omega) ..
  · intro ts sums m' h i hi
    refine injectTcpTs_of_ge h (by omega) fun rc o t e hts => ?_
    have hin := hfast.ts rc o t e hts
    omega

/-- The parsers stay inside the options and the packet, and `flow_tx_ack` and `inject_tcp_ts`
write nothing behind the options, exactly if the header's length is inside the packet, the
headers are or there are no options, and the timestamp and MSS options that are reached lie
inside the options. -/
theorem options_bounded (m : Nat → Byte) (len : BitVec 16) : (∀ fuel, OptsInside fuel m len) ↔
    48 ≤ len.toNat ∧ (pktTcpSize ≤ len.toNat ∨ optsLen m = 0) ∧ ∀ mss, OptsFit mss m len := by
  constructor
  · intro h
    obtain ⟨h48, hle⟩ := reads_lt_iff.mp fun fuel i hi => ((h fuel).fast.reads i hi).1
    exact ⟨h48, hle, fun mss => .of_bounded fun fuel => mss.casesOn (h fuel).fast (h fuel).slow⟩
  · rintro ⟨h48, hle, hfit⟩ fuel
    exact (optsBounded fuel h48 hle (hfit false)).inside (optsBounded fuel h48 hle (hfit true))

/-- A timestamp option of which the header has four bytes is taken for complete, and the answer
to the packet is written behind the header. So is an MSS option of two bytes, and a packet
that is shorter than its headers is read behind its end. -/
theorem options_overrun :
    (¬ ∀ m len fuel, HeadersOk m len → OptsBounded false fuel m len) ∧
    (¬ ∀ m len fuel, HeadersOk m len → OptsBounded true fuel m len) ∧
    (¬ ∀ m len fuel ts, (fastFlowsPacketParse fuel len).run m = .kept ts → ∀ seq ack rxwnd echots myts sums i,
      pktTcpSize + optsLen m ≤ i → (flowTxAckBytes m ts seq ack rxwnd echots myts sums).mem i = m i) ∧
    ¬ ∀ m len fuel, ∀ i ∈ (optionsParse false fuel len).reads m, i < len.toNat := by
  have hsize : pktTcpSize = 54 := rfl
  refine ⟨fun h => ?_, fun h => ?_, fun h => ?_, fun h => ?_⟩
  · have hlen : optsLen (optsPacket 6 44 [8, 10, 0, 0]) = 4 := by decide +kernel
    obtain ⟨⟨rc, o⟩, e, hts⟩ : ∃ r, (optionsParse false 4 58).run (optsPacket 6 44 [8, 10, 0, 0]) = some r ∧ r.2.ts = some 54 := by
      decide +kernel
    have hin := (h _ 58 4 (by decide +kernel)).ts rc o 54 e hts
    omega
  · have hlen : optsLen (optsPacket 6 44 [1, 1, 2, 4]) = 4 := by decide +kernel
    obtain ⟨⟨rc, o⟩, e, hmss⟩ : ∃ r, (optionsParse true 4 58).run (optsPacket 6 44 [1, 1, 2, 4]) = some r ∧ r.2.mss = some 56 := by
      decide +kernel
    have hin := (h _ 58 4 (by decide +kernel)).mss rc o 56 e hmss
    omega
  · have hk := h (optsPacket 6 44 [8, 10, 0, 0]) 58 4 54 (by decide +kernel) 0 0 0 0 0xffffffff ⟨0, 0⟩ 58 (by decide +kernel)
    exact absurd hk (by decide +kernel)
  · exact absurd (h tsPacket 20 12 46) (by decide +kernel)

/-! ## The payload -/

theorem TxSide.empty_lt {q : RdmaQueue} {T F : Nat} (h : TxSide q T F) : rqNbytesEmpty q < 2 ^ 31 := by
  cases h with
  | unpaired D h =>
    have := h.size
    rw [h.empty]
    omega
  | paired B b h hB =>
    rw [h.empty hB]
    omega

def Trimmed (fs : FlowSt) (p : RxPacket) (bytes : BitVec 32) (off : Nat) : Prop :=
  packetTrim fs p = .inOrder bytes off ∨ ∃ seq, packetTrim fs p = .outOfOrder seq bytes off

theorem Trimmed.le {fs : FlowSt} {p : RxPacket} {bytes : BitVec 32} {off : Nat} (h : Trimmed fs p bytes off)
    (hw : rqNbytesEmpty fs.rx < 2 ^ 31) (hp : p.payloadBytes.toNat < 2 ^ 16) : off + bytes.toNat ≤ p.payloadBytes.toNat := by
  have hsome : ∃ ts te : BitVec 16, tcpTrimRxbuf fs p.seqno (p.payloadBytes.setWidth 16) = some (ts, te) ∧
      bytes = p.payloadBytes - (ts.setWidth 32 + te.setWidth 32) ∧ off = ts.toNat := by
    unfold Trimmed packetTrim at h
    split at h
    · obtain h | ⟨seq, h⟩ := h <;> cases h
    · rename_i ts te e
      refine ⟨ts, te, e, ?_⟩
      dsimp only at h
      split at h
      · obtain h | ⟨seq, h⟩ := h
        · cases h
        · cases h
          exact ⟨rfl, rfl⟩
      · obtain h | ⟨seq, h⟩ := h
        · cases h
          exact ⟨rfl, rfl⟩
        · cases h
  obtain ⟨ts, te, e, rfl, rfl⟩ := hsome
  obtain ⟨-, -, -, hle, -⟩ := tcpTrimRxbuf_spec hw e
  rw [toNat_setWidth, Nat.mod_eq_of_lt hp] at hle
  rw [toNat_sub_trims hle]
  omega

section payload

variable {m : Nat → Byte} {ts : Nat}

theorem decode_extraHlen : (RxPacket.decode m ts).extraHlen = (RawPkt.hdrlen m - 5) * 4 := by
  have hlt := hdrlen_lt m
  obtain ⟨-, -, -, -, -, -, -, hh, -⟩ := PktTcp.load_eq_rawPkt m
  rw [RxPacket.extraHlen, RxPacket.decode]
  rw [hh, toNat_ofNat, Nat.mod_eq_of_lt hlt]

theorem decode_ipLen : (RxPacket.decode m ts).ipLen.toNat = be m 16 2 := by
  have hlt := be_lt m 16 2
  exact (toNat_ofNat ..).trans (Nat.mod_eq_of_lt hlt)

theorem decode_payloadBytes (h5 : 5 ≤ RawPkt.hdrlen m) (hip : 20 + RawPkt.hdrlen m * 4 ≤ be m 16 2) :
    (RxPacket.decode m ts).payloadBytes.toNat + (20 + RawPkt.hdrlen m * 4) = be m 16 2 := by
  have hip' := be_lt m 16 2
  rw [RxPacket.payloadBytes, decode_extraHlen, toNat_sub, toNat_setWidth, decode_ipLen, toNat_ofNat]
  omega

end payload

/-- What is read of a packet is inside it, and so is its payload, if it is kept, before and
after it is trimmed to the receive buffer. -/
structure PayloadInside (fuel : Nat) (m : Nat → Byte) (len : BitVec 16) : Prop where
  reads : ∀ i ∈ (fastFlowsPacketParse fuel len).reads m, i < len.toNat
  length : ∀ ts, (fastFlowsPacketParse fuel len).run m = .kept ts →
    (RxPacket.decode m ts).payloadBytes.toNat + (20 + RawPkt.hdrlen m * 4) = (RawPkt.ipLen m).toNat
  payload : ∀ ts, (fastFlowsPacketParse fuel len).run m = .kept ts →
    (RxPacket.decode m ts).payloadOff + (RxPacket.decode m ts).payloadBytes.toNat ≤ len.toNat
  trimmed : ∀ ts, (fastFlowsPacketParse fuel len).run m = .kept ts → ∀ fs T F bytes off, TxSide fs.rx T F →
    Trimmed fs (RxPacket.decode m ts) bytes off → (RxPacket.decode m ts).payloadOff + off + bytes.toNat ≤ len.toNat

/-- All of this holds exactly if the header's length is inside the packet, the headers are or
there are no options, and a packet that is kept has an IP length not smaller than its headers. -/
theorem payload_in_packet (m : Nat → Byte) (len : BitVec 16) : (∀ fuel, PayloadInside fuel m len) ↔
    48 ≤ len.toNat ∧ (pktTcpSize ≤ len.toNat ∨ optsLen m = 0) ∧
    ∀ fuel ts, (fastFlowsPacketParse fuel len).run m = .kept ts → 20 + RawPkt.hdrlen m * 4 ≤ (RawPkt.ipLen m).toNat := by
  have hipLen : (RawPkt.ipLen m).toNat = be m 16 2 := by
    have hlt := be_lt m 16 2
    rw [RawPkt.ipLen, PktTcp.readBe16_eq, toNat_ofNat, Nat.mod_eq_of_lt (by omega)]
  have hoff : ∀ ts, (RxPacket.decode m ts).payloadOff = 54 + (RawPkt.hdrlen m - 5) * 4 := fun ts => by
    rw [RxPacket.payloadOff, decode_extraHlen]
  constructor
  · intro h
    obtain ⟨h48, hle⟩ := (@reads_lt_iff false m len).mp fun fuel i hi => by
      obtain ⟨l, -, e⟩ := @reads_fastFlowsPacketParse m fuel len
      exact (h fuel).reads i (e ▸ List.mem_append_right l hi)
    refine ⟨h48, hle, fun fuel ts hk => ?_⟩
    have := (h fuel).length ts hk
    omega
  · rintro ⟨h48, hle, hip⟩ fuel
    rw [hipLen] at hip
    have hbytes : ∀ ts, (fastFlowsPacketParse fuel len).run m = .kept ts →
        (RxPacket.decode m ts).payloadBytes.toNat + (20 + RawPkt.hdrlen m * 4) = be m 16 2 := fun ts hk =>
      decode_payloadBytes (kept_iff.mp hk).1.hdrlen (hip fuel ts hk)
    have hpay : ∀ ts, (fastFlowsPacketParse fuel len).run m = .kept ts →
        (RxPacket.decode m ts).payloadOff + (RxPacket.decode m ts).payloadBytes.toNat ≤ len.toNat := by
      intro ts hk
      have hok := (kept_iff.mp hk).1
      have hlong := hok.ipLen
      have h5 := hok.hdrlen
      have hb := hbytes ts hk
      rw [hoff]
      omega
    refine ⟨fun i hi => ?_, hipLen ▸ hbytes, hpay, fun ts hk fs T F bytes off hrx ht => ?_⟩
    · obtain ⟨l, hl, e⟩ := @reads_fastFlowsPacketParse m fuel len
      rcases List.mem_append.mp (e ▸ hi) with hi | hi
      · have := hl i hi
        omega
      · exact reads_lt_iff.mpr ⟨h48, hle⟩ fuel i hi
    · have hp := hpay ts hk
      have := len.isLt
      have := ht.le hrx.empty_lt (by omega)
      omega

/-- Of a packet of 20 bytes the TCP header is read. A packet with an IP length smaller than its
headers is kept, and the length of its payload is taken modulo `2³²`. -/
theorem payload_outside_packet :
    (¬ ∀ m len fuel, ∀ i ∈ (fastFlowsPacketParse fuel len).reads m, i < len.toNat) ∧
    ¬ ∀ m len fuel ts, (fastFlowsPacketParse fuel len).run m = .kept ts →
      (RxPacket.decode m ts).payloadOff + (RxPacket.decode m ts).payloadBytes.toNat ≤ len.toNat := by
  refine ⟨fun h => ?_, fun h => ?_⟩
  · exact absurd (h tsPacket 20 12 46) (by decide +kernel)
  · exact absurd (h (optsPacket 8 40 [8, 10, 0, 0, 0, 1, 0, 0, 0, 2, 0, 0]) 66 12 54 (by decide +kernel)) (by decide +kernel)

end TasNic
