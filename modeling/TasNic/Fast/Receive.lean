import TasNic.Fast.FastFlows
import TasNic.Rdma.Unpaired
import TasNic.Lib.Run

/-!
# The receive stream

A flow whose receive queue `rx` is unpaired. The peer's stream is `S`, its first byte has sequence
number `isn`. `RecvSt S isn fs n F D`: `n` bytes of the stream are enqueued, `F` flushed and `D`
dequeued, and the out-of-order interval lies ahead of byte `n` in the unused part of the ring. Each
part of `fast_flows_packet` keeps `RecvSt`, as long as trimming does not slip.
-/

namespace TasNic

open Circ RdmaQueue Serial List

/-! ## Writes to the ring -/

namespace Unpaired

variable {q : RdmaQueue} {T F D : Nat}

theorem setBuffer (h : Unpaired q T F D) (m : Nat → Byte) : Unpaired (q.setBuffer m) T F D :=
  { h with }

theorem empty_lt (h : Unpaired q T F D) : rqNbytesEmpty q < 2 ^ 31 := by
  have := h.size
  rw [h.empty]
  omega

theorem empty_add (h : Unpaired q T F D) : T + rqNbytesEmpty q = D + q.bufferSize - rdmaQueuePad := by
  have h₁ := h.room; have h₂ := h.dequeued; have h₃ := h.flushed
  rw [h.empty]
  omega

theorem txOffset_le (h : Unpaired q T F D) : q.txOffset ≤ q.bufferSize := by
  rw [h.tx]
  exact pos_le h.size_pos T

theorem txOffset_mod (h : Unpaired q T F D) : q.txOffset % q.bufferSize = T % q.bufferSize := by
  rw [h.tx, pos_mod h.size_pos]

end Unpaired

theorem flowRxWrite_eq {fs : FlowSt} {T F D : Nat} (h : Unpaired fs.rx T F D) (len : BitVec 16)
    (src : Nat → Byte) (hlen : len.toNat ≤ rqNbytesEmpty fs.rx) :
    flowRxWrite fs (BitVec.ofNat 32 fs.rx.txOffset) len src =
      { fs with rx := fs.rx.setBuffer (put fs.rx.bufferSize fs.rx.buffer T len.toNat src) } := by
  have h₁ := h.txOffset_le; have h₂ := h.size; have h₃ := h.empty_add; have h₄ := h.dequeued; have h₅ := h.flushed
  rw [flowRxWrite, toNat_ofNat_of_lt (by omega),
    ringWrite_eq_put fs.rx.buffer src h.size_pos h₁ h.txOffset_mod (by omega)]

theorem flowRxSeqWrite_eq (fs : FlowSt) {T F D a : Nat} (h : Unpaired fs.rx T F D) {seq : BitVec 32}
    (len : BitVec 16) (src : Nat → Byte) (hseq : seq = fs.rxNextSeq + BitVec.ofNat 32 a)
    (hlen : a + len.toNat ≤ rqNbytesEmpty fs.rx) :
    flowRxSeqWrite fs seq len src =
      { fs with rx := fs.rx.setBuffer (put fs.rx.bufferSize fs.rx.buffer (T + a) len.toNat src) } := by
  have h₁ := h.txOffset_le; have h₂ := h.size; have h₃ := h.empty_add; have h₄ := h.dequeued; have h₅ := h.flushed
  have hB := h.size_pos
  have hdiff : seq - fs.rxNextSeq = BitVec.ofNat 32 a := by
    rw [hseq, BitVec.add_comm, BitVec.add_sub_cancel]
  have hpos : (BitVec.ofNat 32 fs.rx.txOffset + BitVec.ofNat 32 a).toNat = fs.rx.txOffset + a := by
    rw [← BitVec.ofNat_add, toNat_ofNat_of_lt (by omega)]
  have hmod : (fs.rx.txOffset + a) % fs.rx.bufferSize = (T + a) % fs.rx.bufferSize := by
    rw [Nat.add_mod, h.txOffset_mod, ← Nat.add_mod]
  simp only [flowRxSeqWrite, hdiff, hpos]
  split
  · rw [flowRxWrite, toNat_sub_of_le (by rw [toNat_ofNat_of_lt (by omega), hpos]; assumption), hpos,
      toNat_ofNat_of_lt (by omega),
      ringWrite_eq_put fs.rx.buffer (n := T + a) src hB (by omega)
        (by rw [← hmod, ← Nat.mod_eq_sub_mod (by assumption)]) (by omega)]
  · rw [flowRxWrite, hpos, ringWrite_eq_put fs.rx.buffer src hB (by omega) hmod (by omega)]

/-! ## The state of reception -/

/-- The out-of-order interval is empty, or it starts after byte `lo`, ends in
the unused part of the ring, and holds its bytes of the stream. -/
def Ooo (S : Nat → Byte) (isn : BitVec 32) (rx : RdmaQueue) (start len : BitVec 32) (lo D : Nat) : Prop :=
  len = 0 ∨ ∃ b, lo < b ∧ b + len.toNat + rdmaQueuePad ≤ D + rx.bufferSize ∧
    start = isn + BitVec.ofNat 32 b ∧ Agree rx.bufferSize rx.buffer b (b + len.toNat) S

/-- `n` bytes of the stream are enqueued, `F` of them flushed and `D` dequeued. -/
structure RecvSt (S : Nat → Byte) (isn : BitVec 32) (fs : FlowSt) (n F D : Nat) : Prop where
  rx : Unpaired fs.rx n F D
  ring : Agree fs.rx.bufferSize fs.rx.buffer D n S
  next : fs.rxNextSeq = isn + BitVec.ofNat 32 n + if fs.has flowstRxfin then 1 else 0
  ooo : fs.has flowstRxfin = false → Ooo S isn fs.rx fs.rxOooStart fs.rxOooLen n D

structure SameRx (fs fs' : FlowSt) : Prop where
  rx : fs'.rx = fs.rx
  next : fs'.rxNextSeq = fs.rxNextSeq
  fin : fs'.has flowstRxfin = fs.has flowstRxfin
  start : fs'.rxOooStart = fs.rxOooStart
  len : fs'.rxOooLen = fs.rxOooLen

theorem SameRx.refl (fs : FlowSt) : SameRx fs fs := ⟨rfl, rfl, rfl, rfl, rfl⟩

section Parts

variable {S : Nat → Byte} {isn : BitVec 32} {fs fs' : FlowSt} {n F D : Nat}

theorem RecvSt.same (h : RecvSt S isn fs n F D) (hs : SameRx fs fs') : RecvSt S isn fs' n F D := by
  refine ⟨hs.rx ▸ h.rx, hs.rx ▸ h.ring, by rw [hs.next, hs.fin]; exact h.next, ?_⟩
  rw [hs.fin, hs.rx, hs.start, hs.len]
  exact h.ooo

theorem RecvSt.next_of_open (h : RecvSt S isn fs n F D) (hfin : fs.has flowstRxfin = false) :
    fs.rxNextSeq = isn + BitVec.ofNat 32 n := by
  rw [h.next, hfin]
  simp

theorem RecvSt.oooWrite (h : RecvSt S isn fs n F D) {seq bytes start len : BitVec 32} {payload : Nat → Byte} {a : Nat}
    (hseq : seq = fs.rxNextSeq + BitVec.ofNat 32 a) (hb : bytes.toNat < 2 ^ 16)
    (hlen : a + bytes.toNat ≤ rqNbytesEmpty fs.rx)
    (hooo : fs.has flowstRxfin = false → Ooo S isn
      (fs.rx.setBuffer (put fs.rx.bufferSize fs.rx.buffer (n + a) bytes.toNat payload)) start len n D) :
    RecvSt S isn (flowRxSeqWrite { fs with rxOooStart := start, rxOooLen := len } seq (bytes.setWidth 16) payload)
      n F D := by
  have h₁ := h.rx.empty_add
  have e := flowRxSeqWrite_eq { fs with rxOooStart := start, rxOooLen := len } h.rx (bytes.setWidth 16) payload hseq
    (by rw [toNat_setWidth16_of_lt hb]; exact hlen)
  rw [toNat_setWidth16_of_lt hb] at e
  rw [e]
  exact ⟨h.rx.setBuffer _, h.ring.put_after payload (by omega) (by omega), h.next, hooo⟩

theorem packetOoo_recv (h : RecvSt S isn fs n F D) {seq bytes : BitVec 32} {payload : Nat → Byte} {a : Nat}
    (hseq : seq = fs.rxNextSeq + BitVec.ofNat 32 a) (ha : 0 < a) (hb : bytes.toNat < 2 ^ 16)
    (hlen : a + bytes.toNat ≤ rqNbytesEmpty fs.rx)
    (hsrc : fs.has flowstRxfin = false → ∀ i < bytes.toNat, payload i = S (n + a + i)) :
    RecvSt S isn (packetOoo fs seq bytes payload) n F D := by
  have h₁ := h.rx.empty_add; have h₂ := h.rx.size; have h₃ := h.rx.dequeued; have h₄ := h.rx.flushed
  have hend (hfin : fs.has flowstRxfin = false) : seq = isn + BitVec.ofNat 32 (n + a) := by
    rw [hseq, h.next_of_open hfin, add_ofNat_add]
  have hself (hfin : fs.has flowstRxfin = false) :=
    Agree.put_self (B := fs.rx.bufferSize) (m := fs.rx.buffer) (s := S) (by omega) (hsrc hfin)
  unfold packetOoo
  split
  · exact h
  split
  · refine h.oooWrite hseq hb hlen fun hfin => .inr ⟨n + a, by omega, ?_, hend hfin, ?_⟩
    · simp only [setBuffer]; omega
    · exact hself hfin
  · rename_i hne
    split
    · rename_i hadj
      refine h.oooWrite hseq hb hlen fun hfin => ?_
      obtain ⟨b, hlo, hhi, hstart, hring⟩ := (h.ooo hfin).resolve_left hne
      -- the segment ends where the interval starts
      have hbe : n + a + bytes.toNat = b := by
        rw [hend hfin, hstart, ← ofNat_toNat bytes, add_ofNat_add] at hadj
        exact eq_of_add_ofNat_eq hadj (by omega) (by omega)
      have hsum : (fs.rxOooLen + bytes).toNat = fs.rxOooLen.toNat + bytes.toNat :=
        BitVec.toNat_add_of_lt (by omega)
      refine .inr ⟨n + a, by omega, ?_, hend hfin, ?_⟩
      · simp only [setBuffer, hsum]; omega
      · rw [hsum, show n + a + (fs.rxOooLen.toNat + bytes.toNat) = b + fs.rxOooLen.toNat by omega]
        have hself := hself hfin
        rw [hbe] at hself
        exact hself.append (hring.put_keep (by omega) (hsrc hfin) (by omega) (by omega))
    · split
      · rename_i hadj
        refine h.oooWrite hseq hb hlen fun hfin => ?_
        obtain ⟨b, hlo, hhi, hstart, hring⟩ := (h.ooo hfin).resolve_left hne
        -- the segment starts where the interval ends
        have hbe : b + fs.rxOooLen.toNat = n + a := by
          rw [hend hfin, hstart, ← ofNat_toNat fs.rxOooLen, add_ofNat_add] at hadj
          exact eq_of_add_ofNat_eq hadj (by omega) (by omega)
        have hsum : (fs.rxOooLen + bytes).toNat = fs.rxOooLen.toNat + bytes.toNat :=
          BitVec.toNat_add_of_lt (by omega)
        refine .inr ⟨b, hlo, ?_, hstart, ?_⟩
        · simp only [setBuffer, hsum]; omega
        · rw [hsum, ← Nat.add_assoc, hbe]
          rw [hbe] at hring
          exact (hring.put_keep (by omega) (hsrc hfin) (by omega) (by omega)).append (hself hfin)
      · exact h

theorem enqueue_none_eval {q : RdmaQueue} {T : Nat} (h : Unpaired q T F D) (sz : Nat)
    (hsz : sz ≤ rqNbytesEmpty q) (env : RdmaEnv) :
    ∃ q', (rqTryEnqueue q none sz).eval env = some (q', 0, env) ∧ Unpaired q' (T + sz) F D ∧
      q'.bufferSize = q.bufferSize ∧ q'.buffer = q.buffer := by
  rw [h.empty] at hsz
  obtain ⟨q', e, h', hs, hb⟩ := h.enqueue none hsz
  exact ⟨q', by rw [e]; rfl, h', hs, hb⟩

/-- After bytes in order, up to byte `n`: the interval after byte `lo` is
dropped, cut, or taken over. -/
theorem packetCatchUp_recv (fs : FlowSt) (hrx : Unpaired fs.rx n F D) (hring : Agree fs.rx.bufferSize fs.rx.buffer D n S)
    (hfin : fs.has flowstRxfin = false) (hnext : fs.rxNextSeq = isn + BitVec.ofNat 32 n) {lo : Nat}
    (hlo : n < lo + 2 ^ 31) (hooo : Ooo S isn fs.rx fs.rxOooStart fs.rxOooLen lo D) {bump : BitVec 32}
    {env : RdmaEnv} {r : SegResult} (hr : packetCatchUp fs bump env = some r) :
    ∃ k, RecvSt S isn r.fs (n + k) F D ∧ r.rxBump = bump + BitVec.ofNat 32 k ∧
      r.fs.has flowstRxfin = false := by
  have hnext' : fs.rxNextSeq = isn + BitVec.ofNat 32 n + if fs.has flowstRxfin then 1 else 0 := by
    rw [hfin, hnext]; simp
  have h₁ := hrx.empty_add
  have hw := hrx.empty_lt
  unfold packetCatchUp at hr
  split at hr
  · rename_i h0
    cases hr
    exact ⟨0, ⟨hrx, hring, hnext', fun _ => .inl h0⟩, by simp, hfin⟩
  rename_i hne
  obtain ⟨b, hb, hhi, hstart, hiv⟩ := hooo.resolve_left hne
  split at hr
  · cases hr
    exact ⟨0, ⟨hrx, hring, hnext', fun _ => .inl rfl⟩, by simp, hfin⟩
  rename_i ts te htrim
  obtain ⟨a, hseq, ha, hle, -⟩ := tcpTrimRxbuf_spec hw htrim
  have hle' : ts.toNat + te.toNat ≤ fs.rxOooLen.toNat := by
    exact Nat.le_trans hle (Nat.mod_le _ _)
  -- the interval now starts `a` bytes ahead of byte `n`
  have hba : b + ts.toNat = n + a := by
    rw [hstart, hnext, ← ofNat_toNat (ts.setWidth 32), toNat_setWidth32, add_ofNat_add,
      add_ofNat_add] at hseq
    exact eq_of_add_ofNat_eq hseq (by omega) (by omega)
  have hlen := toNat_sub_trims hle'
  have hcut : Agree fs.rx.bufferSize fs.rx.buffer (n + a)
      (n + a + (fs.rxOooLen.toNat - (ts.toNat + te.toNat))) S := hiv.mono (by omega) (by omega)
  simp only at hr
  split at hr
  · rename_i hcaught
    have ha0 : a = 0 := by
      have := hseq.symm.trans hcaught.2
      rw [hnext, add_ofNat_add] at this
      have := eq_of_add_ofNat_eq this (by omega) (by omega)
      omega
    subst ha0
    obtain ⟨q', e, h', hs, hbuf⟩ := enqueue_none_eval hrx (fs.rxOooLen.toNat - (ts.toNat + te.toNat)) (by omega) env
    rw [hlen, e] at hr
    simp only [ne_eq, not_true_eq_false, if_false, Option.some.injEq] at hr
    subst hr
    refine ⟨fs.rxOooLen.toNat - (ts.toNat + te.toNat), ⟨h', ?_, ?_, fun _ => .inl rfl⟩, ?_, hfin⟩
    · simp only [hs, hbuf]
      exact hring.append hcut
    · show fs.rxNextSeq + _ = _ + if fs.has flowstRxfin then 1 else 0
      rw [hfin, hnext, ← ofNat_toNat (fs.rxOooLen - _), hlen, add_ofNat_add]
      simp
    · rw [← ofNat_toNat (fs.rxOooLen - _), hlen]
  · rename_i hcaught
    cases hr
    refine ⟨0, ⟨hrx, hring, hnext', fun _ => ?_⟩, by simp, hfin⟩
    by_cases hz : fs.rxOooLen - (ts.setWidth 32 + te.setWidth 32) = 0
    · exact .inl hz
    · refine .inr ⟨n + a, ?_, ?_, ?_, ?_⟩
      · rcases Nat.eq_zero_or_pos a with rfl | hpos
        · refine absurd ⟨?_, ?_⟩ hcaught
          · bv_omega
          · rw [hseq]; simp
        · omega
      · simp only [hlen]; omega
      · rw [hseq, hnext, add_ofNat_add]
      · simp only [hlen]; exact hcut

theorem packetPayload_recv (h : RecvSt S isn fs n n D) (hfin : fs.has flowstRxfin = false) {bytes : BitVec 32}
    {payload : Nat → Byte} (hb : bytes.toNat < 2 ^ 16) (hlen : bytes.toNat ≤ rqNbytesEmpty fs.rx)
    (hsrc : ∀ i < bytes.toNat, payload i = S (n + i)) {env : RdmaEnv} {r : SegResult}
    (hr : packetPayload fs bytes payload env = some r) :
    ∃ k, RecvSt S isn r.fs (n + k) n D ∧ r.rxBump.toNat = k ∧ r.fs.has flowstRxfin = false := by
  have h₁ := h.rx.empty_add; have h₃ := h.rx.dequeued
  have hlt : ¬ rqNbytesEmpty fs.rx < bytes.toNat := by omega
  obtain ⟨q', e, h', hs, hbuf⟩ := enqueue_none_eval (h.rx.setBuffer
    (put fs.rx.bufferSize fs.rx.buffer n bytes.toNat payload)) bytes.toNat hlen env
  have hwr := flowRxWrite_eq h.rx (bytes.setWidth 16) payload (by rw [toNat_setWidth16_of_lt hb]; exact hlen)
  rw [toNat_setWidth16_of_lt hb] at hwr
  simp only [packetPayload, hlt, if_false, hwr, e, gt_iff_lt, Int.lt_irrefl] at hr
  have hring : Agree fs.rx.bufferSize q'.buffer D (n + bytes.toNat) S := by
    rw [hbuf]
    exact h.ring.put_next h₃ (by omega) hsrc
  have hooo : Ooo S isn q' fs.rxOooStart fs.rxOooLen n D := by
    rcases h.ooo hfin with h0 | ⟨b, hlo, hhi, hstart, hiv⟩
    · exact .inl h0
    · refine .inr ⟨b, hlo, by rw [hs]; exact hhi, hstart, ?_⟩
      rw [hs, hbuf]
      exact hiv.put_keep (B := fs.rx.bufferSize) (by omega) hsrc (by omega) (by omega)
  have hnext : fs.rxNextSeq + bytes = isn + BitVec.ofNat 32 (n + bytes.toNat) := by
    rw [h.next_of_open hfin, ← add_ofNat_add, ofNat_toNat]
  obtain ⟨k, hst, hbump, hf⟩ := packetCatchUp_recv { fs with rx := q', rxNextSeq := fs.rxNextSeq + bytes } h'
    (by rw [hs]; exact hring) hfin hnext (by omega) hooo hr
  have hk := hst.rx.lap
  have hsz : r.fs.rx.bufferSize < 2 ^ 31 := hst.rx.size
  refine ⟨bytes.toNat + k, by rw [← Nat.add_assoc]; exact hst, ?_, hf⟩
  rw [hbump, ← ofNat_toNat bytes, ← BitVec.ofNat_add, ofNat_toNat, toNat_ofNat_of_lt (by omega)]

theorem RecvSt.fin (h : RecvSt S isn fs n F D) (p : RxPacket) : RecvSt S isn (packetFin fs p).1 n F D := by
  unfold packetFin
  split
  · rename_i hc
    have hopen : fs.has flowstRxfin = false := by
      simp only [FlowSt.has, hc.2.1]
      decide
    have hset := has_raise_self fs flowstRxfin
    refine ⟨h.rx, h.ring, ?_, fun hf => ?_⟩
    · show fs.rxNextSeq + 1 = _ + if (fs.raise flowstRxfin).has flowstRxfin then 1 else 0
      rw [h.next_of_open hopen, hset]
      simp
    · exact absurd (hset.symm.trans hf) (by decide)
  · exact h

theorem packetUnlock_recv {st : PacketState} {k : Nat} (h : RecvSt S isn st.fs (n + k) n D)
    (hk : st.rxBump.toNat = k) {flowId ts rxPos oldAvail txBump : BitVec 32} {p : RxPacket} {r : FlowResult}
    (hr : packetUnlock st flowId p ts rxPos oldAvail txBump = some r) : RecvSt S isn r.fs (n + k) (n + k) D := by
  subst hk
  by_cases hc : st.rxBump ≠ 0 ∨ txBump ≠ 0 ∨ st.finBump = true
  · obtain ⟨q', e, h', hb, hs⟩ := h.rx.nflush st.rxBump.toNat
    rw [show min st.rxBump.toNat (n + st.rxBump.toNat - n) = st.rxBump.toNat by omega] at e h'
    simp only [packetUnlock, hc, if_true, e, Rdma.eval, ne_eq, not_true_eq_false, if_false,
      Option.some.injEq] at hr
    subst hr
    refine ⟨h', ?_, h.next, fun hf => ?_⟩
    · rw [hb, hs]
      exact h.ring
    · simp only [Ooo, hb, hs]
      exact h.ooo hf
  · simp only [packetUnlock, hc, if_false, Option.some.injEq] at hr
    subst hr
    simp only [not_or, not_not] at hc
    rw [show st.rxBump.toNat = 0 by rw [hc.1]; rfl] at h ⊢
    exact h

theorem packetAck_same {p : RxPacket} {r : AckResult} (h : packetAck fs p = some r) : SameRx fs r.fs := by
  obtain ⟨hrx, hnext, hflags, hstart, hlen⟩ := packetAck_rx h
  exact ⟨hrx, hnext, by rw [FlowSt.has, FlowSt.has, hflags], hstart, hlen⟩

end Parts

/-! ## Segments of the stream -/

/-- The packet is well formed, and its payload, if any, is the stream from
byte `cut` on, which is less than `2³¹` bytes from byte `n`. -/
def CutFrom (S : Nat → Byte) (isn : BitVec 32) (n : Nat) (p : RxPacket) (cut : Nat) : Prop :=
  40 + p.extraHlen ≤ p.ipLen.toNat ∧
    (0 < p.payloadBytes.toNat → cut < n + 2 ^ 31 ∧ n < cut + 2 ^ 31 ∧ p.seqno = isn + BitVec.ofNat 32 cut ∧
      ∀ i < p.payloadBytes.toNat, p.payload 0 i = S (cut + i))

instance (S : Nat → Byte) (isn : BitVec 32) (n : Nat) (p : RxPacket) (cut : Nat) :
    Decidable (CutFrom S isn n p cut) := inferInstanceAs (Decidable (_ ∧ (_ → _ ∧ _ ∧ _ ∧ ∀ i < _, _ = _)))

section Segment

variable {S : Nat → Byte} {isn : BitVec 32} {fs : FlowSt} {n D cut : Nat} {p : RxPacket}

theorem CutFrom.bytes_lt (h : CutFrom S isn n p cut) : p.payloadBytes.toNat < 2 ^ 16 := by
  have h₁ := h.1
  have e : (p.ipLen.setWidth 32).toNat = p.ipLen.toNat := toNat_setWidth32 _
  have e' : (BitVec.ofNat 32 (40 + p.extraHlen)).toNat = 40 + p.extraHlen := toNat_ofNat_of_lt (by omega)
  rw [RxPacket.payloadBytes, toNat_sub_of_le (by omega)]
  omega

theorem CutFrom.payload_eq (h : CutFrom S isn n p cut) {off a : Nat}
    (hseq : p.seqno + BitVec.ofNat 32 off = isn + BitVec.ofNat 32 n + BitVec.ofNat 32 a) (ha : a < 2 ^ 31)
    {i : Nat} (hi : off + i < p.payloadBytes.toNat) : p.payload off i = S (n + a + i) := by
  obtain ⟨h₁, h₂, h₃, h₄⟩ := h.2 (by omega)
  have hlt := h.bytes_lt
  rw [h₃, add_ofNat_add, add_ofNat_add] at hseq
  have he := eq_of_add_ofNat_eq hseq (by omega) (by omega)
  have := h₄ (off + i) hi
  rw [← he, show cut + off + i = cut + (off + i) by omega, ← this]
  simp [RxPacket.payload, Nat.add_assoc]

theorem packetTrim_cases (h : RecvSt S isn fs n n D) (hcut : CutFrom S isn n p cut)
    (hslip : ¬ TrimSlip fs p.seqno (p.payloadBytes.setWidth 16)) :
    packetTrim fs p = .outside ∨
    ∃ (a off : Nat) (bytes : BitVec 32), bytes.toNat < 2 ^ 16 ∧ a + bytes.toNat ≤ rqNbytesEmpty fs.rx ∧
      (fs.has flowstRxfin = false → ∀ i < bytes.toNat, p.payload off i = S (n + a + i)) ∧
      (a = 0 ∧ packetTrim fs p = .inOrder bytes off ∨
        0 < a ∧ packetTrim fs p = .outOfOrder (fs.rxNextSeq + BitVec.ofNat 32 a) bytes off) := by
  have hb := hcut.bytes_lt
  have hw := h.rx.empty_lt
  cases ht : tcpTrimRxbuf fs p.seqno (p.payloadBytes.setWidth 16) with
  | none => exact .inl (by simp [packetTrim, ht])
  | some t =>
    obtain ⟨ts, te⟩ := t
    right
    obtain ⟨a, hseq, ha, hle, hend⟩ := tcpTrimRxbuf_spec hw ht
    have hend := hend hslip
    rw [toNat_setWidth16_of_lt hb] at hle hend
    have hlen := toNat_sub_trims hle
    refine ⟨a, ts.toNat, p.payloadBytes - (ts.setWidth 32 + te.setWidth 32), by omega, by omega, ?_, ?_⟩
    · intro hfin i hi
      refine hcut.payload_eq ?_ (by omega) (by omega)
      rw [← h.next_of_open hfin, ← hseq, ← ofNat_toNat (ts.setWidth 32), toNat_setWidth32]
    · rcases Nat.eq_zero_or_pos a with h0 | h0
      · refine .inl ⟨h0, ?_⟩
        have he : p.seqno + ts.setWidth 32 = fs.rxNextSeq := by rw [hseq, h0]; simp
        simp [packetTrim, ht, he]
      · refine .inr ⟨h0, ?_⟩
        have he : fs.rxNextSeq + BitVec.ofNat 32 a ≠ fs.rxNextSeq := by
          intro he
          have := eq_of_add_ofNat_eq (m := a) (n := 0) (by rw [he]; simp) (by omega) (by omega)
          omega
        simp [packetTrim, ht, hseq, he]

theorem packetSegment_recv (h : RecvSt S isn fs n n D) (hcut : CutFrom S isn n p cut)
    (hslip : ¬ TrimSlip fs p.seqno (p.payloadBytes.setWidth 16)) {ts : BitVec 32} {env : RdmaEnv}
    {st : PacketState} (hst : packetSegment fs p ts env = some st) :
    ∃ k, RecvSt S isn st.fs (n + k) n D ∧ st.rxBump.toNat = k := by
  rcases packetTrim_cases h hcut hslip with ht | ⟨a, off, bytes, hb, hlen, hsrc, ⟨rfl, ht⟩ | ⟨ha, ht⟩⟩
  · simp only [packetSegment, ht, Option.some.injEq] at hst
    subst hst
    exact ⟨0, h, rfl⟩
  · have hw : SameRx fs (packetWindow fs p ts) := ⟨rfl, rfl, rfl, rfl, rfl⟩
    have h' := h.same hw
    simp only [packetSegment, ht] at hst
    split at hst
    · cases hst
      exact ⟨0, h', rfl⟩
    · rename_i hfin
      split at hst
      · cases hst
      · rename_i seg fs₁ bump env₁ hseg
        simp only [Option.some.injEq] at hst
        subst hst
        split at hseg
        · rename_i hpos
          have hopen : (packetWindow fs p ts).has flowstRxfin = false := by
            cases hc : (packetWindow fs p ts).has flowstRxfin with
            | false => rfl
            | true => exact absurd ⟨hc, hpos⟩ hfin
          obtain ⟨k, hk, hbump, -⟩ := packetPayload_recv h' hopen hb (by rw [hw.rx]; omega)
            (fun i hi => by have := hsrc hopen i hi; rwa [Nat.add_zero] at this) hseg
          exact ⟨k, hk.fin p, hbump⟩
        · cases hseg
          exact ⟨0, h'.fin p, rfl⟩
  · simp only [packetSegment, ht, Option.some.injEq] at hst
    subst hst
    exact ⟨0, packetOoo_recv h rfl ha hb hlen hsrc, rfl⟩

/-- `fast_flows_packet` receives some more bytes of the stream. -/
theorem fastFlowsPacket_recv (h : RecvSt S isn fs n n D) (hcut : CutFrom S isn n p cut)
    (hslip : ¬ TrimSlip fs p.seqno (p.payloadBytes.setWidth 16)) {flowId ts : BitVec 32} {env : RdmaEnv}
    {r : FlowResult} (hr : fastFlowsPacket fs flowId p ts env = some r) :
    ∃ k, RecvSt S isn r.fs (n + k) (n + k) D := by
  simp only [fastFlowsPacket] at hr
  split at hr
  · cases hr
    refine ⟨0, h.same ?_⟩
    split
    · exact ⟨rfl, rfl, has_raise_slowpath fs, rfl, rfl⟩
    · exact .refl fs
  · split at hr
    · cases hr
    · rename_i fs₁ txBump reset hack
      have hs := packetAck_same hack
      have h₁ := h.same hs
      split at hr
      · cases hr
      · rename_i st hst
        split at hst
        · cases hst
          exact ⟨0, packetUnlock_recv h₁ rfl hr⟩
        · have hslip' : ¬ TrimSlip fs₁ p.seqno (p.payloadBytes.setWidth 16) := by
            have e₁ := hs.next; have e₂ := hs.rx
            simp only at e₁ e₂
            simp only [TrimSlip, e₁, e₂]
            exact hslip
          obtain ⟨k, hk, hbump⟩ := packetSegment_recv h₁ hcut hslip' hst
          exact ⟨k, packetUnlock_recv hk hbump hr⟩

end Segment

theorem fastFlowsBump_same (fs : FlowSt) (flowId : BitVec 32) (bumpSeq : BitVec 16) (txBump : BitVec 32)
    (flags : BitVec 8) (ts : BitVec 32) : SameRx fs (fastFlowsBump fs flowId bumpSeq txBump flags ts).fs := by
  rcases fastFlowsBump_fs fs flowId bumpSeq txBump flags ts with ⟨-, e⟩ | ⟨-, e | e⟩ <;> rw [e]
  · exact .refl fs
  · exact ⟨rfl, rfl, rfl, rfl, rfl⟩
  · exact ⟨rfl, rfl, has_raise_txfin { fs with bumpSeq := bumpSeq }, rfl, rfl⟩

theorem fastFlowsQman_same {fs : FlowSt} {flowId : BitVec 32} {ctxId newCore : BitVec 16} {ts : BitVec 32}
    {r : FlowResult} (h : fastFlowsQman fs flowId ctxId newCore ts = some r) : SameRx fs r.fs := by
  rcases fastFlowsQman_cases h with rfl | rfl | ⟨-, -, rfl⟩ <;> exact ⟨rfl, rfl, rfl, rfl, rfl⟩

theorem fastFlowsRetransmit_same (fs : FlowSt) (flowId : BitVec 32) :
    SameRx fs (fastFlowsRetransmit fs flowId).fs := by
  simp only [fastFlowsRetransmit]
  split <;> exact ⟨rfl, rfl, rfl, rfl, rfl⟩

/-! ## Runs -/

/-- A flow with the bytes the application has dequeued from `rx`. -/
structure RecvRun where
  fs : FlowSt
  dequeued : List Byte

/-- A call of the fast path (for a packet with the place in the stream it is
cut from), a dequeue by the application, or any change of the transmit queue
by its other side. -/
inductive RecvOp where
  | call (c : FlowCall) (cut : Nat)
  | dequeue (sz : Nat)
  | setTx (q : RdmaQueue)

def recvStep (flowId : BitVec 32) (s : RecvRun) : RecvOp → Option RecvRun
  | .call c _ => (c.run s.fs flowId).map fun r => { s with fs := r.fs }
  | .dequeue sz => (rqTryDequeue s.fs.rx true sz).map fun d =>
      ⟨{ s.fs with rx := d.queue }, if d.rv = 0 then s.dequeued ++ d.out else s.dequeued⟩
  | .setTx q => some { s with fs := { s.fs with tx := q } }

/-- The bytes enqueued into `rx` so far: those dequeued, and those there. -/
def RecvRun.received (s : RecvRun) : List Byte := s.dequeued ++ rqBytes s.fs.rx (rqNbytesEnqueued s.fs.rx)

def recvCut (S : Nat → Byte) (isn : BitVec 32) (s : RecvRun) : RecvOp → Prop
  | .call (.packet p _ _) cut => CutFrom S isn s.received.length p cut
  | _ => True

def recvNoSlip (s : RecvRun) : RecvOp → Prop
  | .call (.packet p _ _) _ => ¬ TrimSlip s.fs p.seqno (p.payloadBytes.setWidth 16)
  | _ => True

instance (S : Nat → Byte) (isn : BitVec 32) (s : RecvRun) : ∀ op, Decidable (recvCut S isn s op)
  | .call (.packet p _ _) cut => inferInstanceAs (Decidable (CutFrom S isn s.received.length p cut))
  | .call (.bump ..) _ | .call (.qman ..) _ | .call .retransmit _ | .dequeue _ | .setTx _ => isTrue trivial

instance (s : RecvRun) : ∀ op, Decidable (recvNoSlip s op)
  | .call (.packet p _ _) _ =>
    inferInstanceAs (Decidable (¬ TrimSlip s.fs p.seqno (p.payloadBytes.setWidth 16)))
  | .call (.bump ..) _ | .call (.qman ..) _ | .call .retransmit _ | .dequeue _ | .setTx _ => isTrue trivial

/-- A flow before its first packet: nothing is enqueued or out of order, and
no FIN was received. -/
structure RecvFresh (fs : FlowSt) (isn : BitVec 32) : Prop where
  alloc : ∃ addr mem nbytes lkey rkey, rqAllocateInPlace addr mem nbytes lkey rkey = some fs.rx
  pad : rdmaQueuePad < fs.rx.bufferSize
  next : fs.rxNextSeq = isn
  ooo : fs.rxOooLen = 0
  fin : fs.has flowstRxfin = false

/-- The bytes enqueued are the first ones of the stream, and `rx_next_seq` is
the sequence number after them (and after the FIN, if it was received). -/
def RecvRun.Faithful (S : Nat → Byte) (isn : BitVec 32) (s : RecvRun) : Prop :=
  s.received = (List.range s.received.length).map S ∧
    s.fs.rxNextSeq = isn + BitVec.ofNat 32 s.received.length + if s.fs.has flowstRxfin then 1 else 0
deriving Decidable

section Run

variable {S : Nat → Byte} {isn : BitVec 32} {s : RecvRun}

def RecvInv (S : Nat → Byte) (isn : BitVec 32) (s : RecvRun) : Prop :=
  ∃ n, RecvSt S isn s.fs n n s.dequeued.length ∧ s.dequeued = (List.range s.dequeued.length).map S

theorem RecvInv.received_eq {n : Nat} (h : RecvSt S isn s.fs n n s.dequeued.length)
    (hd : s.dequeued = (range s.dequeued.length).map S) : s.received = (range n).map S := by
  have h₁ := h.rx.dequeued; have h₂ := h.rx.lap
  have hbytes : rqBytes s.fs.rx (n - s.dequeued.length) =
      take s.fs.rx.bufferSize s.fs.rx.buffer s.dequeued.length (n - s.dequeued.length) := by
    simp only [rqBytes, h.rx.rx]
    exact slice_append_eq_take s.fs.rx.buffer h.rx.size_pos (by omega) rfl
  rw [RecvRun.received, h.rx.enqueued, hbytes, h.ring.take_eq (Nat.le_refl _) (by omega)]
  conv_lhs => rw [hd]
  rw [length_map, length_range]
  conv_rhs => rw [show n = s.dequeued.length + (n - s.dequeued.length) by omega, range_add, map_append,
    map_map]
  rfl

theorem RecvInv.faithful (hI : RecvInv S isn s) : s.Faithful S isn := by
  obtain ⟨n, h, hd⟩ := hI
  have e := RecvInv.received_eq h hd
  have hlen : s.received.length = n := by rw [e]; simp
  exact ⟨by rw [hlen]; exact e, by rw [hlen]; exact h.next⟩

/-- Every step that meets the condition keeps the invariant. -/
theorem recvStep_inv (flowId : BitVec 32) (s : RecvRun) (op : RecvOp) (s' : RecvRun) (hI : RecvInv S isn s)
    (hok : recvCut S isn s op ∧ recvNoSlip s op) (hs : recvStep flowId s op = some s') : RecvInv S isn s' := by
  obtain ⟨n, h, hd⟩ := hI
  cases op with
  | setTx q =>
    cases hs
    exact ⟨n, h.same ⟨rfl, rfl, rfl, rfl, rfl⟩, hd⟩
  | dequeue sz =>
    by_cases hsz : sz ≤ n - s.dequeued.length
    · obtain ⟨q', e, h', hb, hsize⟩ := h.rx.possibleDequeue true true hsz
      have h₁ := h.rx.dequeued
      have hout := h.ring.take_eq (n := s.dequeued.length) (k := sz) (Nat.le_refl _) (by omega)
      simp only [recvStep, rqTryDequeue, e, Option.map_some, if_true, Option.some.injEq] at hs
      subst hs
      have hlen : (s.dequeued ++ take s.fs.rx.bufferSize s.fs.rx.buffer s.dequeued.length sz).length =
          s.dequeued.length + sz := by simp
      refine ⟨n, ?_, ?_⟩
      · simp only [hlen]
        refine ⟨h', ?_, h.next, fun hf => ?_⟩
        · simp only [hb, hsize]
          exact h.ring.mono (by omega) (Nat.le_refl _)
        · rcases h.ooo hf with h0 | ⟨b, hlo, hhi, hstart, hiv⟩
          · exact .inl h0
          · refine .inr ⟨b, hlo, ?_, hstart, ?_⟩
            · simp only [hsize]; omega
            · simp only [hb, hsize]; exact hiv
      · simp only [hlen]
        rw [range_add, map_append, ← hd, map_map, hout]
        rfl
    · have e := h.rx.possibleDequeue_short true true (Nat.lt_of_not_le hsz)
      simp only [recvStep, rqTryDequeue, e, Option.map_some, Option.some.injEq] at hs
      subst hs
      exact ⟨n, h, hd⟩
  | call c cut =>
    obtain ⟨r, hr, rfl⟩ := Option.map_eq_some_iff.mp hs
    cases c with
    | packet p ts env =>
      obtain ⟨hcut, hslip⟩ := hok
      rw [recvCut, RecvInv.received_eq h hd, length_map, length_range] at hcut
      obtain ⟨k, hk⟩ := fastFlowsPacket_recv h hcut hslip hr
      exact ⟨n + k, hk, hd⟩
    | bump bumpSeq txBump flags ts =>
      cases hr
      exact ⟨n, h.same (fastFlowsBump_same ..), hd⟩
    | qman ctxId newCore ts => exact ⟨n, h.same (fastFlowsQman_same hr), hd⟩
    | retransmit =>
      cases hr
      exact ⟨n, h.same (fastFlowsRetransmit_same ..), hd⟩

end Run

/-- In every run of a flow from before its first packet, on packets cut from
the stream on which trimming does not slip, the bytes enqueued are the first
bytes of the stream, up to `rx_next_seq`. -/
theorem recv_stream {fs : FlowSt} {isn : BitVec 32} (hfresh : RecvFresh fs isn) (S : Nat → Byte)
    (flowId : BitVec 32) (ops : List RecvOp) (hcut : Run.All (recvStep flowId) (recvCut S isn) ⟨fs, []⟩ ops)
    (hslip : Run.All (recvStep flowId) recvNoSlip ⟨fs, []⟩ ops) :
    ∀ s, Run.exec (recvStep flowId) ⟨fs, []⟩ ops = some s → s.Faithful S isn := by
  intro s hs
  obtain ⟨addr, mem, nbytes, lkey, rkey, halloc⟩ := hfresh.alloc
  have hI : RecvInv S isn ⟨fs, []⟩ := by
    refine ⟨0, ⟨rqAllocateInPlace_unpaired halloc hfresh.pad, Agree.empty (Nat.le_refl _), ?_,
      fun _ => .inl hfresh.ooo⟩, rfl⟩
    simp only [hfresh.fin, hfresh.next]
    simp
  exact (Run.exec_inv (recvStep_inv flowId) hI (hcut.and hslip) hs).faithful

/-- Bytes 4 to 7 arrive before bytes 0 to 3, around the wrap of the sequence
number. -/
theorem recv_stream_reordered :
    RecvFresh (zeroedFlow 24 (-3) 0) (-3) ∧
    ∃ s, Run.exec (recvStep 0) ⟨zeroedFlow 24 (-3) 0, []⟩
        [.call (.packet (.ofStream countingBytes (-3) 4 4 0 16) 0 fun _ => (0, 0)) 4,
          .call (.packet (.ofStream countingBytes (-3) 0 4 0 16) 0 fun _ => (0, 0)) 0, .dequeue 5] = some s ∧
      s.Faithful countingBytes (-3) := by
  have h : RecvFresh (zeroedFlow 24 (-3) 0) (-3) :=
    ⟨⟨4096, fun _ => 0, 112, 0, 0, rfl⟩, by decide, rfl, rfl, rfl⟩
  exact ⟨h, Run.exists_exec (by decide +kernel) fun s hs =>
    recv_stream h countingBytes 0 _ (by decide +kernel) (by decide +kernel) s hs⟩

/-- Four bytes are received. A segment that starts 4 bytes ahead in a window
of 12 and wraps is not trimmed: its last bytes go over those received. -/
theorem recv_untrimmed_overwrites :
    ¬ ∀ (fs : FlowSt) (isn : BitVec 32), RecvFresh fs isn → ∀ (S : Nat → Byte) (flowId : BitVec 32) (ops : List RecvOp),
      Run.All (recvStep flowId) (recvCut S isn) ⟨fs, []⟩ ops →
      ∀ s, Run.exec (recvStep flowId) ⟨fs, []⟩ ops = some s → s.Faithful S isn := by
  intro h
  exact Run.not_forall_exec (by decide +kernel) (h (zeroedFlow 24 (-20) 0) (-20)
    ⟨⟨4096, fun _ => 0, 112, 0, 0, rfl⟩, by decide, rfl, rfl, rfl⟩ countingBytes 0
    [.call (.packet (.ofStream countingBytes (-20) 0 4 0 16) 0 fun _ => (0, 0)) 0,
      .call (.packet (.ofStream countingBytes (-20) 8 24 0 16) 0 fun _ => (0, 0)) 8] (by decide +kernel))

end TasNic
