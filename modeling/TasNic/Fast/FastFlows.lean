import TasNic.Fast.FlowState

/-!
# The fast path (`tas_nic/fast/fast_flows.c`)

What the fast path does to a flow. Each call returns the new flow state, the return value and
what it hands to other parts of the system: segments, updates of the application and of the queue
manager. `none` is a failed assertion or `abort()`.

Compiled as in the repository: out-of-order reception and future acknowledgements on, every
payload acknowledged. Locking, tracing, checksums and the swapping of addresses in an
acknowledgement are left out.
-/

namespace TasNic

/-! ## What goes in and out -/

/-- A packet, as far as it is read: lengths and congestion mark of the IP
header, the TCP header, the timestamp option, and the memory it lies in.
`fast_flows_packet_parse` lets only packets with a header length of at least 5
through. -/
structure RxPacket where
  ipLen : BitVec 16
  ipEcn : BitVec 2
  hdrlen : BitVec 4
  flags : BitVec 9
  seqno : BitVec 32
  ackno : BitVec 32
  wnd : BitVec 16
  tsVal : BitVec 32
  tsEcr : BitVec 32
  mem : Nat → Byte

/-- A segment with the `len` bytes of a stream from `cut` on, the first byte
of which has sequence number `isn`. -/
def RxPacket.ofStream (S : Nat → Byte) (isn : BitVec 32) (cut : Nat) (len : BitVec 16) (ack : BitVec 32)
    (wnd : BitVec 16) : RxPacket where
  ipLen := 40 + len
  ipEcn := 0
  hdrlen := 5
  flags := 0x10
  seqno := isn + BitVec.ofNat 32 cut
  ackno := ack
  wnd := wnd
  tsVal := 0
  tsEcr := 0
  mem := fun i => S (cut + (i - 54))

def tcpFin : BitVec 9 := 0x01
def tcpSyn : BitVec 9 := 0x02
def tcpPsh : BitVec 9 := 0x08
def tcpAck : BitVec 9 := 0x10
def tcpEce : BitVec 9 := 0x40
def tcpCwr : BitVec 9 := 0x80

namespace RxPacket

def has (p : RxPacket) (flag : BitVec 9) : Bool := p.flags &&& flag == flag

/-- `tcp_extra_hlen`: the bytes of TCP options. -/
def extraHlen (p : RxPacket) : Nat := (p.hdrlen.toNat - 5) * 4

def payloadOff (p : RxPacket) : Nat := 54 + p.extraHlen

/-- `payload_bytes`, from the IP length. -/
def payloadBytes (p : RxPacket) : BitVec 32 := p.ipLen.setWidth 32 - BitVec.ofNat 32 (40 + p.extraHlen)

/-- The payload from its byte `off` on. -/
def payload (p : RxPacket) (off : Nat) : Nat → Byte := fun i => p.mem (p.payloadOff + off + i)

end RxPacket

/-- A call of `qman_set`. -/
structure QmanSet where
  id : BitVec 32
  rate : BitVec 32
  avail : BitVec 32
  maxChunk : BitVec 16
  flags : BitVec 8
deriving DecidableEq

/-- A segment of `flow_tx_segment`. -/
structure TxSegment where
  destMac : BitVec 48
  srcIp : BitVec 32
  destIp : BitVec 32
  srcPort : BitVec 16
  destPort : BitVec 16
  ect : Bool
  seq : BitVec 32
  ack : BitVec 32
  wnd : BitVec 16
  fin : Bool
  tsVal : BitVec 32
  tsEcr : BitVec 32
  payload : List Byte
deriving DecidableEq

/-- An acknowledgement of `flow_tx_ack`. -/
structure TxAck where
  seq : BitVec 32
  ack : BitVec 32
  wnd : BitVec 16
  ece : Bool
  tsVal : BitVec 32
  tsEcr : BitVec 32
deriving DecidableEq

/-- A notification for the application, of `arx_cache_add`. -/
structure ArxUpdate where
  dbId : BitVec 16
  appOpaque : BitVec 64
  rxBump : BitVec 32
  rxPos : BitVec 32
  txBump : BitVec 32
  rxDone : Bool
deriving DecidableEq

inductive FlowEffect where
  | qmanSet (q : QmanSet)
  | segment (t : TxSegment)
  | ack (a : TxAck)
  | arx (u : ArxUpdate)
  | forward (core : BitVec 16)
deriving DecidableEq

structure FlowResult where
  fs : FlowSt
  ret : Int
  out : List FlowEffect

/-- The results of RDMA operations, in order: return code and value read. -/
abbrev RdmaEnv := Nat → Int × Nat

def tcpMss : BitVec 32 := 1448
def tcpMaxRtt : BitVec 32 := 100000

def qmanSetRate : BitVec 8 := 1
def qmanSetMaxchunk : BitVec 8 := 2
def qmanSetAvail : BitVec 8 := 8
def qmanAddAvail : BitVec 8 := 16

/-- `qman_set` with new bytes for a flow, if there are more than before. -/
def qmanMore (fs : FlowSt) (id oldAvail newAvail : BitVec 32) : List FlowEffect :=
  if oldAvail < newAvail then
    [.qmanSet ⟨id, fs.txRate, newAvail - oldAvail, tcpMss.setWidth 16,
      qmanSetRate ||| qmanSetMaxchunk ||| qmanAddAvail⟩]
  else []

/-! ## The rings -/

/-- A write of `len` bytes at `pos` of a ring of `B` bytes, in one piece or two. -/
def ringWrite (B : Nat) (m : Nat → Byte) (pos len : Nat) (src : Nat → Byte) : Nat → Byte :=
  if pos + len ≤ B then Circ.copy m pos len src
  else
    let part := B - pos
    Circ.copy (Circ.copy m pos part src) 0 (len - part) fun j => src (part + j)

/-- A read of `len` bytes at `pos` of a ring of `B` bytes. -/
def ringRead (B : Nat) (m : Nat → Byte) (pos len : Nat) : List Byte :=
  if pos + len ≤ B then Circ.slice m pos len
  else
    let part := B - pos
    Circ.slice m pos part ++ Circ.slice m 0 (len - part)

def flowTxRead (fs : FlowSt) (pos : BitVec 32) (len : BitVec 16) : List Byte :=
  ringRead fs.tx.bufferSize fs.tx.buffer pos.toNat len.toNat

def flowRxWrite (fs : FlowSt) (pos : BitVec 32) (len : BitVec 16) (src : Nat → Byte) : FlowSt :=
  { fs with rx := fs.rx.setBuffer (ringWrite fs.rx.bufferSize fs.rx.buffer pos.toNat len.toNat src) }

def flowRxSeqWrite (fs : FlowSt) (seq : BitVec 32) (len : BitVec 16) (src : Nat → Byte) : FlowSt :=
  let diff := seq - fs.rxNextSeq
  let pos := BitVec.ofNat 32 fs.rx.txOffset + diff
  let pos := if pos.toNat ≥ fs.rx.bufferSize then pos - BitVec.ofNat 32 fs.rx.bufferSize else pos
  flowRxWrite fs pos len src

def flowTxSegment (fs : FlowSt) (seq ack rxwnd : BitVec 32) (payload : BitVec 16) (payloadPos : BitVec 32)
    (tsEcho tsMy : BitVec 32) (fin : Bool) : TxSegment where
  destMac := fs.remoteMac
  srcIp := fs.localIp
  destIp := fs.remoteIp
  srcPort := fs.localPort
  destPort := fs.remotePort
  ect := fs.has flowstEcn
  seq := seq
  ack := ack
  wnd := if rxwnd < 0xFFFF then rxwnd.setWidth 16 else 0xFFFF
  fin := fin
  tsVal := tsMy
  tsEcr := tsEcho
  payload := if payload.toNat > 0 then flowTxRead fs payloadPos payload else []

def flowTxAck (p : RxPacket) (seq ack rxwnd : BitVec 32) (echots myts : BitVec 32) : TxAck where
  seq := seq
  ack := ack
  wnd := if rxwnd < 0xFFFF then rxwnd.setWidth 16 else 0xFFFF
  ece := p.ipEcn == 3
  tsVal := myts
  tsEcr := echots

def flowResetRetransmit (fs : FlowSt) : FlowSt :=
  { fs with
    rxDupackCnt := 0
    rxRemoteAvail := fs.rxRemoteAvail + fs.txSent
    txSent := 0
    txRate := if fs.cntTxDrops = 0 then fs.txRate / 2 else fs.txRate
    cntTxDrops := fs.cntTxDrops + 1 }

/-! ## Received packets -/

structure AckResult where
  fs : FlowSt
  txBump : BitVec 32
  /-- The third duplicate: transmission was reset, the rest is skipped. -/
  reset : Bool

def packetDequeue (fs : FlowSt) (txBump : BitVec 32) : Option FlowSt :=
  if txBump ≤ fs.txSent then
    match rqTryDequeue fs.tx false txBump.toNat with
    | some d => if d.rv ≠ 0 then none else some { fs with tx := d.queue, txSent := fs.txSent - txBump }
    | none => none
  else
    -- acknowledges bytes that were not sent
    match rqTryDequeue fs.tx false (txBump - fs.txSent).toNat with
    | some d =>
      if d.rv ≠ 0 then none
      else some { fs with txNextSeq := fs.txNextSeq + (txBump - fs.txSent), tx := d.queue, txSent := 0 }
    | none => none

def packetDupack (fs : FlowSt) (txBump payloadBytes : BitVec 32) : FlowSt × Bool :=
  if txBump ≠ 0 then ({ fs with rxDupackCnt := 0 }, false)
  else if payloadBytes = 0 then
    let fs : FlowSt := { fs with rxDupackCnt := fs.rxDupackCnt + 1 }
    if fs.rxDupackCnt ≥ 3 then (flowResetRetransmit fs, true) else (fs, false)
  else (fs, false)

def packetAck (fs : FlowSt) (p : RxPacket) : Option AckResult :=
  if p.has tcpAck then
    let fs : FlowSt := { fs with cntRxAcks := fs.cntRxAcks + 1 }
    match tcpValidRxack fs p.ackno with
    | none => some ⟨fs, 0, false⟩
    | some txBump =>
      let fs : FlowSt := { fs with
        cntRxAckBytes := fs.cntRxAckBytes + txBump
        cntRxEcnBytes := if p.has tcpEce then fs.cntRxEcnBytes + txBump else fs.cntRxEcnBytes }
      match packetDequeue fs txBump with
      | none => none
      | some fs =>
        let (fs, reset) := packetDupack fs txBump p.payloadBytes
        some ⟨fs, txBump, reset⟩
  else some ⟨fs, 0, false⟩

/-- Where a segment lies: outside of the receive buffer, out of order, or in
order; with what is left of it after trimming. -/
inductive SegCase where
  | outside
  | outOfOrder (seq bytes : BitVec 32) (off : Nat)
  | inOrder (bytes : BitVec 32) (off : Nat)

def packetTrim (fs : FlowSt) (p : RxPacket) : SegCase :=
  match tcpTrimRxbuf fs p.seqno (p.payloadBytes.setWidth 16) with
  | none => .outside
  | some (trimStart, trimEnd) =>
    let bytes := p.payloadBytes - (trimStart.setWidth 32 + trimEnd.setWidth 32)
    let seq := p.seqno + trimStart.setWidth 32
    if seq ≠ fs.rxNextSeq then .outOfOrder seq bytes trimStart.toNat else .inOrder bytes trimStart.toNat

def packetOoo (fs : FlowSt) (seq bytes : BitVec 32) (payload : Nat → Byte) : FlowSt :=
  if bytes = 0 then fs
  else if fs.rxOooLen = 0 then
    flowRxSeqWrite { fs with rxOooStart := seq, rxOooLen := bytes } seq (bytes.setWidth 16) payload
  else if seq + bytes = fs.rxOooStart then
    flowRxSeqWrite { fs with rxOooStart := seq, rxOooLen := fs.rxOooLen + bytes } seq (bytes.setWidth 16) payload
  else if fs.rxOooStart + fs.rxOooLen = seq then
    flowRxSeqWrite { fs with rxOooLen := fs.rxOooLen + bytes } seq (bytes.setWidth 16) payload
  else fs

/-- The time stamps and the window of a segment in order. -/
def packetWindow (fs : FlowSt) (p : RxPacket) (ts : BitVec 32) : FlowSt :=
  let rtt := ts - p.tsEcr
  { fs with
    txNextTs := p.tsVal
    rttEst :=
      if p.has tcpAck ∧ p.tsEcr ≠ 0 ∧ rtt < tcpMaxRtt then
        if fs.rttEst ≠ 0 then (fs.rttEst * 7 + rtt) / 8 else rtt
      else fs.rttEst
    rxRemoteAvail := p.wnd.setWidth 32 }

structure SegResult where
  fs : FlowSt
  rxBump : BitVec 32
  env : RdmaEnv

/-- After bytes were received in order: dropping, adjusting or taking over the
out-of-order interval. -/
def packetCatchUp (fs : FlowSt) (rxBump : BitVec 32) (env : RdmaEnv) : Option SegResult :=
  if fs.rxOooLen = 0 then some ⟨fs, rxBump, env⟩
  else match tcpTrimRxbuf fs fs.rxOooStart (fs.rxOooLen.setWidth 16) with
    | none => some ⟨{ fs with rxOooLen := 0 }, rxBump, env⟩
    | some (trimStart, trimEnd) =>
      let fs : FlowSt := { fs with
        rxOooStart := fs.rxOooStart + trimStart.setWidth 32
        rxOooLen := fs.rxOooLen - (trimStart.setWidth 32 + trimEnd.setWidth 32) }
      if fs.rxOooLen > 0 ∧ fs.rxOooStart = fs.rxNextSeq then
        match (rqTryEnqueue fs.rx none fs.rxOooLen.toNat).eval env with
        | none => none
        | some (q, rv, env) =>
          if rv ≠ 0 then none
          else some ⟨{ fs with rx := q, rxNextSeq := fs.rxNextSeq + fs.rxOooLen, rxOooLen := 0 },
            rxBump + fs.rxOooLen, env⟩
      else some ⟨fs, rxBump, env⟩

def packetPayload (fs : FlowSt) (bytes : BitVec 32) (payload : Nat → Byte) (env : RdmaEnv) : Option SegResult :=
  if rqNbytesEmpty fs.rx < bytes.toNat then none
  else
    let fs := flowRxWrite fs (BitVec.ofNat 32 fs.rx.txOffset) (bytes.setWidth 16) payload
    match (rqTryEnqueue fs.rx none bytes.toNat).eval env with
    | none => none
    | some (q, rv, env) =>
      -- a positive return value fails the assertion, a negative one is only reported
      if rv > 0 then none
      else packetCatchUp { fs with rx := q, rxNextSeq := fs.rxNextSeq + bytes } bytes env

/-- The FIN flag: whether it was accepted, too. -/
def packetFin (fs : FlowSt) (p : RxPacket) : FlowSt × Bool :=
  if p.has tcpFin ∧ fs.rxFlags &&& flowstRxfin = 0 ∧
      fs.rxNextSeq = p.seqno + p.payloadBytes ∧ fs.rxOooLen = 0 then
    ({ fs.raise flowstRxfin with rxNextSeq := fs.rxNextSeq + 1 }, true)
  else (fs, false)

/-- What is left to do at the end of `fast_flows_packet`. -/
structure PacketState where
  fs : FlowSt
  rxBump : BitVec 32
  finBump : Bool
  triggerAck : Bool
  env : RdmaEnv

def packetSegment (fs : FlowSt) (p : RxPacket) (ts : BitVec 32) (env : RdmaEnv) : Option PacketState :=
  let triggerAck := decide (p.payloadBytes.toNat > 0)
  match packetTrim fs p with
  | .outside => some ⟨fs, 0, false, true, env⟩
  | .outOfOrder seq bytes off => some ⟨packetOoo fs seq bytes (p.payload off), 0, false, true, env⟩
  | .inOrder bytes off =>
    let fs := packetWindow fs p ts
    if fs.has flowstRxfin ∧ bytes.toNat > 0 then some ⟨fs, 0, false, triggerAck, env⟩
    else
      let seg :=
        if bytes.toNat > 0 then packetPayload fs bytes (p.payload off) env else some ⟨fs, 0, env⟩
      match seg with
      | none => none
      | some ⟨fs, rxBump, env⟩ =>
        let (fs, fin) := packetFin fs p
        some ⟨fs, rxBump, fin, triggerAck || fin, env⟩

/-- The end of `fast_flows_packet`, from `unlock` on. -/
def packetUnlock (st : PacketState) (flowId : BitVec 32) (p : RxPacket) (ts : BitVec 32)
    (rxPos : BitVec 32) (oldAvail txBump : BitVec 32) : Option FlowResult :=
  let flushed : Option (FlowSt × List FlowEffect) :=
    if st.rxBump ≠ 0 ∨ txBump ≠ 0 ∨ st.finBump then
      match (rqNflush st.fs.rx st.rxBump.toNat).eval st.env with
      | none => none
      | some (q, n, _) =>
        if n ≠ st.rxBump.toNat then none
        else some ({ st.fs with rx := q },
          [.arx ⟨st.fs.dbId, st.fs.appOpaque, st.rxBump, rxPos, txBump, st.finBump⟩])
    else some (st.fs, [])
  match flushed with
  | none => none
  | some (fs, arx) =>
    let ack :=
      if st.triggerAck then
        [.ack (flowTxAck p fs.txNextSeq fs.rxNextSeq (BitVec.ofNat 32 (rqNbytesEmpty fs.rx)) fs.txNextTs ts)]
      else []
    some ⟨fs, if st.triggerAck then 1 else 0,
      arx ++ qmanMore fs ((flowId.setWidth 16).setWidth 32) oldAvail (tcpTxavail fs none) ++ ack⟩

def fastpathFlags : BitVec 9 := tcpAck ||| tcpPsh ||| tcpEce ||| tcpCwr ||| tcpFin

/-- A packet for the slow path: because of the flow's state, or of its flags. -/
def packetSlow (fs : FlowSt) (p : RxPacket) : Bool :=
  fs.rxFlags &&& flowstSlowpath != 0 || p.flags &&& ~~~fastpathFlags != 0

/-- `fast_flows_packet`, for the flow with number `flowId`. -/
def fastFlowsPacket (fs : FlowSt) (flowId : BitVec 32) (p : RxPacket) (ts : BitVec 32) (env : RdmaEnv) :
    Option FlowResult :=
  if packetSlow fs p then
    -- a SYN does not move the flow to the slow path for good
    let permanent := fs.rxFlags &&& flowstSlowpath != 0 || p.flags &&& tcpSyn == 0
    some ⟨if permanent then fs.raise flowstSlowpath else fs, -1, []⟩
  else
    let oldAvail := tcpTxavail fs none
    let rxPos := BitVec.ofNat 32 fs.rx.txOffset
    match packetAck fs p with
    | none => none
    | some ⟨fs, txBump, reset⟩ =>
      let st :=
        if reset then some ⟨fs, 0, false, decide (p.payloadBytes.toNat > 0), env⟩
        else packetSegment fs p ts env
      match st with
      | none => none
      | some st => packetUnlock st flowId p ts rxPos oldAvail txBump

/-- A packet when `fast_flows_packet` arrives at `unlock`. -/
def packetReceived (fs : FlowSt) (p : RxPacket) (ts : BitVec 32) (env : RdmaEnv) : Option PacketState :=
  if packetSlow fs p then none
  else match packetAck fs p with
    | none => none
    | some ⟨fs, _, reset⟩ =>
      if reset then some ⟨fs, 0, false, decide (p.payloadBytes.toNat > 0), env⟩ else packetSegment fs p ts env

/-! ## The application, the queue manager and the timer -/

/-- `FLEXTCP_PL_ATX_FLTXDONE`. -/
def atxFltxdone : BitVec 8 := 1

/-- The check of `fast_flows_bump` for bumps out of order. -/
def bumpStale (fs : FlowSt) (bumpSeq : BitVec 16) : Bool :=
  (bumpSeq ≥ fs.bumpSeq && bumpSeq.toNat - fs.bumpSeq.toNat > 65535 / 2) ||
    (bumpSeq < fs.bumpSeq && (fs.bumpSeq.toNat < 65535 / 4 * 3 || bumpSeq.toNat > 65535 / 4))

def fastFlowsBump (fs : FlowSt) (flowId : BitVec 32) (bumpSeq : BitVec 16) (txBump : BitVec 32)
    (flags : BitVec 8) (ts : BitVec 32) : FlowResult :=
  if bumpStale fs bumpSeq then ⟨fs, -1, []⟩
  else
    let fs : FlowSt := { fs with bumpSeq := bumpSeq }
    let closed := fs.has flowstTxfin
    let done := flags &&& atxFltxdone == atxFltxdone
    if !(closed && txBump != 0) && done && !closed && txBump == 0 then ⟨fs, -1, []⟩
    else
      let txBump := if closed && txBump != 0 then 0 else txBump
      let txAvail := BitVec.ofNat 32 (rqNbytesEnqueued fs.tx)
      let oldAvail := tcpTxavail fs (some (txAvail - txBump))
      let newAvail := tcpTxavail fs none
      let fs := if done && !closed then fs.raise flowstTxfin else fs
      let qman := qmanMore fs flowId oldAvail newAvail
      let empty := BitVec.ofNat 32 (rqNbytesEmpty fs.rx)
      if newAvail = 0 ∧ rqNbytesEmpty fs.rx = 0 then
        ⟨fs, 0, qman ++ [.segment (flowTxSegment fs fs.txNextSeq fs.rxNextSeq empty 0 0 fs.txNextTs ts false)]⟩
      else ⟨fs, -1, qman⟩

/-- The bytes `fast_flows_qman` sends. -/
def qmanLen (fs : FlowSt) : BitVec 32 :=
  let avail := tcpTxavail fs none
  if tcpMss < avail then tcpMss else avail

/-- The offset in the transmit buffer `fast_flows_qman` sends from. -/
def qmanSendOffset (fs : FlowSt) : Nat :=
  let sendOffset := fs.tx.rxOffset + fs.txSent.toNat
  if sendOffset > fs.tx.bufferSize then sendOffset - fs.tx.bufferSize else sendOffset

/-- Whether `fast_flows_qman` sends a FIN. -/
def qmanFin (fs : FlowSt) : Bool := fs.has flowstTxfin && decide (rqNbytesEnqueued fs.tx > 0)

/-- The flow after a segment is sent. -/
def qmanSent (fs : FlowSt) : FlowSt :=
  { fs with txNextSeq := fs.txNextSeq + qmanLen fs, txSent := fs.txSent + qmanLen fs }

/-- The segment `fast_flows_qman` sends; the last byte stands for the FIN. -/
def qmanSegment (fs : FlowSt) (ts : BitVec 32) : TxSegment :=
  let len := if qmanFin fs then qmanLen fs - 1 else qmanLen fs
  flowTxSegment (qmanSent fs) fs.txNextSeq fs.rxNextSeq (BitVec.ofNat 32 (rqNbytesEmpty fs.rx))
    (len.setWidth 16) (BitVec.ofNat 32 (qmanSendOffset fs)) fs.txNextTs ts (qmanFin fs)

/-- `fast_flows_qman` on core `ctxId`; `newCore` is the core the flow's group
is steered to. -/
def fastFlowsQman (fs : FlowSt) (flowId : BitVec 32) (ctxId newCore : BitVec 16) (ts : BitVec 32) :
    Option FlowResult :=
  if newCore ≠ ctxId then
    some ⟨fs, -1, [.forward newCore, .qmanSet ⟨flowId, 0, 0, 0, qmanSetRate ||| qmanSetMaxchunk ||| qmanSetAvail⟩]⟩
  else if tcpTxavail fs none = 0 then some ⟨fs, -1, []⟩
  else if qmanFin fs ∧ qmanLen fs = 0 then none
  else some ⟨qmanSent fs, 0, [.segment (qmanSegment fs ts)]⟩

def fastFlowsRetransmit (fs : FlowSt) (flowId : BitVec 32) : FlowResult :=
  let oldAvail := tcpTxavail fs none
  if fs.txSent = 0 then ⟨fs, 0, []⟩
  else
    let fs := flowResetRetransmit fs
    ⟨fs, 0, qmanMore fs flowId oldAvail (tcpTxavail fs none)⟩

/-! ## What calls do to the flow -/

section Calls

variable {fs : FlowSt} {p : RxPacket} {flowId ts : BitVec 32} {env : RdmaEnv} {st : PacketState} {r : FlowResult}

theorem fastFlowsPacket_cases (h : fastFlowsPacket fs flowId p ts env = some r) :
    (packetSlow fs p = true ∧ (r.fs = fs ∨ r.fs = fs.raise flowstSlowpath) ∧ r.ret = -1 ∧ r.out = []) ∨
    ∃ st txBump, packetReceived fs p ts env = some st ∧
      packetUnlock st flowId p ts (BitVec.ofNat 32 fs.rx.txOffset) (tcpTxavail fs none) txBump = some r := by
  unfold fastFlowsPacket at h
  split at h
  · rename_i hslow
    cases h
    refine .inl ⟨hslow, ?_, rfl, rfl⟩
    split
    · exact .inr rfl
    · exact .inl rfl
  · rename_i hslow
    simp only at h
    split at h
    · cases h
    · rename_i fs' txBump reset hack
      split at h
      · cases h
      · rename_i st hst
        refine .inr ⟨st, _, ?_, h⟩
        simp only [packetReceived, hslow, hack]
        exact hst

/-- What a packet comes to at `unlock`, when its acknowledgement left `a`. -/
inductive Arrives (a : AckResult) (p : RxPacket) (ts : BitVec 32) (env : RdmaEnv) : PacketState → Prop
  | reset (hr : a.reset = true) : Arrives a p ts env ⟨a.fs, 0, false, decide (p.payloadBytes.toNat > 0), env⟩
  | outside (hr : a.reset = false) (ht : packetTrim a.fs p = .outside) : Arrives a p ts env ⟨a.fs, 0, false, true, env⟩
  | outOfOrder {seq bytes : BitVec 32} {off : Nat} (hr : a.reset = false)
      (ht : packetTrim a.fs p = .outOfOrder seq bytes off) :
      Arrives a p ts env ⟨packetOoo a.fs seq bytes (p.payload off), 0, false, true, env⟩
  | dropped {bytes : BitVec 32} {off : Nat} (hr : a.reset = false) (ht : packetTrim a.fs p = .inOrder bytes off)
      (hfin : a.fs.has flowstRxfin = true) :
      Arrives a p ts env ⟨packetWindow a.fs p ts, 0, false, decide (p.payloadBytes.toNat > 0), env⟩
  | taken {bytes : BitVec 32} {off : Nat} {t : SegResult} (hr : a.reset = false)
      (ht : packetTrim a.fs p = .inOrder bytes off) (hopen : bytes.toNat > 0 → a.fs.has flowstRxfin = false)
      (hseg : (if bytes.toNat > 0 then packetPayload (packetWindow a.fs p ts) bytes (p.payload off) env
        else some ⟨packetWindow a.fs p ts, 0, env⟩) = some t) :
      Arrives a p ts env ⟨(packetFin t.fs p).1, t.rxBump, (packetFin t.fs p).2,
        decide (p.payloadBytes.toNat > 0) || (packetFin t.fs p).2, t.env⟩

theorem packetReceived_arrives (h : packetReceived fs p ts env = some st) :
    packetSlow fs p = false ∧ ∃ a, packetAck fs p = some a ∧ Arrives a p ts env st := by
  unfold packetReceived at h
  split at h
  · cases h
  rename_i hslow
  refine ⟨by simpa using hslow, ?_⟩
  split at h
  · cases h
  rename_i fs₁ txBump reset ha
  refine ⟨_, ha, ?_⟩
  cases reset with
  | true =>
    cases h
    exact .reset rfl
  | false =>
    simp only [packetSegment, Bool.false_eq_true, if_false] at h
    split at h
    · rename_i ht
      cases h
      exact .outside rfl ht
    · rename_i ht
      cases h
      exact .outOfOrder rfl ht
    · rename_i ht
      split at h
      · rename_i hc
        cases h
        exact .dropped rfl ht hc.1
      · rename_i hc
        split at h
        · cases h
        · rename_i hseg
          cases h
          have := Arrives.taken (a := ⟨fs₁, txBump, false⟩) rfl ht
            (fun hpos => (Bool.not_eq_true _).mp fun hf => hc ⟨hf, hpos⟩) hseg
          exact this

/-- Bytes in flight are taken out of the queue; of an acknowledgement beyond
them, only the bytes beyond. -/
theorem packetDequeue_eq {b : BitVec 32} {fs' : FlowSt} (h : packetDequeue fs b = some fs') :
    ∃ d, rqTryDequeue fs.tx false (if b ≤ fs.txSent then b else b - fs.txSent).toNat = some d ∧ d.rv = 0 ∧
      fs' = { fs with
        tx := d.queue
        txNextSeq := if b ≤ fs.txSent then fs.txNextSeq else fs.txNextSeq + (b - fs.txSent)
        txSent := if b ≤ fs.txSent then fs.txSent - b else 0 } := by
  unfold packetDequeue at h
  split at h
  all_goals
    rename_i hb
    split at h
    · rename_i d hd
      split at h
      · cases h
      · rename_i hrv
        cases h
        refine ⟨d, by simpa only [hb, if_true, if_false] using hd, Decidable.not_not.mp hrv, ?_⟩
        simp [hb]
    · cases h

theorem packetAck_rx {a : AckResult} (h : packetAck fs p = some a) :
    a.fs.rx = fs.rx ∧ a.fs.rxNextSeq = fs.rxNextSeq ∧ a.fs.rxFlags = fs.rxFlags ∧ a.fs.rxOooStart = fs.rxOooStart ∧
      a.fs.rxOooLen = fs.rxOooLen := by
  simp only [packetAck] at h
  split at h
  · split at h
    · cases h
      exact ⟨rfl, rfl, rfl, rfl, rfl⟩
    · split at h
      · cases h
      · rename_i hd
        cases h
        obtain ⟨d, -, -, rfl⟩ := packetDequeue_eq hd
        simp only [packetDupack]
        split
        · exact ⟨rfl, rfl, rfl, rfl, rfl⟩
        split
        · split <;> exact ⟨rfl, rfl, rfl, rfl, rfl⟩
        · exact ⟨rfl, rfl, rfl, rfl, rfl⟩
  · cases h
    exact ⟨rfl, rfl, rfl, rfl, rfl⟩

theorem packetOoo_eq (fs : FlowSt) (seq bytes : BitVec 32) (payload : Nat → Byte) : ∃ buffer start len,
    packetOoo fs seq bytes payload =
      { fs with rx := fs.rx.setBuffer buffer, rxOooStart := start, rxOooLen := len } := by
  unfold packetOoo
  split
  · exact ⟨fs.rx.buffer, _, _, rfl⟩
  split
  · exact ⟨_, _, _, rfl⟩
  split
  · exact ⟨_, _, _, rfl⟩
  split
  · exact ⟨_, _, _, rfl⟩
  · exact ⟨fs.rx.buffer, _, _, rfl⟩

theorem packetPayload_eq {bytes : BitVec 32} {payload : Nat → Byte} {t : SegResult}
    (h : packetPayload fs bytes payload env = some t) : ∃ rx next start len,
    t.fs = { fs with rx := rx, rxNextSeq := next, rxOooStart := start, rxOooLen := len } := by
  simp only [packetPayload] at h
  split at h
  · cases h
  split at h
  · cases h
  split at h
  · cases h
  simp only [packetCatchUp] at h
  split at h
  · cases h
    exact ⟨_, _, _, _, rfl⟩
  split at h
  · cases h
    exact ⟨_, _, _, _, rfl⟩
  split at h
  · split at h
    · cases h
    · split at h <;> cases h
      exact ⟨_, _, _, _, rfl⟩
  · cases h
    exact ⟨_, _, _, _, rfl⟩

/-- The end of `fast_flows_packet`: the bytes received are flushed whole and the application is
told, if there is something to tell. -/
theorem packetUnlock_eq {rxPos oldAvail txBump : BitVec 32}
    (h : packetUnlock st flowId p ts rxPos oldAvail txBump = some r) : ∃ rx arx,
    r = ⟨{ st.fs with rx := rx }, if st.triggerAck then 1 else 0,
      arx ++ qmanMore { st.fs with rx := rx } ((flowId.setWidth 16).setWidth 32) oldAvail
        (tcpTxavail { st.fs with rx := rx } none) ++ if st.triggerAck then [.ack (flowTxAck p st.fs.txNextSeq
          st.fs.rxNextSeq (BitVec.ofNat 32 (rqNbytesEmpty rx)) st.fs.txNextTs ts)] else []⟩ ∧
    ((∃ env', (rqNflush st.fs.rx st.rxBump.toNat).eval st.env = some (rx, (st.rxBump.toNat : Int), env')) ∧
        arx = [.arx ⟨st.fs.dbId, st.fs.appOpaque, st.rxBump, rxPos, txBump, st.finBump⟩] ∨
      st.rxBump = 0 ∧ rx = st.fs.rx ∧ arx = []) := by
  simp only [packetUnlock] at h
  split at h
  · cases h
  · rename_i hf
    cases h
    split at hf
    · split at hf
      · cases hf
      · rename_i q n env' he
        split at hf
        · cases hf
        · rename_i hn
          cases hf
          rw [Decidable.not_not.mp hn] at he
          exact ⟨q, _, rfl, .inl ⟨⟨env', he⟩, rfl⟩⟩
    · rename_i hc
      cases hf
      simp only [not_or, not_not] at hc
      exact ⟨_, _, rfl, .inr ⟨hc.1, rfl, rfl⟩⟩

/-- A bump changes `bump_seq` and may close transmission. -/
theorem fastFlowsBump_fs (fs : FlowSt) (flowId : BitVec 32) (bumpSeq : BitVec 16) (txBump : BitVec 32)
    (flags : BitVec 8) (ts : BitVec 32) :
    (bumpStale fs bumpSeq = true ∧ (fastFlowsBump fs flowId bumpSeq txBump flags ts).fs = fs) ∨
    bumpStale fs bumpSeq = false ∧
      ((fastFlowsBump fs flowId bumpSeq txBump flags ts).fs = { fs with bumpSeq := bumpSeq } ∨
        (fastFlowsBump fs flowId bumpSeq txBump flags ts).fs = { fs with bumpSeq := bumpSeq }.raise flowstTxfin) := by
  simp only [fastFlowsBump]
  split
  · exact .inl ⟨‹_›, rfl⟩
  refine .inr ⟨Bool.eq_false_iff.mpr ‹_›, ?_⟩
  split
  · exact .inl rfl
  · split
    · split <;> exact .inr rfl
    · split <;> exact .inl rfl

/-- A bump tells the queue manager of more bytes, or nothing; it sends a segment only if the
receive queue is full. -/
theorem fastFlowsBump_out (fs : FlowSt) (flowId : BitVec 32) (bumpSeq : BitVec 16) (txBump : BitVec 32)
    (flags : BitVec 8) (ts : BitVec 32) : ∃ fs' old new,
    ((fastFlowsBump fs flowId bumpSeq txBump flags ts).ret = -1 ∧
      (fastFlowsBump fs flowId bumpSeq txBump flags ts).out = qmanMore fs' flowId old new) ∨
    ((fastFlowsBump fs flowId bumpSeq txBump flags ts).ret = 0 ∧ rqNbytesEmpty fs.rx = 0 ∧
      ∃ t, t.wnd = 0 ∧
        (fastFlowsBump fs flowId bumpSeq txBump flags ts).out = qmanMore fs' flowId old new ++ [.segment t]) := by
  simp only [fastFlowsBump]
  split
  · exact ⟨fs, 0, 0, .inl ⟨rfl, rfl⟩⟩
  split
  · exact ⟨fs, 0, 0, .inl ⟨rfl, rfl⟩⟩
  -- whether the bump closes transmission or not
  split
  all_goals
    split
    · rename_i hfull
      refine ⟨_, _, _, .inr ⟨rfl, hfull.2, _, ?_, rfl⟩⟩
      rw [hfull.2]
      rfl
    · exact ⟨_, _, _, .inl ⟨rfl, rfl⟩⟩

/-- The queue manager's turn: the flow is on another core, has nothing to send, or sends one
segment. -/
theorem fastFlowsQman_cases {ctxId newCore : BitVec 16} (h : fastFlowsQman fs flowId ctxId newCore ts = some r) :
    r = ⟨fs, -1, [.forward newCore, .qmanSet ⟨flowId, 0, 0, 0, qmanSetRate ||| qmanSetMaxchunk ||| qmanSetAvail⟩]⟩ ∨
    r = ⟨fs, -1, []⟩ ∨
    (newCore = ctxId ∧ tcpTxavail fs none ≠ 0 ∧ r = ⟨qmanSent fs, 0, [.segment (qmanSegment fs ts)]⟩) := by
  unfold fastFlowsQman at h
  split at h
  · cases h
    exact .inl rfl
  rename_i hc
  split at h
  · cases h
    exact .inr (.inl rfl)
  rename_i hne
  split at h
  · cases h
  · cases h
    exact .inr (.inr ⟨Decidable.not_not.mp hc, hne, rfl⟩)

end Calls

theorem ringWrite_eq_put {B : Nat} (m : Nat → Byte) {pos len n : Nat} (src : Nat → Byte) (hB : 0 < B)
    (hp : pos ≤ B) (hn : pos % B = n % B) (hlen : len ≤ B) :
    ringWrite B m pos len src = Circ.put B m n len src := by
  have hpos := Circ.pos_of_le hp
  rw [← Circ.put_congr m len src hn]
  unfold ringWrite
  split
  · have := Circ.copy_eq_put m (n := pos) (k := len) src hB (by rw [hpos]; assumption)
    rwa [hpos] at this
  · have := Circ.copy_copy_eq_put m (n := pos) (k := len) (b := B - pos) src hB hlen
      (by rw [hpos, if_pos (by omega)])
    rwa [hpos] at this

theorem ringRead_eq_take {B : Nat} (m : Nat → Byte) {n len : Nat} (hB : 0 < B) (hlen : len ≤ B) :
    ringRead B m (Circ.pos B n) len = Circ.take B m n len := by
  rw [← Circ.slice_append_eq_take m hB hlen rfl]
  unfold ringRead
  split
  · rw [if_neg (by omega), Nat.sub_self]
    exact (List.append_nil _).symm
  · rw [if_pos (by omega)]

theorem has_raise_of_disjoint (fs : FlowSt) {f g : BitVec 64} (h : g &&& f = 0) : (fs.raise g).has f = fs.has f := by
  have e : (fs.rxFlags ||| g) &&& f = fs.rxFlags &&& f := by
    ext i hi
    have hi' := congrArg (·[i]) h
    simp only [BitVec.getElem_and, BitVec.getElem_or] at hi' ⊢
    cases fs.rxFlags[i] <;> simp_all
  simp [FlowSt.has, FlowSt.raise, e]

theorem has_raise_self (fs : FlowSt) (f : BitVec 64) : (fs.raise f).has f = true := by
  simp only [FlowSt.has, FlowSt.raise, beq_iff_eq]
  ext i
  simp only [BitVec.getElem_and, BitVec.getElem_or]
  cases fs.rxFlags[i] <;> cases f[i] <;> rfl

theorem has_raise_slowpath (fs : FlowSt) : (fs.raise flowstSlowpath).has flowstRxfin = fs.has flowstRxfin :=
  has_raise_of_disjoint fs (by decide)

theorem has_raise_txfin (fs : FlowSt) : (fs.raise flowstTxfin).has flowstRxfin = fs.has flowstRxfin :=
  has_raise_of_disjoint fs (by decide)

inductive FlowCall where
  | packet (p : RxPacket) (ts : BitVec 32) (env : RdmaEnv)
  | bump (bumpSeq : BitVec 16) (txBump : BitVec 32) (flags : BitVec 8) (ts : BitVec 32)
  | qman (ctxId newCore : BitVec 16) (ts : BitVec 32)
  | retransmit

def FlowCall.run (fs : FlowSt) (flowId : BitVec 32) : FlowCall → Option FlowResult
  | .packet p ts env => fastFlowsPacket fs flowId p ts env
  | .bump bumpSeq txBump flags ts => some (fastFlowsBump fs flowId bumpSeq txBump flags ts)
  | .qman ctxId newCore ts => fastFlowsQman fs flowId ctxId newCore ts
  | .retransmit => some (fastFlowsRetransmit fs flowId)

end TasNic
