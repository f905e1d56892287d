import TasNic.Rdma.Reserve

/-!
# The kernel queues and their packet buffers (`tas_nic/slow/nicif.c`, `tas_nic/fast/fast_kernel.c`)

Two queues in shared memory have one packet buffer for each entry. The slow path finds the buffer of an
entry in an array, by dividing the offset in the queue (`nicif_get_rxbuf`, `nicif_get_txbuf`); the fast
path finds it in the entry itself. A queue that has been filled to its end rests at the offset
`buffer_size`, not at 0. There the division gives the length of the array, and the entry read is the one
behind the last.
-/

namespace TasNic

open Function Circ RdmaQueue List Option BitVec

/-! ## Words in memory -/

/-- Byte `j` of a 64-bit word in memory. -/
def leByte (a : BitVec 64) (j : Nat) : Byte := (a >>> (8 * j)).setWidth 8

def leWord (f : Nat → Byte) : BitVec 64 :=
  (f 7 ++ f 6 ++ f 5 ++ f 4 ++ f 3 ++ f 2 ++ f 1 ++ f 0 : BitVec (8 + 8 + 8 + 8 + 8 + 8 + 8 + 8))

theorem leWord_leByte (a : BitVec 64) : leWord (leByte a) = a := by
  apply eq_of_getLsbD_eq
  intro i hi
  simp only [leWord, leByte, getLsbD_append, getLsbD_setWidth, getLsbD_ushiftRight]
  grind

theorem leWord_congr {f g : Nat → Byte} (h : ∀ j < 8, f j = g j) : leWord f = leWord g := by
  simp (disch := decide) only [leWord, h]

/-! ## The queues of a core -/

def pktbufSize : Nat := 1536

/-- `nic_rx_len` and `nic_tx_len`, and where the packet buffers start. The queues' sizes fit an
`int`, and the buffers the packet memory. -/
structure KernelConfig where
  rxLen : Nat
  txLen : Nat
  offBufs : Nat
  rxSize : kernelMsgSize * rxLen + rdmaQueueHdr.toNat < 2 ^ 31
  txSize : kernelMsgSize * txLen + rdmaQueueHdr.toNat < 2 ^ 31
  fits : offBufs + (rxLen + txLen) * pktbufSize ≤ 2 ^ 64

def KernelConfig.rxBuf (c : KernelConfig) (i : Nat) : BitVec 64 := BitVec.ofNat 64 (c.offBufs + i * pktbufSize)

def KernelConfig.txBuf (c : KernelConfig) (i : Nat) : BitVec 64 :=
  BitVec.ofNat 64 (c.offBufs + (c.rxLen + i) * pktbufSize)

/-- The queues of a core, and the addresses in the arrays `rxq_bufs` and `txq_bufs` with what is in
memory behind them. Besides, the packet buffers the producers have used for the entries in the
queues (none for an entry without packet), the indices computed so far, each with the length of the array or
queue, and for each entry taken out the packet buffer the producer and the consumer used. -/
structure KernelQueues where
  rx : RdmaQueue
  tx : RdmaQueue
  rxqBufs : Nat → BitVec 64
  txqBufs : Nat → BitVec 64
  up : List (Option (BitVec 64))
  down : List (Option (BitVec 64))
  slots : List (Nat × Nat)
  reads : List (Option (BitVec 64) × Option (BitVec 64))

/-- `adminq_init_core`, with the memory of the queues and of the arrays. -/
def adminqInitCore (c : KernelConfig) (offRx offTx : Nat) (memRx memTx : Nat → Byte) (bufsRx bufsTx : Nat → BitVec 64) :
    Option KernelQueues :=
  (rqAllocateInPlace offRx memRx (BitVec.ofNat 32 (kernelMsgSize * c.rxLen) + rdmaQueueHdr) (-1) (-1)).bind fun rx =>
    (rqAllocateInPlace offTx memTx (BitVec.ofNat 32 (kernelMsgSize * c.txLen) + rdmaQueueHdr) (-1) (-1)).map fun tx =>
      { rx := rx.setBuffer fun k =>
          if k / kernelMsgSize < c.rxLen ∧ k % kernelMsgSize < 8
          then leByte (c.rxBuf (k / kernelMsgSize)) (k % kernelMsgSize) else rx.buffer k
        tx := tx
        rxqBufs := fun i => if i < c.rxLen then c.rxBuf i else bufsRx i
        txqBufs := fun i => if i < c.txLen then c.txBuf i else bufsTx i
        up := []
        down := []
        slots := []
        reads := [] }

/-- `FLEXTCP_PL_KRX_PACKET`. -/
def krxPacket : Byte := 1
/-- `FLEXTCP_PL_KTX_PACKET`. -/
def ktxPacket : Byte := 1
/-- `FLEXTCP_PL_KTX_CONNRETRAN`. -/
def ktxConnretran : Byte := 2
/-- `FLEXTCP_PL_KTX_PACKET_NOTS`. -/
def ktxPacketNots : Byte := 3

/-- The entry of `nicif_tx_send`; `stack` are the bytes that it does not set. -/
def ktxPacketBytes (addr : BitVec 64) (len : BitVec 16) (noTs : Bool) (stack : Nat → Byte) (j : Nat) : Byte :=
  if j < 8 then leByte addr j
  else if j < 10 then (len >>> (8 * (j - 8))).setWidth 8
  else if j = 63 then if noTs then ktxPacketNots else ktxPacket
  else stack j

/-- The entry of `nicif_connection_retransmit`. -/
def ktxRetransmitBytes (flowId : BitVec 32) (stack : Nat → Byte) (j : Nat) : Byte :=
  if j < 4 then (flowId >>> (8 * j)).setWidth 8 else if j = 63 then ktxConnretran else stack j

inductive KernelOp where
  /-- `fast_kernel_packet`. -/
  | packet (len fnCore flowGroup : BitVec 16) (stack : Nat → Byte)
  /-- `rxq_poll`. -/
  | rxqPoll
  /-- `nicif_tx_send`. -/
  | txSend (len : BitVec 16) (noTs : Bool) (stack : Nat → Byte)
  /-- `nicif_connection_retransmit`. -/
  | retransmit (flowId : BitVec 32) (stack : Nat → Byte)
  /-- `fast_kernel_poll`. -/
  | kernelPoll

def noRdma : Nat → Int × Nat := fun _ => (0, 0)

/-- The packet buffer in the entry at the tail of the queue. -/
def krxTail (q : RdmaQueue) : BitVec 64 := leWord fun j => q.buffer (q.txOffset + j)

/-- The packet buffer `fast_kernel_poll` reads from, if any; another type aborts. -/
def ktxRead (e : List Byte) : Option (Option (BitVec 64)) :=
  if e.getD 63 0 = ktxPacket ∨ e.getD 63 0 = ktxPacketNots then some (some (leWord (e.getD · 0)))
  else if e.getD 63 0 = ktxConnretran then some none
  else none

def kernelStep (c : KernelConfig) (s : KernelQueues) : KernelOp → Option KernelQueues
  | .packet len fnCore flowGroup stack =>
    ((Reserving.fastKernelPacket s.rx true len fnCore (some flowGroup) stack).eval noRdma).map fun (q, dropped, _) =>
      if dropped = 0 then
        { s with
          rx := q
          up := s.up ++ [some (krxTail s.rx)]
          slots := s.slots ++ [(s.rx.txOffset / kernelMsgSize, c.rxLen)] }
      else { s with rx := q }
  | .rxqPoll =>
    let i := s.rx.rxOffset / kernelMsgSize
    if s.rx.rxOffset % kernelMsgSize ≠ 0 then none
    else (rqTryDequeue s.rx true kernelMsgSize).bind fun d =>
      let slots := s.slots ++ [(i, c.rxLen)]
      if d.rv > 0 then some { s with slots := slots }
      else if d.rv < 0 then none
      else
        let read := if d.out.getD 63 0 = krxPacket then some (s.rxqBufs i) else none
        some { s with
          rx := d.queue, up := s.up.tail, slots := slots, reads := s.reads ++ [(s.up.head?.getD none, read)] }
  | .txSend len noTs stack =>
    let i := s.tx.txOffset / kernelMsgSize
    ((Reserving.nicifTxSend s.tx (ktxPacketBytes (s.txqBufs i) len noTs stack)).eval noRdma).map fun (q, r, _) =>
      -- without room it returns before it looks for a buffer
      let slots := if rqNbytesEmpty s.tx < kernelMsgSize then s.slots else s.slots ++ [(i, c.txLen)]
      if r = 0 then { s with tx := q, down := s.down ++ [some (s.txqBufs i)], slots := slots }
      else { s with tx := q, slots := slots }
  | .retransmit flowId stack =>
    ((Reserving.nicifConnectionRetransmit s.tx (ktxRetransmitBytes flowId stack)).eval noRdma).map fun (q, r, _) =>
      if r = 0 then { s with tx := q, down := s.down ++ [none] } else { s with tx := q }
  | .kernelPoll => (rqTryDequeue s.tx true kernelMsgSize).bind fun d =>
      if d.rv > 0 then some s
      else if d.rv < 0 then none
      else (ktxRead d.out).map fun read =>
        { s with tx := d.queue, down := s.down.tail, reads := s.reads ++ [(s.down.head?.getD none, read)] }

/-- Every index computed was below the length, producers and consumers have used the same packet buffers,
and no packet buffer is used by two entries of a queue. -/
structure KernelQueues.Agree (s : KernelQueues) : Prop where
  slots : ∀ x ∈ s.slots, x.1 < x.2
  reads : ∀ x ∈ s.reads, x.1 = x.2
  up : (s.up.filterMap id).Nodup
  down : (s.down.filterMap id).Nodup

/-- The call does not find its offset at the end of the queue. -/
def notAtEnd (s : KernelQueues) : KernelOp → Prop
  | .packet .. => s.rx.txOffset ≠ s.rx.bufferSize
  | .rxqPoll => s.rx.rxOffset ≠ s.rx.bufferSize
  | .txSend .. | .retransmit .. => s.tx.txOffset ≠ s.tx.bufferSize
  | .kernelPoll => True

instance (s : KernelQueues) : ∀ op, Decidable (notAtEnd s op)
  | .packet .. | .rxqPoll | .txSend .. | .retransmit .. => inferInstanceAs (Decidable (_ ≠ _))
  | .kernelPoll => isTrue trivial

/-! ## A queue in its first lap -/

variable {q : RdmaQueue} {d t : Nat} {b : Nat → Option (BitVec 64)}

theorem rqTryEnqueue_straight {m : Nat → Byte} {sz : Nat} (haddr : q.endpoints.tx.addr = q.self)
    (hfit : sz ≤ rqNbytesEmpty q) (hend : q.txOffset + sz ≤ q.bufferSize) :
    rqTryEnqueue q (some m) sz =
      .done ((q.setBuffer (copy q.buffer q.txOffset sz m)).setTxOffset (q.txOffset + sz)) 0 := by
  have hb : (if q.txOffset + sz > q.bufferSize then q.bufferSize - q.txOffset else sz) = sz := if_neg (by omega)
  simp [rqTryEnqueue, haddr, if_neg (Nat.not_lt.mpr hfit), hb]

/-- A queue of `len` entries, of which `t` were put in and `d` taken out, in its first lap. -/
structure FirstLap (q : RdmaQueue) (len t d : Nat) : Prop where
  side : Unpaired q (kernelMsgSize * t) (kernelMsgSize * t) (kernelMsgSize * d)
  size : q.bufferSize = kernelMsgSize * len
  lap : t ≤ len

namespace FirstLap

variable {q q' : RdmaQueue} {len t d : Nat} {env env' : Nat → Int × Nat} {msg : Nat → Byte}

variable (h : FirstLap q len t d)

include h

theorem le : d ≤ t := by
  have := h.side.dequeued
  simp only [kernelMsgSize] at this
  omega

theorem txOffset : q.txOffset = kernelMsgSize * t := by
  have hlap := h.lap
  rw [h.side.tx, h.size]
  exact pos_of_le (by simp only [kernelMsgSize]; omega)

theorem rxOffset : q.rxOffset = kernelMsgSize * d := by
  have hlap := h.lap
  have hle := h.le
  rw [h.side.rx, h.size]
  exact pos_of_le (by simp only [kernelMsgSize]; omega)

theorem tx_slot : q.txOffset / kernelMsgSize = t := by
  rw [h.txOffset]
  exact Nat.mul_div_cancel_left t (by decide)

theorem rx_slot : q.rxOffset / kernelMsgSize = d := by
  rw [h.rxOffset]
  exact Nat.mul_div_cancel_left d (by decide)

theorem lt_of_tx (hne : q.txOffset ≠ q.bufferSize) : t < len := by
  have hlap := h.lap
  rw [h.txOffset, h.size] at hne
  have : t ≠ len := fun e => hne (congrArg _ e)
  omega

theorem lt_of_rx (hne : q.rxOffset ≠ q.bufferSize) : d < len := by
  have hlap := h.lap
  have hle := h.le
  rw [h.rxOffset, h.size] at hne
  have : d ≠ len := fun e => hne (congrArg _ e)
  omega

/-- An entry is put in, or the call aborts. -/
theorem push (ht : t < len) {r : Int}
    (he : (enqueueFlush q msg kernelMsgSize .atLeast).eval env = some (q', r, env')) :
    r = 0 ∧ FirstLap q' len (t + 1) d ∧ q'.buffer = copy q.buffer (kernelMsgSize * t) kernelMsgSize msg := by
  have hmul : kernelMsgSize * (t + 1) = kernelMsgSize * t + kernelMsgSize := Nat.mul_succ _ _
  by_cases hfit : kernelMsgSize ≤ rqNbytesEmpty q
  · have hend : q.txOffset + kernelMsgSize ≤ q.bufferSize := by
      rw [h.txOffset, h.size, ← hmul]
      exact Nat.mul_le_mul_left _ ht
    have hstraight := rqTryEnqueue_straight (m := msg) h.side.txAddr hfit hend
    obtain ⟨q₁, hq₁, h₁, hsize₁, -⟩ := h.side.enqueue (some msg) (h.side.empty ▸ hfit)
    obtain ⟨q₂, hq₂, h₂, hbuf₂, hsize₂⟩ := h₁.flushAll
    rw [hstraight] at hq₁
    cases hq₁
    have hpass : FlushCheck.atLeast.Passes kernelMsgSize
        ((kernelMsgSize * t + kernelMsgSize - kernelMsgSize * t : Nat) : Int) := .inr (by omega)
    rw [enqueueFlush, hstraight, Rdma.bind, if_neg (by decide), hq₂, Rdma.bind, if_pos hpass] at he
    cases he
    refine ⟨rfl, ⟨?_, (hsize₂.trans hsize₁).trans h.size, ht⟩, ?_⟩
    · rw [hmul]
      exact h₂
    · rw [hbuf₂, ← h.txOffset]
      rfl
  · -- without room the enqueue returns 1
    obtain ⟨q₁, hq₁, -⟩ := h.side.enqueue_full (some msg) (h.side.empty ▸ Nat.lt_of_not_le hfit)
    rw [enqueueFlush, hq₁] at he
    cases he

theorem reserving {noRoom room : RdmaQueue → Rdma Int}
    {x : RdmaQueue × Int × (Nat → Int × Nat)}
    (he : (TasNic.reserving q kernelMsgSize noRoom room).eval env = some x) :
    (noRoom q).eval env = some x ∨ (room q).eval env = some x := by
  rw [TasNic.reserving, rqTryReserveFlush, if_neg (not_not.mpr h.side.txAddr), rqTryReserveFlushLoop.eq_def] at he
  dsimp only at he
  rw [h.side.unpaired] at he
  split at he
  · exact .inl he
  · exact .inr he

theorem pop {dq : Dequeued} (hd : rqTryDequeue q true kernelMsgSize = some dq) :
    d < t ∧ dq.rv = 0 ∧ FirstLap dq.queue len t (d + 1) ∧ dq.queue.buffer = q.buffer ∧
        dq.out = slice q.buffer (kernelMsgSize * d) kernelMsgSize ∨
      d = t ∧ dq.rv = 1 := by
  have hmul : kernelMsgSize * (d + 1) = kernelMsgSize * d + kernelMsgSize := Nat.mul_succ _ _
  have hle := h.le
  have hlap := h.lap
  by_cases hlt : d < t
  · have hsz : kernelMsgSize ≤ kernelMsgSize * t - kernelMsgSize * d := by
      simp only [kernelMsgSize]
      omega
    obtain ⟨q₁, hq₁, h₁, hbuf₁, hsize₁⟩ := h.side.possibleDequeue true true hsz
    rw [rqTryDequeue, hq₁] at hd
    cases hd
    refine .inl ⟨hlt, rfl, ⟨?_, hsize₁.trans h.size, hlap⟩, hbuf₁, ?_⟩
    · rw [hmul]
      exact h₁
    · refine (slice_eq_take q.buffer rfl ?_).symm
      rw [h.size, ← hmul]
      exact Nat.mul_le_mul_left _ (by omega)
  · obtain rfl : d = t := by omega
    rw [rqTryDequeue, h.side.possibleDequeue_short true true (by simp [kernelMsgSize])] at hd
    cases hd
    exact .inr ⟨rfl, rfl⟩

end FirstLap

/-! ## The entries of the queues -/

/-- The buffer address in the entry of slot `i`. -/
def entryAddr (m : Nat → Byte) (i : Nat) : BitVec 64 := leWord fun j => m (kernelMsgSize * i + j)

/-- The type of the entry of slot `i`. -/
def entryType (m : Nat → Byte) (i : Nat) : Byte := m (kernelMsgSize * i + 63)

theorem entryAddr_copy (m msg : Nat → Byte) (i t : Nat) :
    entryAddr (copy m (kernelMsgSize * t) kernelMsgSize msg) i = if i = t then leWord msg else entryAddr m i := by
  unfold entryAddr
  split
  · subst i
    refine leWord_congr fun j hj => ?_
    rw [copy, if_pos (by simp only [kernelMsgSize]; omega), Nat.add_sub_cancel_left]
  · refine leWord_congr fun j hj => ?_
    rw [copy, if_neg (by simp only [kernelMsgSize]; omega)]

theorem entryType_copy (m msg : Nat → Byte) (i t : Nat) :
    entryType (copy m (kernelMsgSize * t) kernelMsgSize msg) i = if i = t then msg 63 else entryType m i := by
  unfold entryType
  split
  · subst i
    rw [copy, if_pos (by simp only [kernelMsgSize]; omega), Nat.add_sub_cancel_left]
  · rw [copy, if_neg (by simp only [kernelMsgSize]; omega)]

theorem slice_getD (m : Nat → Byte) (o : Nat) {j : Nat} (hj : j < kernelMsgSize) :
    (slice m o kernelMsgSize).getD j 0 = m (o + j) := by
  simp [slice, getD_eq_getElem?_getD, hj]

/-- What the producer and the consumers know of an entry: with a packet buffer it is a packet, and holds
its address. -/
def HoldsPacket (m : Nat → Byte) (i : Nat) : Option (BitVec 64) → Prop
  | some a => entryAddr m i = a ∧ (entryType m i = ktxPacket ∨ entryType m i = ktxPacketNots)
  | none => entryType m i = ktxConnretran

/-- `fast_kernel_poll` reads what the entry holds. -/
theorem ktxRead_holds {m : Nat → Byte} {i : Nat} {b : Option (BitVec 64)} (h : HoldsPacket m i b) :
    ktxRead (slice m (kernelMsgSize * i) kernelMsgSize) = some b := by
  have htype : (slice m (kernelMsgSize * i) kernelMsgSize).getD 63 0 = entryType m i := slice_getD m _ (by decide)
  have haddr : leWord ((slice m (kernelMsgSize * i) kernelMsgSize).getD · 0) = entryAddr m i :=
    leWord_congr fun j hj => slice_getD m _ (by simp only [kernelMsgSize]; omega)
  rw [ktxRead, htype, haddr]
  cases b with
  | some a => rw [if_pos h.2, h.1]
  | none =>
    rw [h, if_neg (by decide), if_pos rfl]

theorem holdsPacket_ktx (m : Nat → Byte) (i : Nat) (a : BitVec 64) (len : BitVec 16) (noTs : Bool)
    (stack : Nat → Byte) :
    HoldsPacket (copy m (kernelMsgSize * i) kernelMsgSize (ktxPacketBytes a len noTs stack)) i (some a) := by
  refine ⟨?_, ?_⟩
  · rw [entryAddr_copy, if_pos rfl]
    refine (leWord_congr fun j hj => ?_).trans (leWord_leByte a)
    rw [ktxPacketBytes, if_pos hj]
  · rw [entryType_copy, if_pos rfl]
    cases noTs
    · exact .inl rfl
    · exact .inr rfl

theorem holdsPacket_retransmit (flowId : BitVec 32) (stack m : Nat → Byte) (i : Nat) :
    HoldsPacket (copy m (kernelMsgSize * i) kernelMsgSize (ktxRetransmitBytes flowId stack)) i none := by
  rw [HoldsPacket, entryType_copy, if_pos rfl]
  rfl

theorem nodup_bufs {f : Nat → Option (BitVec 64)} {n : Nat} (len : Nat) (hlen : d + n ≤ len)
    (hinj : ∀ i j, i < j → j < len → ∀ a, f i = some a → f j ≠ some a) :
    (((range' d n).map f).filterMap id).Nodup := by
  rw [filterMap_map, List.Nodup, pairwise_filterMap]
  refine List.Pairwise.imp_of_mem (fun {i j} _ hj hij a ha b hb hab => ?_) (pairwise_lt_range' (s := d) (n := n))
  obtain ⟨-, hj⟩ := mem_range'_1.mp hj
  exact hinj i j hij (by omega) a ha (hab ▸ hb)

theorem ofNat_ne {a b : Nat} (hab : a < b) (hb : b < 2 ^ 64) : BitVec.ofNat 64 a ≠ BitVec.ofNat 64 b := by
  intro h
  have := congrArg BitVec.toNat h
  rw [toNat_ofNat, toNat_ofNat, Nat.mod_eq_of_lt hb, Nat.mod_eq_of_lt (by omega)] at this
  omega

theorem KernelConfig.rxBuf_ne (c : KernelConfig) {i j : Nat} (hij : i < j) (hj : j < c.rxLen) :
    c.rxBuf i ≠ c.rxBuf j := by
  have := c.fits
  refine ofNat_ne ?_ ?_ <;> simp [pktbufSize] at * <;> omega

theorem KernelConfig.txBuf_ne (c : KernelConfig) {i j : Nat} (hij : i < j) (hj : j < c.txLen) :
    c.txBuf i ≠ c.txBuf j := by
  have := c.fits
  refine ofNat_ne ?_ ?_ <;> simp [pktbufSize] at * <;> omega

/-! ## Runs -/

variable {c : KernelConfig} {s s' : KernelQueues}

/-- The queue to the slow path: the entries hold the addresses of their slots. -/
structure UpInv (c : KernelConfig) (s : KernelQueues) (t d : Nat) : Prop where
  lap : FirstLap s.rx c.rxLen t d
  addrs : ∀ i < c.rxLen, entryAddr s.rx.buffer i = c.rxBuf i
  types : ∀ i, d ≤ i → i < t → entryType s.rx.buffer i = krxPacket
  up : s.up = (List.range' d (t - d)).map fun i => some (c.rxBuf i)
  bufs : ∀ i < c.rxLen, s.rxqBufs i = c.rxBuf i

/-- The queue to the fast path: the entry of slot `i` has the packet buffer `b i`, or none. -/
structure DownInv (c : KernelConfig) (s : KernelQueues) (t d : Nat) (b : Nat → Option (BitVec 64)) : Prop where
  lap : FirstLap s.tx c.txLen t d
  own : ∀ i a, b i = some a → a = c.txBuf i
  holds : ∀ i, d ≤ i → i < t → HoldsPacket s.tx.buffer i (b i)
  down : s.down = (List.range' d (t - d)).map b
  bufs : ∀ i < c.txLen, s.txqBufs i = c.txBuf i

structure KernelInv (c : KernelConfig) (s : KernelQueues) : Prop where
  up : ∃ t d, UpInv c s t d
  down : ∃ t d b, DownInv c s t d b
  slots : ∀ x ∈ s.slots, x.1 < x.2
  reads : ∀ x ∈ s.reads, x.1 = x.2

theorem KernelInv.agree (h : KernelInv c s) : s.Agree := by
  obtain ⟨t, d, hup⟩ := h.up
  obtain ⟨t', d', b, hdown⟩ := h.down
  have hle := hup.lap.le
  have hlap := hup.lap.lap
  have hle' := hdown.lap.le
  have hlap' := hdown.lap.lap
  refine ⟨h.slots, h.reads, ?_, ?_⟩
  · rw [hup.up]
    refine nodup_bufs c.rxLen (by omega) fun i j hij hj a ha hb => c.rxBuf_ne hij hj ?_
    exact some.inj (ha.trans hb.symm)
  · rw [hdown.down]
    refine nodup_bufs c.txLen (by omega) fun i j hij hj a ha hb => c.txBuf_ne hij hj ?_
    exact (hdown.own i a ha).symm.trans (hdown.own j a hb)

theorem mem_concat {α : Type} {P : α → Prop} {l : List α} {y : α} (h : ∀ x ∈ l, P x) (hy : P y) :
    ∀ x ∈ l ++ [y], P x :=
  forall_mem_append.mpr ⟨h, forall_mem_singleton.mpr hy⟩

theorem range'_push (h : d ≤ t) : range' d (t + 1 - d) = range' d (t - d) ++ [t] := by
  have hn : t + 1 - d = t - d + 1 := by omega
  rw [hn, range'_1_concat, Nat.add_sub_cancel' h]

theorem range'_pop (h : d < t) : range' d (t - d) = d :: range' (d + 1) (t - (d + 1)) := by
  have hn : t - d = t - (d + 1) + 1 := by omega
  rw [hn, range'_succ]

theorem UpInv.push (h : UpInv c s t d) (ht : t < c.rxLen) {len fnCore flowGroup : BitVec 16} {stack : Nat → Byte} {r : Int}
    {env env' : Nat → Int × Nat}
    (he : (enqueueFlush s.rx (Reserving.krxBytes s.rx len fnCore flowGroup stack) kernelMsgSize .atLeast).eval env =
      some (q, r, env')) :
    r = 0 ∧ UpInv c { s with rx := q, up := s.up ++ [some (krxTail s.rx)] } (t + 1) d := by
  obtain ⟨hr, hlap, hbuf⟩ := h.lap.push ht he
  have htail : krxTail s.rx = c.rxBuf t := by
    rw [krxTail, h.lap.txOffset]
    exact h.addrs t ht
  refine ⟨hr, hlap, fun i hi => ?_, fun i hi hit => ?_, ?_, h.bufs⟩
  · rw [hbuf, entryAddr_copy]
    split
    · subst i
      refine (leWord_congr fun j hj => ?_).trans htail
      rw [Reserving.krxBytes, if_pos hj]
    · exact h.addrs i hi
  · rw [hbuf, entryType_copy]
    split
    · rfl
    · exact h.types i hi (by omega)
  · rw [h.up, range'_push h.lap.le, map_append, htail]
    rfl

theorem DownInv.push (h : DownInv c s t d b) (ht : t < c.txLen) {msg : Nat → Byte} {a : Option (BitVec 64)}
    (hown : ∀ x, a = some x → x = c.txBuf t) (hmsg : ∀ m, HoldsPacket (copy m (kernelMsgSize * t) kernelMsgSize msg) t a)
    {r : Int} {env env' : Nat → Int × Nat} (he : (enqueueFlush s.tx msg kernelMsgSize .atLeast).eval env = some (q, r, env')) :
    r = 0 ∧ DownInv c { s with tx := q, down := s.down ++ [a] } (t + 1) d (update b t a) := by
  obtain ⟨hr, hlap, hbuf⟩ := h.lap.push ht he
  refine ⟨hr, hlap, fun i x hx => ?_, fun i hi hit => ?_, ?_, h.bufs⟩
  · by_cases hi : i = t
    · subst hi
      rw [update_self] at hx
      exact hown x hx
    · rw [update_of_ne hi] at hx
      exact h.own i x hx
  · rw [hbuf]
    by_cases hit' : i = t
    · subst hit'
      rw [update_self]
      exact hmsg _
    · rw [update_of_ne hit']
      have hold := h.holds i hi (by omega)
      generalize b i = x at hold ⊢
      cases x with
      | some x => rwa [HoldsPacket, entryAddr_copy, entryType_copy, if_neg hit', if_neg hit']
      | none => rwa [HoldsPacket, entryType_copy, if_neg hit']
  · rw [h.down, range'_push h.lap.le, map_append]
    refine congrArg₂ _ (map_congr_left fun i hi => ?_) ?_
    · obtain ⟨-, hi⟩ := mem_range'_1.mp hi
      have := h.lap.le
      rw [update_of_ne (by omega)]
    · rw [map_singleton, update_self]

theorem UpInv.pop (h : UpInv c s t d) {dq : Dequeued} (hlt : d < t) (hlap : FirstLap dq.queue c.rxLen t (d + 1))
    (hbuf : dq.queue.buffer = s.rx.buffer) :
    s.up.head?.getD none = some (c.rxBuf d) ∧
      UpInv c { s with rx := dq.queue, up := s.up.tail } t (d + 1) := by
  have hup := h.up
  rw [range'_pop hlt, map_cons] at hup
  refine ⟨by rw [hup]; rfl, hlap, hbuf ▸ h.addrs, fun i hi hit => ?_, by rw [hup]; rfl, h.bufs⟩
  exact hbuf ▸ h.types i (by omega) hit

theorem DownInv.pop (h : DownInv c s t d b) {dq : Dequeued} (hlt : d < t) (hlap : FirstLap dq.queue c.txLen t (d + 1))
    (hbuf : dq.queue.buffer = s.tx.buffer) :
    s.down.head?.getD none = b d ∧
      DownInv c { s with tx := dq.queue, down := s.down.tail } t (d + 1) b := by
  have hdown := h.down
  rw [range'_pop hlt, map_cons] at hdown
  refine ⟨by rw [hdown]; rfl, hlap, h.own, fun i hi hit => ?_, by rw [hdown]; rfl, h.bufs⟩
  exact hbuf ▸ h.holds i (by omega) hit

namespace KernelInv

variable {stack : Nat → Byte}

theorem packet (h : KernelInv c s) (hne : s.rx.txOffset ≠ s.rx.bufferSize) {len fnCore flowGroup : BitVec 16}
    (hs : kernelStep c s (.packet len fnCore flowGroup stack) = some s') : KernelInv c s' := by
  obtain ⟨t, d, hup⟩ := h.up
  obtain ⟨t', d', b, hdown⟩ := h.down
  have ht := hup.lap.lt_of_tx hne
  obtain ⟨⟨q, dropped, env'⟩, he, rfl⟩ := map_eq_some_iff.mp hs
  rw [Reserving.fastKernelPacket, if_neg (by decide)] at he
  rcases hup.lap.reserving he with he | he
  · cases he
    exact ⟨⟨t, d, { hup with }⟩, ⟨t', d', b, { hdown with }⟩, h.slots, h.reads⟩
  · split at he
    · cases he
    · obtain ⟨rfl, hup'⟩ := hup.push ht he
      refine ⟨⟨t + 1, d, { hup' with }⟩, ⟨t', d', b, { hdown with }⟩, mem_concat h.slots ?_, h.reads⟩
      rw [hup.lap.tx_slot]
      exact ht

theorem rxqPoll (h : KernelInv c s) (hne : s.rx.rxOffset ≠ s.rx.bufferSize) (hs : kernelStep c s .rxqPoll = some s') :
    KernelInv c s' := by
  obtain ⟨t, d, hup⟩ := h.up
  obtain ⟨t', d', b, hdown⟩ := h.down
  have hd := hup.lap.lt_of_rx hne
  have hslots : ∀ x ∈ s.slots ++ [(s.rx.rxOffset / kernelMsgSize, c.rxLen)], x.1 < x.2 := by
    refine mem_concat h.slots ?_
    rw [hup.lap.rx_slot]
    exact hd
  dsimp only [kernelStep] at hs
  split at hs
  · cases hs
  · obtain ⟨dq, hdq, hs⟩ := bind_eq_some_iff.mp hs
    rcases hup.lap.pop hdq with ⟨hlt, hrv, hlap, hbuf, hout⟩ | ⟨-, hrv⟩
    · rw [hrv, if_neg (by decide), if_neg (by decide)] at hs
      cases hs
      obtain ⟨hhead, hup'⟩ := hup.pop hlt hlap hbuf
      refine ⟨⟨t, d + 1, { hup' with }⟩, ⟨t', d', b, { hdown with }⟩, hslots, mem_concat h.reads ?_⟩
      have htype : dq.out.getD 63 0 = krxPacket := by
        rw [hout, slice_getD _ _ (by decide)]
        exact hup.types d (Nat.le_refl d) hlt
      rw [hhead, if_pos htype, hup.lap.rx_slot, hup.bufs d hd]
    · rw [hrv, if_pos (by decide)] at hs
      cases hs
      exact ⟨⟨t, d, { hup with }⟩, ⟨t', d', b, { hdown with }⟩, hslots, h.reads⟩

theorem txSend (h : KernelInv c s) (hne : s.tx.txOffset ≠ s.tx.bufferSize) {len : BitVec 16} {noTs : Bool}
    (hs : kernelStep c s (.txSend len noTs stack) = some s') : KernelInv c s' := by
  obtain ⟨t, d, b, hdown⟩ := h.down
  obtain ⟨t', d', hup⟩ := h.up
  have ht := hdown.lap.lt_of_tx hne
  obtain ⟨⟨q, r, env'⟩, he, rfl⟩ := map_eq_some_iff.mp hs
  rw [Reserving.nicifTxSend, hdown.lap.tx_slot, hdown.bufs t ht] at he
  rw [hdown.lap.tx_slot, hdown.bufs t ht]
  have hslots : ∀ x ∈ s.slots ++ [(t, c.txLen)], x.1 < x.2 := mem_concat h.slots ht
  split at he
  next hempty =>
    cases he
    rw [if_pos hempty]
    exact ⟨⟨t', d', { hup with }⟩, ⟨t, d, b, { hdown with }⟩, h.slots, h.reads⟩
  next hempty =>
    rw [if_neg hempty]
    split at he
    · cases he
    · rcases hdown.lap.reserving he with he | he
      · cases he
        exact ⟨⟨t', d', { hup with }⟩, ⟨t, d, b, { hdown with }⟩, hslots, h.reads⟩
      · obtain ⟨rfl, hdown'⟩ := hdown.push (a := some (c.txBuf t)) ht (fun x hx => (some.inj hx).symm)
          (fun m => holdsPacket_ktx m t _ len noTs stack) he
        exact ⟨⟨t', d', { hup with }⟩, ⟨t + 1, d, _, { hdown' with }⟩, hslots, h.reads⟩

theorem retransmit (h : KernelInv c s) (hne : s.tx.txOffset ≠ s.tx.bufferSize) {flowId : BitVec 32}
    (hs : kernelStep c s (.retransmit flowId stack) = some s') : KernelInv c s' := by
  obtain ⟨t, d, b, hdown⟩ := h.down
  obtain ⟨t', d', hup⟩ := h.up
  have ht := hdown.lap.lt_of_tx hne
  obtain ⟨⟨q, r, env'⟩, he, rfl⟩ := map_eq_some_iff.mp hs
  rw [Reserving.nicifConnectionRetransmit] at he
  rcases hdown.lap.reserving he with he | he
  · cases he
    exact ⟨⟨t', d', { hup with }⟩, ⟨t, d, b, { hdown with }⟩, h.slots, h.reads⟩
  · obtain ⟨rfl, hdown'⟩ := hdown.push (a := none) ht (fun x hx => absurd hx.symm (some_ne_none x))
      (fun m => holdsPacket_retransmit flowId stack m t) he
    exact ⟨⟨t', d', { hup with }⟩, ⟨t + 1, d, _, { hdown' with }⟩, h.slots, h.reads⟩

theorem kernelPoll (h : KernelInv c s) (hs : kernelStep c s .kernelPoll = some s') : KernelInv c s' := by
  obtain ⟨t, d, b, hdown⟩ := h.down
  obtain ⟨t', d', hup⟩ := h.up
  obtain ⟨dq, hdq, hs⟩ := bind_eq_some_iff.mp hs
  rcases hdown.lap.pop hdq with ⟨hlt, hrv, hlap, hbuf, hout⟩ | ⟨-, hrv⟩
  · rw [hrv, if_neg (by decide), if_neg (by decide), hout, ktxRead_holds (hdown.holds d (Nat.le_refl d) hlt)] at hs
    cases hs
    obtain ⟨hhead, hdown'⟩ := hdown.pop hlt hlap hbuf
    exact ⟨⟨t', d', { hup with }⟩, ⟨t, d + 1, b, { hdown' with }⟩, h.slots, mem_concat h.reads hhead⟩
  · rw [hrv, if_pos (by decide)] at hs
    cases hs
    exact h

end KernelInv

theorem kernelStep_inv (s : KernelQueues) (op : KernelOp) (s' : KernelQueues) (h : KernelInv c s) (hok : notAtEnd s op)
    (hs : kernelStep c s op = some s') : KernelInv c s' := by
  cases op with
  | packet len fnCore flowGroup stack => exact h.packet hok hs
  | rxqPoll => exact h.rxqPoll hok hs
  | txSend len noTs stack => exact h.txSend hok hs
  | retransmit flowId stack => exact h.retransmit hok hs
  | kernelPoll => exact h.kernelPoll hs

theorem FirstLap.new {addr len : Nat} {mem : Nat → Byte} {lkey rkey : BitVec 32}
    (hsize : kernelMsgSize * len + rdmaQueueHdr.toNat < 2 ^ 31)
    (h : rqAllocateInPlace addr mem (BitVec.ofNat 32 (kernelMsgSize * len) + rdmaQueueHdr) lkey rkey = some q) :
    FirstLap q len 0 0 := by
  have hB : q.bufferSize = kernelMsgSize * len := by
    rw [(rqAllocateInPlace_some h).1, BitVec.add_sub_cancel, toInt_eq_toNat_of_lt, toNat_ofNat]
    · rw [Int.toNat_natCast, Nat.mod_eq_of_lt (by omega)]
    · rw [toNat_ofNat, Nat.mod_eq_of_lt (by omega)]
      omega
  -- a queue without entries is not allocated
  have hlen : 0 < len := by
    refine Nat.pos_of_ne_zero fun h0 => ?_
    subst h0
    cases h
  refine ⟨rqAllocateInPlace_unpaired h ?_, hB, Nat.zero_le len⟩
  rw [hB]
  simp only [kernelMsgSize, rdmaQueuePad]
  omega

theorem FirstLap.setBuffer {len : Nat} (h : FirstLap q len t d) (m : Nat → Byte) :
    FirstLap (q.setBuffer m) len t d :=
  { h with side := { h.side with } }

theorem adminqInitCore_inv {offRx offTx : Nat} {memRx memTx : Nat → Byte} {bufsRx bufsTx : Nat → BitVec 64}
    (h : adminqInitCore c offRx offTx memRx memTx bufsRx bufsTx = some s) : KernelInv c s := by
  obtain ⟨rx, hrx, h⟩ := bind_eq_some_iff.mp h
  obtain ⟨tx, htx, rfl⟩ := map_eq_some_iff.mp h
  refine ⟨⟨0, 0, (FirstLap.new c.rxSize hrx).setBuffer _, fun i hi => ?_,
      fun i _ hi => absurd hi (Nat.not_lt_zero i), rfl, fun i hi => if_pos hi⟩,
    ⟨0, 0, fun _ => none, FirstLap.new c.txSize htx, fun _ a h => absurd h.symm (some_ne_none a),
      fun i _ hi => absurd hi (Nat.not_lt_zero i), rfl, fun i hi => if_pos hi⟩,
    fun _ hx => absurd hx not_mem_nil, fun _ hx => absurd hx not_mem_nil⟩
  -- the entry of every slot is given its address
  refine (leWord_congr fun j hj => ?_).trans (leWord_leByte (c.rxBuf i))
  have hdiv : (kernelMsgSize * i + j) / kernelMsgSize = i := by simp only [kernelMsgSize]; omega
  have hmod : (kernelMsgSize * i + j) % kernelMsgSize = j := by simp only [kernelMsgSize]; omega
  simp [RdmaQueue.setBuffer, hdiv, hmod, hi, hj]

/-- For every sequence of calls, as long as no call finds the offset at the end of the queue: every index is
in its array, an entry's packet buffer is the same for its producer and its consumer, and no two entries share
one. -/
theorem slots_agree (c : KernelConfig) {offRx offTx : Nat} {memRx memTx : Nat → Byte} {bufsRx bufsTx : Nat → BitVec 64}
    {s₀ s : KernelQueues} (hinit : adminqInitCore c offRx offTx memRx memTx bufsRx bufsTx = some s₀)
    {ops : List KernelOp} (hok : Run.All (kernelStep c) notAtEnd s₀ ops)
    (hrun : Run.exec (kernelStep c) s₀ ops = some s) : s.Agree :=
  (Run.exec_inv kernelStep_inv (adminqInitCore_inv hinit) hok hrun).agree

/-- Two entries each way. -/
def kernelConfigTwo : KernelConfig := ⟨2, 2, 0x10000, by decide, by decide, by decide⟩

def kernelQueuesTwo : Option KernelQueues :=
  adminqInitCore kernelConfigTwo 4096 8192 (fun _ => 0) (fun _ => 0) (fun _ => 0) (fun _ => 0)

/-- A packet each way, and then one up and a retransmission. -/
def kernelOpsTwo : List KernelOp :=
  [.packet 60 0 0 fun _ => 0, .txSend 60 false fun _ => 0, .rxqPoll, .kernelPoll, .packet 60 0 0 fun _ => 0,
    .retransmit 7 fun _ => 0, .rxqPoll, .kernelPoll]

theorem slots_agree_both_ways :
    ∃ s₀ s, kernelQueuesTwo = some s₀ ∧ Run.All (kernelStep kernelConfigTwo) notAtEnd s₀ kernelOpsTwo ∧
      Run.exec (kernelStep kernelConfigTwo) s₀ kernelOpsTwo = some s ∧
      s.reads =
        [(some 0x10000, some 0x10000), (some 0x10c00, some 0x10c00), (some 0x10600, some 0x10600), (none, none)] ∧
      s.Agree := by
  obtain ⟨s₀, hinit, hok, s, hrun, hreads⟩ : ∃ s₀, kernelQueuesTwo = some s₀ ∧
      Run.All (kernelStep kernelConfigTwo) notAtEnd s₀ kernelOpsTwo ∧
      ∃ s, Run.exec (kernelStep kernelConfigTwo) s₀ kernelOpsTwo = some s ∧ s.reads =
        [(some 0x10000, some 0x10000), (some 0x10c00, some 0x10c00), (some 0x10600, some 0x10600), (none, none)] := by
    decide +kernel
  exact ⟨s₀, s, hinit, hok, hrun, hreads, slots_agree kernelConfigTwo hinit hok hrun⟩

/-- Both entries of the queues were used, so they rest at their end. The third packet to the fast path is put in
a buffer behind the array. For the third packet to the slow path the buffer is read behind the queue, the slow
path looks for it behind its array, and the entry it finds is no packet. -/
theorem slot_behind_last :
    (∃ s₀ s, kernelQueuesTwo = some s₀ ∧
      Run.exec (kernelStep kernelConfigTwo) s₀
        [.txSend 60 false fun _ => 0, .kernelPoll, .txSend 60 false fun _ => 0, .kernelPoll,
          .txSend 60 false fun _ => 0] = some s ∧ (2, 2) ∈ s.slots) ∧
    ∃ s₀ s, kernelQueuesTwo = some s₀ ∧
      Run.exec (kernelStep kernelConfigTwo) s₀
        [.packet 60 0 0 fun _ => 0, .rxqPoll, .packet 60 0 0 fun _ => 0, .rxqPoll, .packet 60 0 0 fun _ => 0,
          .rxqPoll] = some s ∧ (2, 2) ∈ s.slots ∧ (some 0, none) ∈ s.reads := by
  decide +kernel

end TasNic
