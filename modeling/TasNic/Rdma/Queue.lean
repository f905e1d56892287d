import TasNic.Lib.Circ

/-!
# The RDMA queue (`include/rdma_queue.h`, `lib/utils/rdma_queue.c`)

A single-producer, single-consumer queue of bytes in a ring. An *unpaired* queue is one structure in
shared memory. A *paired* queue is two structures, one at each end of an RDMA connection: the
transmitter flushes its buffer into the receiver's with RDMA writes, and reads the receiver's offset
with RDMA reads. Its functions are therefore programs that may stop at an RDMA operation (`Rdma`), with
the queue at that moment.

Offsets and sizes are natural numbers. A buffer is smaller than `2³¹` bytes and its offsets are at most
its size, so that the computations of the code do not wrap, but for the subtraction in `rqNbytesEmpty`.
The handle `qp` is left out. The counting functions are called after their assertions were made.
-/

namespace TasNic

abbrev Byte := BitVec 8

structure RdmaQueueEndpoint where
  addr : Nat
  offset : Nat
  lkey : BitVec 32
  rkey : BitVec 32

structure RdmaQueueEndpoints where
  rx : RdmaQueueEndpoint
  tx : RdmaQueueEndpoint
  paired : Bool

/-- `struct rdma_queue`; `self` is the address of the structure,
`(uintptr_t) queue`. -/
structure RdmaQueue where
  self : Nat
  bufferSize : Nat
  flushOffset : Nat
  endpoints : RdmaQueueEndpoints
  isTx : Bool
  buffer : Nat → Byte

/-- `RDMA_QUEUE_PAD`: the bytes that stay free, so that a full buffer differs
from an empty one. -/
def rdmaQueuePad : Nat := 8

/-- `sizeof(struct rdma_queue)`. -/
def rdmaQueueHdr : BitVec 32 := 88

namespace RdmaQueue

abbrev rxOffset (q : RdmaQueue) : Nat := q.endpoints.rx.offset
abbrev txOffset (q : RdmaQueue) : Nat := q.endpoints.tx.offset
abbrev paired (q : RdmaQueue) : Bool := q.endpoints.paired

def setRxOffset (q : RdmaQueue) (o : Nat) : RdmaQueue :=
  { q with endpoints := { q.endpoints with rx := { q.endpoints.rx with offset := o } } }

def setTxOffset (q : RdmaQueue) (o : Nat) : RdmaQueue :=
  { q with endpoints := { q.endpoints with tx := { q.endpoints.tx with offset := o } } }

def setFlushOffset (q : RdmaQueue) (o : Nat) : RdmaQueue := { q with flushOffset := o }

def setBuffer (q : RdmaQueue) (m : Nat → Byte) : RdmaQueue := { q with buffer := m }

end RdmaQueue

open RdmaQueue Circ

/-! ## Counting bytes -/

/-- `rq_nbytes`: the bytes between two offsets; equal offsets mean an empty
range if `inner`, a free buffer otherwise. -/
def rqNbytes (q : RdmaQueue) (i j : Nat) (inner : Bool) : Nat :=
  if i < j then j - i
  else if i > j then q.bufferSize + j - i
  else if inner then 0 else q.bufferSize - rdmaQueuePad

def rqNbytesToFlush (q : RdmaQueue) : Nat := rqNbytes q q.flushOffset q.txOffset true

def rqNbytesEnqueued (q : RdmaQueue) : Nat :=
  if q.paired then rqNbytes q q.rxOffset q.txOffset true
  else rqNbytes q q.rxOffset q.flushOffset true

/-- `rq_nbytes_empty`, with the 64-bit subtraction of the code. -/
def rqNbytesEmpty (q : RdmaQueue) : Nat :=
  let bytes :=
    if q.paired then if q.isTx then rqNbytesToFlush q else rqNbytesEnqueued q
    else rqNbytes q q.rxOffset q.txOffset true
  (q.bufferSize + 2 ^ 64 - bytes - rdmaQueuePad) % 2 ^ 64

def rqNbytesMaxFlush (q : RdmaQueue) : Nat := rqNbytes q q.flushOffset q.rxOffset false

theorem rqNbytes_inner (q : RdmaQueue) (i j : Nat) : rqNbytes q i j true = Circ.gap q.bufferSize i j := by
  unfold rqNbytes gap
  split <;> [skip; split] <;> split <;> simp_all <;> omega

variable {q : RdmaQueue} {sz : Nat}

theorem rqNbytes_pos {n m : Nat} (h : n ≤ m) (hm : m < n + q.bufferSize) :
    rqNbytes q (Circ.pos q.bufferSize n) (Circ.pos q.bufferSize m) true = m - n := by
  rw [rqNbytes_inner, gap_pos (by omega) h hm]

/-- `rqNbytes` as the room in the receiver: for offsets of counts less than a
lap apart, what is left of the lap, or all but the padding if they are equal. -/
theorem rqNbytes_room {n m : Nat} (h : n ≤ m) (hm : m < n + q.bufferSize) :
    rqNbytes q (Circ.pos q.bufferSize m) (Circ.pos q.bufferSize n) false =
      if n = m then q.bufferSize - rdmaQueuePad else q.bufferSize - (m - n) := by
  have hB : 0 < q.bufferSize := by omega
  have hg := gap_pos hB h hm
  split
  · rename_i e
    simp [e, rqNbytes]
  · unfold gap at hg
    unfold rqNbytes
    split at hg <;> split <;> [skip; split; skip; split] <;> omega

theorem rqNbytesEmpty_of_bytes {b : Nat} (hb : (if q.paired then if q.isTx then rqNbytesToFlush q else rqNbytesEnqueued q
      else rqNbytes q q.rxOffset q.txOffset true) = b) (h : b + rdmaQueuePad ≤ q.bufferSize) (hB : q.bufferSize < 2 ^ 31) :
    rqNbytesEmpty q = q.bufferSize - rdmaQueuePad - b := by
  simp only [rqNbytesEmpty, hb]
  simp only [rdmaQueuePad] at h ⊢
  omega

/-! ## RDMA operations -/

/-- A place inside a `struct rdma_queue` that RDMA operations name. -/
inductive RdmaField where
  | buffer (off : Nat)
  | rxOffset
  | txOffset

/-- `struct protected_address`: a place in the queue at `addr`, with its key. -/
structure ProtectedAddress where
  addr : Nat
  field : RdmaField
  key : BitVec 32

/-- A program of the transmitter: it ends, fails an assertion, or has posted
an RDMA operation and goes on with its return code (`rdma_write`), or with the
return code and the queue after the value read has arrived (`rdma_read`). -/
inductive Rdma (α : Type) where
  | done (q : RdmaQueue) (a : α)
  | abort
  | write (q : RdmaQueue) (src dst : ProtectedAddress) (sz : Nat) (k : Int → Rdma α)
  | read (q : RdmaQueue) (dst src : ProtectedAddress) (sz : Nat) (k : Int → RdmaQueue → Rdma α)

namespace Rdma

variable {α β : Type}

def map (f : α → β) : Rdma α → Rdma β
  | done q a => done q (f a)
  | abort => abort
  | write q src dst sz k => write q src dst sz fun rc => (k rc).map f
  | read q dst src sz k => read q dst src sz fun rc q' => (k rc q').map f

/-- Running a program to its end: `env` gives, for each RDMA operation in
turn, its return code and the value a read brings back. The results not used
are returned, too. -/
def eval : Rdma α → (Nat → Int × Nat) → Option (RdmaQueue × α × (Nat → Int × Nat))
  | done q a, env => some (q, a, env)
  | abort, _ => none
  | write _ _ _ _ k, env => (k (env 0).1).eval fun i => env (i + 1)
  | read q _ _ _ k, env => (k (env 0).1 (q.setRxOffset (env 0).2)).eval fun i => env (i + 1)

theorem map_id (p : Rdma α) : p.map (fun a => a) = p := by
  induction p with
  | done => rfl
  | abort => rfl
  | write q src dst sz k ih => simp [map, ih]
  | read q dst src sz k ih => simp [map, ih]

end Rdma

/-! ## The transmitter -/

/-- The end of `rq_nflush` for a paired queue: publish `tx.offset` if
anything was flushed. A failure is only reported. -/
def nflushPublish (q : RdmaQueue) (total : Nat) : Rdma Int :=
  if total > 0 then
    .write q ⟨q.self, .txOffset, q.endpoints.tx.lkey⟩
      ⟨q.endpoints.rx.addr, .txOffset, q.endpoints.rx.rkey⟩ 8 fun _ => .done q total
  else .done q total

/-- One pass of `rq_nflush`'s loop over `n` bytes: one or two RDMA writes of
the ring from `flush_offset` on, to the same offsets of the receiver. -/
def nflushWrite (q : RdmaQueue) (n : Nat) (k : RdmaQueue → Rdma Int) : Rdma Int :=
  if n > 0 then
    let b1 := if q.flushOffset + n > q.bufferSize then q.bufferSize - q.flushOffset else n
    let b2 := n - b1
    .write q ⟨q.self, .buffer q.flushOffset, q.endpoints.tx.lkey⟩
      ⟨q.endpoints.rx.addr, .buffer q.flushOffset, q.endpoints.rx.rkey⟩ b1 fun rc =>
        if rc < 0 then .done q (-1)
        else if b2 > 0 then
          .write q ⟨q.self, .buffer 0, q.endpoints.tx.lkey⟩
            ⟨q.endpoints.rx.addr, .buffer 0, q.endpoints.rx.rkey⟩ b2 fun rc =>
              if rc < 0 then .done q (-1) else k (q.setFlushOffset b2)
        else k (q.setFlushOffset (q.flushOffset + b1))
  else k q

/-- Reading the receiver's `rx.offset` into the transmitter's copy. -/
def readRxOffset (q : RdmaQueue) (k : Int → RdmaQueue → Rdma Int) : Rdma Int :=
  .read q ⟨q.self, .rxOffset, q.endpoints.tx.lkey⟩
    ⟨q.endpoints.rx.addr, .rxOffset, q.endpoints.rx.rkey⟩ 8 k

/-- The loop of `rq_nflush`, with `left` passes to go after this one. -/
def nflushLoop : Nat → RdmaQueue → Nat → Nat → Rdma Int
  | left, q, maxBytes, total =>
    let can := rqNbytesMaxFlush q
    let n := if maxBytes > can then can else maxBytes
    nflushWrite q n fun q =>
      if total + n = maxBytes then nflushPublish q (total + n)
      else match left with
        | 0 => nflushPublish q (total + n)
        | left + 1 => readRxOffset q fun rc q =>
            if rc ≠ 0 then .done q (-1) else nflushLoop left q maxBytes (total + n)

def rqNflush (q : RdmaQueue) (toFlush : Nat) : Rdma Int :=
  if q.endpoints.tx.addr ≠ q.self then .abort
  else
    let remaining := rqNbytesToFlush q
    let maxBytes := if remaining > toFlush then toFlush else remaining
    if !q.paired then
      let o := q.flushOffset + maxBytes
      .done (q.setFlushOffset (if o > q.bufferSize then o - q.bufferSize else o)) maxBytes
    else nflushLoop 1 q maxBytes 0

def rqFlush (q : RdmaQueue) : Rdma Int := rqNflush q (rqNbytesToFlush q)

/-- `rq_try_enqueue`. `src` is the memory at `to_enqueue`, or `none` for
`NULL`. The second piece is copied from `to_enqueue + b2`, as in the code. -/
def rqTryEnqueue (q : RdmaQueue) (src : Option (Nat → Byte)) (sz : Nat) : Rdma Int :=
  if q.endpoints.tx.addr ≠ q.self then .abort
  else if sz > rqNbytesEmpty q then (rqFlush q).map fun r => if r < 0 then -1 else 1
  else
    let b1 := if q.txOffset + sz > q.bufferSize then q.bufferSize - q.txOffset else sz
    let b2 := sz - b1
    let m := match src with
      | some p => Circ.copy q.buffer q.txOffset b1 p
      | none => q.buffer
    if b2 > 0 then
      let m := match src with
        | some p => Circ.copy m 0 b2 fun j => p (b2 + j)
        | none => m
      .done ((q.setBuffer m).setTxOffset b2) 0
    else if b1 = sz then .done ((q.setBuffer m).setTxOffset (q.txOffset + b1)) 0
    else .abort

/-- `rq_try_reserve_flush`, with `left` further passes of its loop. -/
def rqTryReserveFlushLoop : Nat → RdmaQueue → Nat → Rdma Int
  | left, q, toFlush =>
    if rqNbytesMaxFlush q < (rqNbytesToFlush q + toFlush) % 2 ^ 64 then
      if !q.paired then .done q 0
      else match left with
        | 0 => .done q 0
        | left + 1 => readRxOffset q fun rc q =>
            if rc ≠ 0 then .done q (-1) else rqTryReserveFlushLoop left q toFlush
    else .done q 1

def rqTryReserveFlush (q : RdmaQueue) (toFlush : Nat) : Rdma Int :=
  if q.endpoints.tx.addr ≠ q.self then .abort else rqTryReserveFlushLoop 1 q toFlush

/-- `rq_nbytes_can_reserve`. After reading the receiver's offset the code goes on with the
room computed before. -/
def rqNbytesCanReserve (q : RdmaQueue) : Rdma Int :=
  let can := rqNbytesMaxFlush q
  let n := rqNbytesToFlush q
  if q.endpoints.tx.addr ≠ q.self then .abort
  else if !q.paired then if can < n then .abort else .done q (can - n : Nat)
  else if can ≤ n then readRxOffset q fun rc q => if rc ≠ 0 then .done q (-1) else .done q 0
  else .done q (can - n : Nat)

/-! ## The receiver -/

/-- The bytes `rq_try_possible_dequeue` copies out: `sz` bytes from
`rx.offset` on, in one piece or two. -/
def rqBytes (q : RdmaQueue) (sz : Nat) : List Byte :=
  let b1 := if q.rxOffset + sz > q.bufferSize then q.bufferSize - q.rxOffset else sz
  Circ.slice q.buffer q.rxOffset b1 ++ Circ.slice q.buffer 0 (sz - b1)

/-- The result of a dequeue: the queue, the return code, and the bytes copied
out (none if the buffer is `NULL` or the call fails). -/
structure Dequeued where
  queue : RdmaQueue
  rv : Int
  out : List Byte

/-- `rq_try_possible_dequeue`; `none` is a failed assertion. -/
def rqTryPossibleDequeue (q : RdmaQueue) (buffer : Bool) (sz : Nat) (dequeue : Bool) : Option Dequeued :=
  if q.endpoints.rx.addr ≠ q.self then none
  else if rqNbytesEnqueued q < sz then some ⟨q, 1, []⟩
  else
    let b1 := if q.rxOffset + sz > q.bufferSize then q.bufferSize - q.rxOffset else sz
    let b2 := sz - b1
    let out := if buffer then rqBytes q sz else []
    if b2 > 0 then some ⟨if dequeue then q.setRxOffset b2 else q, 0, out⟩
    else if sz = b1 then some ⟨if dequeue then q.setRxOffset (q.rxOffset + b1) else q, 0, out⟩
    else none

def rqTryPeek (q : RdmaQueue) (buffer : Bool) (sz : Nat) : Option Dequeued :=
  rqTryPossibleDequeue q buffer sz false

def rqTryDequeue (q : RdmaQueue) (buffer : Bool) (sz : Nat) : Option Dequeued :=
  rqTryPossibleDequeue q buffer sz true

/-! ## Making queues -/

/-- `rq_allocate_in_place`: a queue in `nbytes` bytes at `addr`, whose buffer
keeps what the memory held. -/
def rqAllocateInPlace (addr : Nat) (mem : Nat → Byte) (nbytes lkey rkey : BitVec 32) : Option RdmaQueue :=
  let bufferSize := (nbytes - rdmaQueueHdr).toInt
  if bufferSize ≤ 0 then none
  else
    let tx : RdmaQueueEndpoint := ⟨addr, 0, lkey, rkey⟩
    some ⟨addr, bufferSize.toNat, 0, ⟨tx, tx, false⟩, false, mem⟩

/-- `rq_pair_receiver` at the transmitter; `rc` is the result of posting the
write of its endpoints to the receiver. -/
def rqPairReceiver (q : RdmaQueue) (rx : RdmaQueueEndpoint) (rc : Int) : RdmaQueue × Int :=
  let q := { q with endpoints := { q.endpoints with rx := rx, paired := true }, isTx := true }
  if rc ≠ 0 then ({ q with endpoints := { q.endpoints with paired := false } }, -1) else (q, 0)

/-- The RDMA write of `rq_pair_receiver`: the transmitter's endpoints are
copied over the receiver's. -/
def rqPaired (q : RdmaQueue) (tx : RdmaQueue) : RdmaQueue := { q with endpoints := tx.endpoints }

theorem rqAllocateInPlace_some {addr : Nat} {mem : Nat → Byte} {nbytes lkey rkey : BitVec 32}
    (h : rqAllocateInPlace addr mem nbytes lkey rkey = some q) :
    q.bufferSize = (nbytes - rdmaQueueHdr).toInt.toNat ∧ q.bufferSize < 2 ^ 31 ∧
      q = ⟨addr, q.bufferSize, 0, ⟨⟨addr, 0, lkey, rkey⟩, ⟨addr, 0, lkey, rkey⟩, false⟩, false, mem⟩ := by
  simp only [rqAllocateInPlace] at h
  split at h
  · cases h
  · simp only [Option.some.injEq] at h
    subst h
    refine ⟨rfl, ?_, rfl⟩
    have := BitVec.toInt_lt (x := nbytes - rdmaQueueHdr)
    simp only at this ⊢
    omega

/-! ## What the operations do to counts -/

/-- The bytes an enqueue of `sz` bytes at `p` puts into the ring: a second
piece comes from `p + b2`, not from `p + b1`. -/
def rqLanded (q : RdmaQueue) (p : Nat → Byte) (sz : Nat) (j : Nat) : Byte :=
  let b1 := if q.txOffset + sz > q.bufferSize then q.bufferSize - q.txOffset else sz
  if j < b1 then p j else p (sz - b1 + (j - b1))

/-- The ring after an enqueue of `sz` bytes at the count `T`. -/
def rqEnqueuedBuffer (q : RdmaQueue) (src : Option (Nat → Byte)) (T sz : Nat) : Nat → Byte :=
  match src with
  | some p => Circ.put q.bufferSize q.buffer T sz (rqLanded q p sz)
  | none => q.buffer

theorem copy_copy_eq_landed {T b1 : Nat} (p : Nat → Byte) (hB : 0 < q.bufferSize)
    (htx : q.txOffset = Circ.pos q.bufferSize T) (hsz : sz ≤ q.bufferSize)
    (hb : (if q.txOffset + sz > q.bufferSize then q.bufferSize - q.txOffset else sz) = b1) :
    Circ.copy (Circ.copy q.buffer q.txOffset b1 p) 0 (sz - b1) (fun j => p (sz - b1 + j)) =
      Circ.put q.bufferSize q.buffer T sz (rqLanded q p sz) := by
  rw [← copy_copy_eq_put q.buffer (rqLanded q p sz) hB hsz (b := b1) (by rw [← hb, htx]), ← htx]
  have e₁ : copy q.buffer q.txOffset b1 (rqLanded q p sz) = copy q.buffer q.txOffset b1 p := by
    funext i
    simp only [copy]
    split
    · simp only [rqLanded, hb]
      rw [if_pos (by omega)]
    · rfl
  rw [e₁]
  congr 1
  funext j
  simp only [rqLanded, hb]
  rw [if_neg (by omega)]
  congr 1
  omega

theorem rqTryEnqueue_fits {T : Nat} (src : Option (Nat → Byte)) (haddr : q.endpoints.tx.addr = q.self)
    (hB : 0 < q.bufferSize) (htx : q.txOffset = Circ.pos q.bufferSize T) (hfit : sz ≤ rqNbytesEmpty q)
    (hsz : sz ≤ q.bufferSize) :
    rqTryEnqueue q src sz =
      .done ((q.setBuffer (rqEnqueuedBuffer q src T sz)).setTxOffset (Circ.pos q.bufferSize (T + sz))) 0 := by
  have hle := pos_le hB T
  have hcond : ¬ sz > rqNbytesEmpty q := by omega
  generalize hb : (if q.txOffset + sz > q.bufferSize then q.bufferSize - q.txOffset else sz) = b1
  have hb1 : b1 ≤ sz := by rw [← hb]; split <;> omega
  have hput := fun p => copy_copy_eq_landed p hB htx hsz hb
  have hoff := split_eq_adv (by rw [htx]; exact hle) hb
  rw [htx, adv_pos hB hsz, ← htx] at hoff
  by_cases h2 : 0 < sz - b1
  · rw [if_pos h2] at hoff
    cases src with
    | none =>
      simp [rqTryEnqueue, haddr, hcond, hb, h2, rqEnqueuedBuffer, ← hoff]
    | some p =>
      simp [rqTryEnqueue, haddr, hcond, hb, h2, rqEnqueuedBuffer, ← hoff, ← hput]
  · have h3 : b1 = sz := by omega
    rw [if_neg h2] at hoff
    rw [h3] at h2
    cases src with
    | none =>
      simp [rqTryEnqueue, haddr, hcond, hb, h3, rqEnqueuedBuffer, ← hoff]
    | some p =>
      have e := hput p
      rw [h3, Nat.sub_self, copy_zero] at e
      simp [rqTryEnqueue, haddr, hcond, hb, h3, rqEnqueuedBuffer, ← hoff, ← e]

theorem rqTryPossibleDequeue_fits {D : Nat} (buffer dequeue : Bool) (haddr : q.endpoints.rx.addr = q.self)
    (hB : 0 < q.bufferSize) (hrx : q.rxOffset = Circ.pos q.bufferSize D) (hfit : sz ≤ rqNbytesEnqueued q)
    (hsz : sz ≤ q.bufferSize) :
    rqTryPossibleDequeue q buffer sz dequeue =
      some ⟨if dequeue then q.setRxOffset (Circ.pos q.bufferSize (D + sz)) else q, 0,
        if buffer then Circ.take q.bufferSize q.buffer D sz else []⟩ := by
  have hle := pos_le hB D
  have hcond : ¬ rqNbytesEnqueued q < sz := by omega
  generalize hb : (if q.rxOffset + sz > q.bufferSize then q.bufferSize - q.rxOffset else sz) = b1
  have hb1 : b1 ≤ sz := by rw [← hb]; split <;> omega
  have hout : rqBytes q sz = take q.bufferSize q.buffer D sz := by
    simp only [rqBytes]
    rw [hrx, slice_append_eq_take q.buffer hB hsz rfl]
  have hoff := split_eq_adv (by rw [hrx]; exact hle) hb
  rw [hrx, adv_pos hB hsz, ← hrx] at hoff
  simp only [rqTryPossibleDequeue, haddr, ne_eq, not_true_eq_false, if_false, hcond, hb, gt_iff_lt, ← hout]
  by_cases h2 : 0 < sz - b1
  · rw [if_pos h2] at hoff
    rw [if_pos h2, hoff]
  · rw [if_neg h2] at hoff
    rw [if_neg h2, if_pos (by omega), hoff]

theorem rqTryPossibleDequeue_short (buffer dequeue : Bool) (haddr : q.endpoints.rx.addr = q.self)
    (hsz : rqNbytesEnqueued q < sz) :
    rqTryPossibleDequeue q buffer sz dequeue = some ⟨q, 1, []⟩ := by
  simp [rqTryPossibleDequeue, haddr, hsz]

/-- What an enqueue that fits must meet to be copied right: if it is split
into pieces of `b1` and `b2` bytes, the source bytes from `b2` on are those
from `b1` on. Other calls are not restricted. -/
def EnqueueOk (q : RdmaQueue) (src : Nat → Byte) (sz : Nat) : Prop :=
  sz ≤ rqNbytesEmpty q → q.bufferSize < q.txOffset + sz →
    ∀ j < q.txOffset + sz - q.bufferSize,
      src (q.txOffset + sz - q.bufferSize + j) = src (q.bufferSize - q.txOffset + j)

instance (q : RdmaQueue) (src : Nat → Byte) (sz : Nat) : Decidable (EnqueueOk q src sz) :=
  inferInstanceAs (Decidable (_ ≤ _ → _ < _ → ∀ j < _, _ = _))

theorem rqLanded_eq {src : Nat → Byte} (h : EnqueueOk q src sz) (hsz : sz ≤ rqNbytesEmpty q)
    (hle : q.txOffset ≤ q.bufferSize) :
    ∀ j < sz, rqLanded q src sz j = src j := by
  intro j hj
  simp only [rqLanded]
  by_cases hc : q.txOffset + sz > q.bufferSize
  · rw [if_pos hc]
    split
    · rfl
    · have := h hsz hc (j - (q.bufferSize - q.txOffset)) (by omega)
      rw [show sz - (q.bufferSize - q.txOffset) = q.txOffset + sz - q.bufferSize by omega, this]
      congr 1
      omega
  · rw [if_neg hc, if_pos hj]

theorem getD_append_of_lt {l l' : List Byte} {c : Nat} (h : c < l.length) :
    (l ++ l').getD c 0 = l.getD c 0 := by
  simp [List.getElem?_append_left h]

theorem rqEnqueuedBuffer_agree {src : Nat → Byte} {lo : Nat} {l : List Byte}
    (h : Circ.Agree q.bufferSize q.buffer lo l.length (l.getD · 0)) (hlo : lo ≤ l.length)
    (hk : l.length + sz ≤ lo + q.bufferSize) (hok : EnqueueOk q src sz) (hsz : sz ≤ rqNbytesEmpty q)
    (hle : q.txOffset ≤ q.bufferSize) :
    Circ.Agree q.bufferSize (rqEnqueuedBuffer q (some src) l.length sz) lo (l.length + sz)
      ((l ++ Circ.slice src 0 sz).getD · 0) := by
  refine Circ.Agree.put_next (h.congr fun c _ hc => getD_append_of_lt hc) hlo hk fun j hj => ?_
  rw [rqLanded_eq hok hsz hle j hj]
  simp [List.getD_eq_getElem?_getD, slice, hj]

/-- The bytes 1, 2, 3, …. -/
def countingBytes (j : Nat) : Byte := BitVec.ofNat 8 (j + 1)

/-- A new queue in zeroed memory. -/
def zeroedQueue (addr size : Nat) : RdmaQueue :=
  ⟨addr, size, 0, ⟨⟨addr, 0, 0, 0⟩, ⟨addr, 0, 0, 0⟩, false⟩, false, fun _ => 0⟩

end TasNic
