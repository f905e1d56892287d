import TasNic.Fast.FastFlows
import TasNic.Lib.SkipList
import TasNic.Lib.Run

/-!
# The queue manager (`tas_nic/fast/qman.c`)

A queue with bytes to send is in one of two lists: the no-limit list, served in turn, or, if it
has a rate, a skip list in the order of the virtual time at which it may send next. Time stamps
are 32-bit words and compared relative to the virtual time (`relTime`). `none` is a failed
assertion, or a loop that does not end.
-/

namespace TasNic

open Function SkipList

/-- `FLEXNIC_NUM_QMQUEUES`. -/
def numQmqueues : Nat := 128 * 1024
/-- `QMAN_SKIPLIST_LEVELS`. -/
def skiplistLevels : Nat := 4
def skiplistBits : Nat := 3

/-- `struct queue`; its `next_idxs` are the links of the thread. -/
structure QmanQueue where
  nextTs : BitVec 32
  rate : BitVec 32
  avail : BitVec 32
  maxChunk : BitVec 16
  /-- `FLAG_INSKIPLIST`. -/
  inSkiplist : Bool
  /-- `FLAG_INNOLIMITL`. -/
  inNolimitl : Bool
deriving DecidableEq

/-- `struct qman_thread`. The links are the `next_idxs` of all queues, which the
no-limit list uses on level 0, and `head_idx`; the random number generator is
the numbers it is going to give. -/
structure QmanThread where
  queues : Nat → QmanQueue
  skip : Links
  nolimitHeadIdx : Option Nat
  nolimitTailIdx : Option Nat
  tsReal : BitVec 32
  tsVirtual : BitVec 32
  rng : Nat → BitVec 32
  nolimitFirst : Bool

/-- `qman_thread_init` at time `ts`. -/
def qmanThreadInit (ts : BitVec 32) (rng : Nat → BitVec 32) (nolimitFirst : Bool) : QmanThread where
  queues := fun _ => ⟨0, 0, 0, 0, false, false⟩
  skip := ⟨fun _ _ => some 0, fun _ => none⟩
  nolimitHeadIdx := none
  nolimitTailIdx := none
  tsReal := ts
  tsVirtual := 0
  rng := rng
  nolimitFirst := nolimitFirst

/-! ## Time stamps -/

def relTime (curTs tsIn : BitVec 32) : Int :=
  let cur : Int := curTs.toNat
  let ts : Int := tsIn.toNat
  let middle : Int := 2 ^ 31
  if cur < middle then
    -- the negative interval is split in half
    let start := (cur - middle) % 2 ^ 32
    if start ≤ ts ∧ ts < 2 ^ 32 then ts - start - middle else ts - cur
  else if cur = middle then ts - cur
  else
    -- the positive interval is split
    let stop := (cur + middle) % 2 ^ 32 + 1
    if ts < stop then ts + (2 ^ 32 - cur) else ts - cur

namespace QmanThread

/-- `timestamp_lessthaneq`. -/
def lessthaneq (t : QmanThread) (a b : BitVec 32) : Bool := relTime t.tsVirtual a ≤ relTime t.tsVirtual b

def setQueue (t : QmanThread) (idx : Nat) (q : QmanQueue) : QmanThread := { t with queues := update t.queues idx q }

end QmanThread

def queueNewTs (t : QmanThread) (q : QmanQueue) (bytes : BitVec 32) : BitVec 32 :=
  BitVec.ofNat 32 (t.tsVirtual.toNat + bytes.toNat * 8 * 1000000 / q.rate.toNat)

/-! ## Activating queues -/

def queueActivateNolimit (t : QmanThread) (idx : Nat) : Option QmanThread :=
  let q := t.queues idx
  if q.inSkiplist || q.inNolimitl then none
  else
    let t := { t.setQueue idx { q with inNolimitl := true } with skip := t.skip.setNext 0 idx none }
    match t.nolimitTailIdx with
    | none => some { t with nolimitHeadIdx := some idx, nolimitTailIdx := some idx }
    | some tail => some { t with skip := t.skip.setNext 0 tail (some idx), nolimitTailIdx := some idx }

/-- The time stamp a queue is put into the skip list with: not in the past, and
not more than if it just sent `max_chunk` at the current rate. -/
def queueClampTs (t : QmanThread) (q : QmanQueue) : BitVec 32 :=
  let maxTs := queueNewTs t q (q.maxChunk.setWidth 32)
  if t.lessthaneq q.nextTs t.tsVirtual then t.tsVirtual
  else if !t.lessthaneq q.nextTs maxTs then maxTs
  else q.nextTs

/-- `__builtin_ffs`. -/
def ffs (x : BitVec 32) : Nat :=
  match (List.range 32).find? (x.getLsbD ·) with
  | some i => i + 1
  | none => 0

/-- `queue_level`, for a random number. -/
def queueLevel (random : BitVec 32) : Nat :=
  let x := (ffs random - 1) / skiplistBits
  if x < skiplistLevels then x else skiplistLevels - 1

def queueActivateSkiplist (t : QmanThread) (idx : Nat) : Option QmanThread :=
  let q := t.queues idx
  if q.inSkiplist || q.inNolimitl then none
  else
    let ts := queueClampTs t q
    let t := t.setQueue idx { q with nextTs := ts }
    match preds t.skip (fun i => t.lessthaneq (t.queues i).nextTs ts) (numQmqueues + 1) skiplistLevels none with
    | none => none
    | some pred => some
        { t.setQueue idx { q with nextTs := ts, inSkiplist := true } with
          rng := fun n => t.rng (n + 1)
          skip := link pred idx (queueLevel (t.rng 0)) skiplistLevels t.skip }

def queueActivate (t : QmanThread) (idx : Nat) : Option QmanThread :=
  if (t.queues idx).rate = 0 then queueActivateNolimit t idx else queueActivateSkiplist t idx

/-! ## Changing queues -/

/-- The fields `set_impl` changes. -/
def qmanUpdate (q : QmanQueue) (c : QmanSet) : QmanQueue :=
  { q with
    rate := if c.flags &&& qmanSetRate ≠ 0 then c.rate else q.rate
    maxChunk := if c.flags &&& qmanSetMaxchunk ≠ 0 then c.maxChunk else q.maxChunk
    avail :=
      if c.flags &&& qmanSetAvail ≠ 0 then c.avail
      else if c.flags &&& qmanAddAvail ≠ 0 then q.avail + c.avail
      else q.avail }

def setImpl (t : QmanThread) (idx : Nat) (c : QmanSet) : Option QmanThread :=
  let q := qmanUpdate (t.queues idx) c
  let t := t.setQueue idx q
  let newAvail := c.flags &&& qmanSetAvail ≠ 0 ∨ c.flags &&& qmanAddAvail ≠ 0
  if newAvail ∧ q.avail ≠ 0 ∧ q.inSkiplist = false ∧ q.inNolimitl = false then queueActivate t idx else some t

/-- `qman_set`, with its return value. -/
def qmanSet (t : QmanThread) (c : QmanSet) : Option (QmanThread × Int) :=
  if c.id.toNat ≥ numQmqueues then some (t, -1) else (setImpl t c.id.toNat c).map fun t => (t, 0)

/-! ## Polling -/

/-- A queue that was let to send, with the virtual time then. -/
structure Fired where
  id : Nat
  bytes : BitVec 16
  vts : BitVec 32
deriving DecidableEq

/-- The bytes `queue_fire` lets a queue send. -/
def fireBytes (q : QmanQueue) : BitVec 32 :=
  if q.avail ≤ q.maxChunk.setWidth 32 then q.avail else q.maxChunk.setWidth 32

def firedQueue (t : QmanThread) (q : QmanQueue) : QmanQueue :=
  { q with
    avail := q.avail - fireBytes q
    nextTs := if q.rate ≠ 0 then queueNewTs t q (fireBytes q) else q.nextTs }

def queueFire (t : QmanThread) (idx : Nat) : Option (QmanThread × Fired) :=
  let q := t.queues idx
  let fired : Fired := ⟨idx, (fireBytes q).setWidth 16, t.tsVirtual⟩
  if q.avail = 0 then none
  else if (firedQueue t q).avail ≠ 0 then
    (queueActivate (t.setQueue idx (firedQueue t q)) idx).map fun t => (t, fired)
  else some (t.setQueue idx (firedQueue t q), fired)

/-- A thread in a poll, with what was let to send so far. -/
structure PollState where
  t : QmanThread
  out : List Fired

/-- A queue taken out of its list is let to send, if it has bytes. -/
def pollFire (s : PollState) (idx : Nat) : Option PollState :=
  if (s.t.queues idx).avail ≠ 0 then (queueFire s.t idx).map fun (t, f) => ⟨t, s.out ++ [f]⟩ else some s

/-- Enough turns for the loops of a poll: a turn that lets no queue send takes one
out of the list. -/
def pollTurns (num : Nat) : Nat := (num + 1) * (numQmqueues + 1)

def nolimitPop (t : QmanThread) (idx : Nat) : QmanThread :=
  let next := t.skip.next 0 idx
  { t.setQueue idx { t.queues idx with inNolimitl := false } with
    nolimitHeadIdx := next
    nolimitTailIdx := if next = none then none else t.nolimitTailIdx }

/-- A turn of the loop of `poll_nolimit`. -/
def nolimitTurn (num : Nat) (s : PollState) : Option (Bool × PollState) :=
  if s.out.length < num then
    match s.t.nolimitHeadIdx with
    | none => some (false, s)
    | some idx => (pollFire { s with t := nolimitPop s.t idx } idx).map fun s => (true, s)
  else some (false, s)

def pollNolimit (t : QmanThread) (num : Nat) : Option PollState :=
  Run.loop (nolimitTurn num) (pollTurns num) ⟨t, []⟩

/-- Taking the first queue out of the skip list; the virtual time is its time
stamp. -/
def skiplistPop (t : QmanThread) (idx : Nat) : QmanThread :=
  { t.setQueue idx { t.queues idx with inSkiplist := false } with
    skip := unlink idx skiplistLevels 0 t.skip
    tsVirtual := (t.queues idx).nextTs }

/-- A turn of the loop of `poll_skiplist`. -/
def skiplistTurn (maxVts : BitVec 32) (num : Nat) (s : PollState) : Option (Bool × PollState) :=
  if s.out.length < num then
    match s.t.skip.head 0 with
    | none => some (false, { s with t := { s.t with tsVirtual := maxVts } })
    | some idx =>
      if !s.t.lessthaneq (s.t.queues idx).nextTs maxVts then
        some (false, { s with t := { s.t with tsVirtual := maxVts } })
      else if (s.t.queues idx).inSkiplist = false then none
      else (pollFire { s with t := skiplistPop s.t idx } idx).map fun s => (true, s)
  else some (false, s)

/-- The virtual time if the limit on the number of queues is reached. -/
def limitVts (t : QmanThread) (maxVts : BitVec 32) : BitVec 32 :=
  match t.skip.head 0 with
  | none => maxVts
  | some idx => if t.lessthaneq (t.queues idx).nextTs maxVts then (t.queues idx).nextTs else maxVts

def pollSkiplist (t : QmanThread) (curTs : BitVec 32) (num : Nat) : Option PollState :=
  let maxVts := t.tsVirtual + (curTs - t.tsReal)
  (Run.loop (skiplistTurn maxVts num) (pollTurns num) ⟨t, []⟩).map fun s =>
    let v := if s.out.length = num then limitVts s.t maxVts else s.t.tsVirtual
    { s with t := { s.t with tsVirtual := v, tsReal := curTs } }

/-- `qman_poll` at time `ts`. -/
def qmanPoll (t : QmanThread) (num : Nat) (ts : BitVec 32) : Option PollState :=
  let polled :=
    if t.nolimitFirst then
      (pollNolimit t num).bind fun s =>
        (pollSkiplist s.t ts (num - s.out.length)).map fun s' => { s' with out := s.out ++ s'.out }
    else
      (pollSkiplist t ts num).bind fun s =>
        (pollNolimit s.t (num - s.out.length)).map fun s' => { s' with out := s.out ++ s'.out }
  polled.map fun s => { s with t := { s.t with nolimitFirst := !s.t.nolimitFirst } }

inductive QmanOp where
  | set (c : QmanSet)
  | poll (num : Nat) (ts : BitVec 32)

def qmanStep (t : QmanThread) : QmanOp → Option QmanThread
  | .set c => (qmanSet t c).map (·.1)
  | .poll num ts => (qmanPoll t num ts).map (·.t)

end TasNic
