import TasNic.Lib.IdxList
import TasNic.Lib.Run
import TasNic.Lib.Serial

/-!
# Timeouts (`lib/utils/timeout.c`)

Timeouts that are armed are in one of two doubly linked lists: those that wait, in the order in which they
expire, and those that are due. The handler may arm and disarm timeouts, so a poll is several steps of a
run: its start, a step for every timeout it passes, and its end. Times are 28-bit words and compared relative
to the current time. `none` is a call of `abort`, or a loop that does not end.
-/

namespace TasNic

open Function

def timeoutBits : Nat := 28
def timeoutMask : BitVec 32 := (1 <<< timeoutBits) - 1
def maxTimeouts : Nat := 64

structure Timeout where
  timeoutType : BitVec 32
  next : Option Nat
  prev : Option Nat
deriving DecidableEq

/-- `struct timeout_manager`, with the timeouts of the program. -/
structure TimeoutManager where
  timeouts : Nat → Timeout
  timeoutsFirst : Option Nat
  timeoutsLast : Option Nat
  dueFirst : Option Nat
  dueLast : Option Nat

namespace TimeoutManager

def next (m : TimeoutManager) (p : Nat) : Option Nat := (m.timeouts p).next

def prev (m : TimeoutManager) (p : Nat) : Option Nat := (m.timeouts p).prev

def setNext (m : TimeoutManager) (p : Nat) (o : Option Nat) : TimeoutManager :=
  { m with timeouts := update m.timeouts p { m.timeouts p with next := o } }

def setPrev (m : TimeoutManager) (p : Nat) (o : Option Nat) : TimeoutManager :=
  { m with timeouts := update m.timeouts p { m.timeouts p with prev := o } }

end TimeoutManager

def utilTimeoutInit (timeouts : Nat → Timeout) : TimeoutManager := ⟨timeouts, none, none, none, none⟩

/-- `rel_time`, for the time of a timeout. -/
def timeoutRelTime (curTs toTs : BitVec 32) : BitVec 32 :=
  let middle : BitVec 32 := 1 <<< (timeoutBits - 1)
  if curTs < middle then
    -- the negative interval is split in half
    let start := (curTs - middle) &&& timeoutMask
    if start ≤ toTs ∧ toTs < 1 <<< timeoutBits then toTs - start - middle else toTs - curTs
  else if curTs = middle then toTs - curTs
  else
    -- the higher interval is split
    let stop := ((curTs + middle) &&& timeoutMask) + 1
    if toTs < stop then toTs + (1 <<< timeoutBits - curTs) else toTs - curTs

namespace TimeoutManager

def relTime (m : TimeoutManager) (curTs : BitVec 32) (t : Nat) : BitVec 32 :=
  timeoutRelTime curTs ((m.timeouts t).timeoutType &&& timeoutMask)

/-- `timeout_due`: a comparison of signed numbers. -/
def timeoutDue (m : TimeoutManager) (t : Nat) (ts : BitVec 32) : Bool := (m.relTime ts t).sle 0

/-- A turn of the loop of `move_due_timeouts`. -/
def moveDue (m : TimeoutManager) (t : Nat) : TimeoutManager :=
  let next := m.next t
  let m := { m with timeoutsFirst := next }
  let m := match next with
    | some n => m.setPrev n none
    | none => { m with timeoutsLast := none }
  let m := (m.setNext t none).setPrev t m.dueLast
  match m.dueLast with
  | none => { m with dueFirst := some t, dueLast := some t }
  | some d => { m.setNext d (some t) with dueLast := some t }

def moveDueTimeouts (curTs : BitVec 32) : Nat → TimeoutManager → Option TimeoutManager
  | 0, _ => none
  | turns + 1, m => match m.timeoutsFirst with
    | none => some m
    | some t => if m.timeoutDue t curTs then moveDueTimeouts curTs turns (m.moveDue t) else some m

/-- The loop of `util_timeout_arm_ts`; the comparison is one of unsigned numbers. -/
def armPred (m : TimeoutManager) (curTs us : BitVec 32) : Nat → Option Nat → Option (Option Nat)
  | 0, _ => none
  | _ + 1, none => some none
  | turns + 1, some tp => if us < m.relTime curTs tp then armPred m curTs us turns (m.prev tp) else some (some tp)

/-- Inserting a timeout between `tp` and `tn`. -/
def armInsert (m : TimeoutManager) (t : Nat) (timeoutType : BitVec 32) (tp tn : Option Nat) : TimeoutManager :=
  let m := { m with timeouts := update m.timeouts t ⟨timeoutType, tn, tp⟩ }
  let m := match tp with
    | none => { m with timeoutsFirst := some t }
    | some tp => m.setNext tp (some t)
  match tn with
  | none => { m with timeoutsLast := some t }
  | some tn => m.setPrev tn (some t)

/-- `util_timeout_arm_ts`, with a bound on the turns of its loops. -/
def utilTimeoutArmTs (m : TimeoutManager) (t : Nat) (us : BitVec 32) (type : BitVec 8) (curTs : BitVec 32)
    (turns : Nat) : Option TimeoutManager :=
  let curTs := curTs &&& timeoutMask
  if us ≥ 1 <<< (timeoutBits - 1) then none
  else (moveDueTimeouts curTs turns m).bind fun m =>
    (armPred m curTs us turns m.timeoutsLast).map fun tp =>
      let tn := match tp with
        | some tp => m.next tp
        | none => m.timeoutsFirst
      m.armInsert t ((type.setWidth 32) <<< timeoutBits ||| ((curTs + us) &&& timeoutMask)) tp tn

def utilTimeoutDisarm (m : TimeoutManager) (t : Nat) : Option TimeoutManager :=
  let prev := m.prev t
  let next := m.next t
  let m₁ := match prev with
    | none =>
      if m.timeoutsFirst = some t then some { m with timeoutsFirst := next }
      else if m.dueFirst = some t then some { m with dueFirst := next }
      else none
    | some p => some (m.setNext p next)
  m₁.bind fun m => match next with
    | none =>
      if m.timeoutsLast = some t then some { m with timeoutsLast := prev }
      else if m.dueLast = some t then some { m with dueLast := prev }
      else none
    | some n => some (m.setPrev n prev)

/-- `util_timeout_next`; -1 if no timeout is armed. -/
def utilTimeoutNext (m : TimeoutManager) (curTs : BitVec 32) : BitVec 32 :=
  if m.dueFirst.isSome then 0
  else match m.timeoutsFirst with
    | none => -1
    | some t =>
      let next := m.relTime (curTs &&& timeoutMask) t
      if next.slt 0 then 0 else next

/-- Taking the first timeout that is due, in the loop of `util_timeout_poll_ts`. -/
def pollPop (m : TimeoutManager) (t : Nat) : TimeoutManager :=
  let m := { m with dueFirst := m.next t }
  match m.dueFirst with
  | some n => m.setPrev n none
  | none => { m with dueLast := none }

end TimeoutManager

/-! ## Runs -/

/-- A timeout that was armed: when it expires, counted without wrapping, and the
number of the call that armed it. -/
structure Armed where
  id : Nat
  expiry : Nat
  type : BitVec 8
  seq : Nat
deriving DecidableEq

/-- A timeout that was passed to the handler with a type: when, and as what it was
armed. -/
structure Passed where
  id : Nat
  type : BitVec 8
  time : Nat
  armed : Option Armed
deriving DecidableEq

/-- A poll: when it started, the timeouts armed before, and how many it passed. -/
structure Poll where
  time : Nat
  seq : Nat
  num : Nat
deriving DecidableEq

/-- The manager, the time, the timeouts that are armed, were passed and were disarmed,
the poll that is under way, and the polls that ended, each with the number of
timeouts left that were armed before it and expired when it started. -/
structure TimeoutState where
  m : TimeoutManager
  now : Nat
  seq : Nat
  armed : List Armed
  passed : List Passed
  disarmed : List Armed
  poll : Option Poll
  polls : List (Poll × Nat)

inductive TimeoutOp where
  | arm (t : Nat) (us : BitVec 32) (type : BitVec 8) (ts : BitVec 32)
  | disarm (t : Nat)
  | pollStart (ts : BitVec 32)
  | pollNext

/-- The time that has passed at a time stamp. -/
def timeoutGap (now : Nat) (ts : BitVec 32) : Nat := (ts.toNat + (2 ^ timeoutBits - now % 2 ^ timeoutBits)) % 2 ^ timeoutBits

/-- The poll as it ends, and the timeouts it left. -/
def Poll.left (p : Poll) (armed : List Armed) : Nat := armed.countP fun r => decide (r.seq < p.seq ∧ r.expiry ≤ p.time)

/-- A call of the manager, or a part of a poll. The turns of the loops are bounded by the
number of timeouts that are armed. -/
def timeoutStep (s : TimeoutState) : TimeoutOp → Option TimeoutState
  | .arm t us type ts =>
    let now := s.now + timeoutGap s.now ts
    (s.m.utilTimeoutArmTs t us type ts (s.armed.length + 1)).map fun m =>
      { s with m := m, now := now, seq := s.seq + 1, armed := s.armed ++ [⟨t, now + us.toNat, type, s.seq⟩] }
  | .disarm t => (s.m.utilTimeoutDisarm t).map fun m =>
      { s with
        m := m
        armed := s.armed.filter (·.id ≠ t)
        disarmed := s.disarmed ++ s.armed.filter (·.id = t) }
  | .pollStart ts =>
    let now := s.now + timeoutGap s.now ts
    (TimeoutManager.moveDueTimeouts (ts &&& timeoutMask) (s.armed.length + 1) s.m).map fun m =>
      { s with m := m, now := now, poll := some ⟨now, s.seq, 0⟩ }
  | .pollNext => match s.poll with
    | none => none
    | some p => match s.m.dueFirst with
      | none => some { s with poll := none, polls := s.polls ++ [(p, p.left s.armed)] }
      | some t =>
        if p.num < maxTimeouts then some
          { s with
            m := s.m.pollPop t
            armed := s.armed.filter (·.id ≠ t)
            passed := s.passed ++ [⟨t, ((s.m.timeouts t).timeoutType >>> timeoutBits).setWidth 8, s.now,
              s.armed.find? (·.id = t)⟩]
            poll := some { p with num := p.num + 1 } }
        else some { s with poll := none, polls := s.polls ++ [(p, p.left s.armed)] }

/-- At `util_timeout_init`, with time stamp `ts`. -/
def timeoutStart (timeouts : Nat → Timeout) (ts : BitVec 32) : TimeoutState :=
  ⟨utilTimeoutInit timeouts, ts.toNat % 2 ^ timeoutBits, 0, [], [], [], none, []⟩

/-- What the callers keep to: a timeout is armed only when it is not, and disarmed only
when it is; time stamps move on by less than half their range; a poll does not
start within another, and within a poll the handler runs only behind a timeout. -/
def timeoutOk (s : TimeoutState) : TimeoutOp → Prop
  | .arm t us _ ts => us.toNat < 2 ^ (timeoutBits - 1) ∧ (∀ r ∈ s.armed, r.id ≠ t) ∧
    timeoutGap s.now ts < 2 ^ (timeoutBits - 1) ∧ s.poll.all (0 < ·.num) = true
  | .disarm t => (∃ r ∈ s.armed, r.id = t) ∧ s.poll.all (0 < ·.num) = true
  | .pollStart ts => timeoutGap s.now ts < 2 ^ (timeoutBits - 1) ∧ s.poll = none
  | .pollNext => s.poll ≠ none

instance (s : TimeoutState) (op) : Decidable (timeoutOk s op) := by
  cases op <;> dsimp only [timeoutOk] <;> infer_instance

end TasNic
