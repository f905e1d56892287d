import TasNic.Fast.QmanStructure
import Mathlib.Algebra.BigOperators.Group.List.Basic
import Mathlib.Data.List.Chain

/-!
# The rates of the queue manager

`clockStep` is a call of the queue manager that also keeps the virtual and the real time since the
start, without wrapping, and the queues let to send. A queue with a constant rate does not send
before the bytes it sent before are paid for (`PacingInv`). This needs every queue to have a rate at
which its `max_chunk` takes less than `2³¹`: with a lower one `queue_activate_skiplist` puts a queue
in the past.
-/

/-! ## Paced events -/

namespace Pace

open List

variable {α : Type} {time cost : α → Nat} {l : List α}

/-- No event comes before the one before it is paid for. -/
def Paced (time cost : α → Nat) (l : List α) : Prop := l.IsChain fun a b => time a + cost a ≤ time b

theorem Paced.concat {b : α} (h : Paced time cost l) (hb : ∀ a ∈ l.getLast?, time a + cost a ≤ time b) :
    Paced time cost (l ++ [b]) :=
  List.IsChain.append h (isChain_singleton b) fun a ha c hc => by
    rw [head?_cons, Option.mem_some_iff] at hc
    exact hc ▸ hb a ha

theorem Paced.sum_le {a b : α} {l₁ l₂ l₃ : List α} (h : Paced time cost (l₁ ++ a :: (l₂ ++ b :: l₃))) :
    time a + ((a :: l₂).map cost).sum ≤ time b := by
  replace h := (isChain_append.mp h).2.1
  induction l₂ generalizing a with
  | nil =>
    have := (isChain_cons_cons.mp h).1
    simpa using this
  | cons c l₂ ih =>
    obtain ⟨hac, hc⟩ := isChain_cons_cons.mp h
    have := ih hc
    simp only [map_cons, sum_cons] at this ⊢
    omega

end Pace

namespace TasNic

open Function SkipList IdxList Serial Pace

/-! ## The clocks -/

structure Sending where
  id : Nat
  bytes : BitVec 16
  vtime : Nat
  rtime : Nat
deriving DecidableEq

/-- The time the bytes take at rate `r`. -/
def Sending.cost (r : BitVec 32) (f : Sending) : Nat := f.bytes.toNat * 8000000 / r.toNat

/-- The thread, with its times since the start. -/
structure ClockState where
  t : QmanThread
  vtime : Nat
  rtime : Nat
  fired : List Sending

def clockInit (ts : BitVec 32) (rng : Nat → BitVec 32) (nolimitFirst : Bool) : ClockState :=
  ⟨qmanThreadInit ts rng nolimitFirst, 0, 0, []⟩

/-- The sending of a poll that starts at virtual time `v₀`, since the start `vtime`. -/
def stamp (vtime : Nat) (v₀ : BitVec 32) (rtime : Nat) (f : Fired) : Sending :=
  ⟨f.id, f.bytes, vtime + (f.vts - v₀).toNat, rtime⟩

def clockStep (s : ClockState) : QmanOp → Option ClockState
  | .set c => (qmanSet s.t c).map fun (t, _) => { s with t := t }
  | .poll num ts => (qmanPoll s.t num ts).map fun p =>
    let rtime := s.rtime + (ts - s.t.tsReal).toNat
    { t := p.t
      vtime := s.vtime + (p.t.tsVirtual - s.t.tsVirtual).toNat
      rtime := rtime
      fired := s.fired ++ p.out.map (stamp s.vtime s.t.tsVirtual rtime) }

theorem clockStep_t (s : ClockState) (op : QmanOp) : (clockStep s op).map (·.t) = qmanStep s.t op := by
  cases op <;> simp [clockStep] <;> rfl

/-! ## One queue -/

/-- A queue is not let to send before `due`: in the skip list its time stamp is no
earlier, and out of it, it has the time stamp of `due`, until that is past. -/
structure Held (q : QmanQueue) (v : BitVec 32) (vtime due : Nat) : Prop where
  notNolimit : q.inNolimitl = false
  inList : q.inSkiplist = true → due ≤ vtime + (q.nextTs - v).toNat
  out : q.inSkiplist = false →
    due ≤ vtime ∨ due = vtime + (q.nextTs - v).toNat ∧ (q.nextTs - v).toNat ≤ q.cost q.maxChunk.toNat

section Queue

variable {t : QmanThread} {q : QmanQueue} {vtime due : Nat}

theorem Held.advance {v : BitVec 32} (h : Held q t.tsVirtual vtime due)
    (hv : q.inSkiplist = true → t.ahead v ≤ t.ahead q.nextTs) : Held q v (vtime + t.ahead v) due := by
  have hkey : t.ahead v ≤ t.ahead q.nextTs → (q.nextTs - v).toNat = t.ahead q.nextTs - t.ahead v := by
    intro hle
    have e : q.nextTs - v = q.nextTs - t.tsVirtual - (v - t.tsVirtual) := by grind
    rw [e]
    exact toNat_sub_of_le hle
  refine ⟨h.notNolimit, fun hs => ?_, fun hs => ?_⟩
  · have h₁ := h.inList hs
    have h₂ := hv hs
    rw [hkey h₂]
    simp only [QmanThread.ahead] at h₂ ⊢
    omega
  · rcases h.out hs with hle | ⟨he, hc⟩
    · exact .inl (Nat.le_trans hle (Nat.le_add_right ..))
    by_cases hle : t.ahead v ≤ t.ahead q.nextTs
    · rw [hkey hle]
      simp only [QmanThread.ahead] at hle ⊢
      exact .inr ⟨by omega, by omega⟩
    · simp only [QmanThread.ahead] at hle ⊢
      exact .inl (by omega)

theorem Held.activated (h : Held q t.tsVirtual vtime due) (hr : q.rate ≠ 0) (hc : q.cost q.maxChunk.toNat < 2 ^ 31)
    (hs : q.inSkiplist = false) : Held (activatedQueue t q) t.tsVirtual vtime due := by
  rw [activatedQueue, if_neg hr]
  refine ⟨h.notNolimit, fun _ => ?_, fun hs' => absurd hs' (by simp)⟩
  rcases h.out hs with hle | ⟨he, hle⟩
  · exact Nat.le_trans hle (Nat.le_add_right ..)
  · have hk : t.ahead q.nextTs ≤ q.cost q.maxChunk.toNat := hle
    have hclamp := (queueClampTs_ahead (t := t) hc).2 (by omega)
    rw [Nat.min_eq_left hk] at hclamp
    simp only [QmanThread.ahead] at hclamp
    rw [hclamp]
    exact Nat.le_of_eq he

theorem fireBytes_le (q : QmanQueue) : (fireBytes q).toNat ≤ q.maxChunk.toNat := by
  unfold fireBytes
  split
  · rename_i h
    rw [← toNat_setWidth32 q.maxChunk]
    exact h
  · rw [toNat_setWidth32]

theorem servedQueue_held (hr : q.rate ≠ 0) (hc : q.cost q.maxChunk.toNat < 2 ^ 31) (ha : q.avail ≠ 0) :
    Held (servedQueue t q) t.tsVirtual vtime (vtime + q.cost (fireBytes q).toNat) := by
  have hle : q.cost (fireBytes q).toNat ≤ q.cost q.maxChunk.toNat :=
    Nat.div_le_div_right (by have := fireBytes_le q; omega)
  have hts : t.ahead (firedQueue t q.out).nextTs = q.cost (fireBytes q).toNat := by
    rw [firedQueue, if_pos (show q.out.rate ≠ 0 from hr)]
    exact ahead_queueNewTs t q (show q.cost (fireBytes q).toNat < _ by omega)
  have h : Held (firedQueue t q.out) t.tsVirtual vtime (vtime + q.cost (fireBytes q).toNat) :=
    ⟨rfl, fun h => absurd h (by simp [firedQueue, QmanQueue.out]), fun _ => .inr ⟨congrArg _ hts.symm, hts.trans_le hle⟩⟩
  rw [servedQueue, if_neg ha]
  split
  · exact h.activated hr hc rfl
  · exact h

theorem servedQueue_rate (t : QmanThread) (q : QmanQueue) :
    (servedQueue t q).rate = q.rate ∧ (servedQueue t q).maxChunk = q.maxChunk := by
  unfold servedQueue activatedQueue
  split
  · exact ⟨rfl, rfl⟩
  split
  · split <;> exact ⟨rfl, rfl⟩
  · exact ⟨rfl, rfl⟩

end Queue

/-! ## Polls -/

def sendingsOf (q : Nat) (l : List Sending) : List Sending := l.filter (·.id = q)

/-- The pacing of queue `q` with rate `r` after the sendings `l`. -/
structure PacingInv (q : Nat) (r : BitVec 32) (queue : QmanQueue) (v : BitVec 32) (vtime : Nat) (l : List Sending) :
    Prop where
  rate : queue.rate = r
  paced : Paced Sending.vtime (Sending.cost r) (sendingsOf q l)
  held : ∀ f ∈ (sendingsOf q l).getLast?, Held queue v vtime (f.vtime + f.cost r)

section Poll

variable {q idx vtime : Nat} {r v : BitVec 32} {s s' : PollState} {S : Nat → List Nat} {N : List Nat} {l : List Sending}

theorem PacingInv.advance {queue : QmanQueue} {t : QmanThread} (h : PacingInv q r queue t.tsVirtual vtime l)
    (hv : queue.inSkiplist = true → t.ahead v ≤ t.ahead queue.nextTs) :
    PacingInv q r queue v (vtime + t.ahead v) l :=
  ⟨h.rate, h.paced, fun f hf => (h.held f hf).advance hv⟩

theorem PacingInv.served (h : PacingInv q r (s.t.queues q) s.t.tsVirtual vtime l) (hinv : QmanInv s.t S N none)
    (hr : r ≠ 0) (hs : Served s s' idx v)
    (hv : (s.t.queues q).inSkiplist = true → s.t.ahead v ≤ s.t.key q)
    (hready : idx = q → ∀ f ∈ (sendingsOf q l).getLast?, f.vtime + f.cost r ≤ vtime + s.t.ahead v) (rtime : Nat) :
    PacingInv q r (s'.t.queues q) v (vtime + s.t.ahead v) (l ++ if (s.t.queues idx).avail = 0 then [] else
      [⟨idx, (fireBytes (s.t.queues idx)).setWidth 16, vtime + s.t.ahead v, rtime⟩]) := by
  by_cases hi : idx = q
  · subst hi
    have hready := hready rfl
    rw [hs.queues, update_self]
    by_cases ha : (s.t.queues idx).avail = 0
    · rw [if_pos ha, List.append_nil]
      refine ⟨(servedQueue_rate ..).1.trans h.rate, h.paced, fun f hf => ?_⟩
      rw [servedQueue, if_pos ha]
      exact ⟨rfl, fun h' => absurd h' (by simp [QmanQueue.out]), fun _ => .inl (hready f hf)⟩
    · rw [if_neg ha]
      have hlast : ∀ f : Sending, f.id = idx → sendingsOf idx (l ++ [f]) = sendingsOf idx l ++ [f] := by
        intro f hf
        simp [sendingsOf, hf]
      have hr' : (s.t.queues idx).rate ≠ 0 := h.rate ▸ hr
      have hbytes := fireBytes_le (s.t.queues idx)
      refine ⟨(servedQueue_rate ..).1.trans h.rate, ?_, fun f hf => ?_⟩
      · rw [hlast _ rfl]
        exact h.paced.concat hready
      · rw [hlast _ rfl, List.getLast?_concat, Option.mem_some_iff] at hf
        rw [← hf, Sending.cost, toNat_setWidth16_of_lt (by omega), ← h.rate,
          show (fireBytes (s.t.queues idx)).toNat * 8000000 = (fireBytes (s.t.queues idx)).toNat * 8 * 1000000 by omega]
        exact servedQueue_held (t := { s.t with tsVirtual := v }) hr' (hinv.marked.rates idx ha hr') ha
  · have hsame : ∀ f : Sending, f.id = idx → sendingsOf q (l ++ [f]) = sendingsOf q l := by
      intro f hf
      simp [sendingsOf, hf, hi]
    have h' := h.advance hv
    rw [hs.queues, update_of_ne (Ne.symm hi)]
    split
    · rwa [List.append_nil]
    · refine ⟨h'.rate, ?_, ?_⟩ <;> rw [hsame _ rfl]
      · exact h'.paced
      · exact h'.held

end Poll

theorem clock_advance {v₀ v v' maxVts : BitVec 32}
    (h : (v - v₀).toNat + (maxVts - v).toNat = (maxVts - v₀).toNat) (hle : (v' - v).toNat ≤ (maxVts - v).toNat) :
    (v' - v₀).toNat = (v - v₀).toNat + (v' - v).toNat ∧
      (v' - v₀).toNat + (maxVts - v').toNat = (maxVts - v₀).toNat := by
  have h₁ := toNat_sub_add_sub (x := v₀) (y := v) (z := v') (by omega)
  have e : maxVts - v' = maxVts - v - (v' - v) := by grind
  have h₂ := toNat_sub_of_le hle
  rw [← e] at h₂
  omega

/-- The times of a poll that starts at virtual time `v₀` and may go up to `maxVts`. -/
structure PollClock (v₀ maxVts v : BitVec 32) (out : List Fired) : Prop where
  clock : (v - v₀).toNat + (maxVts - v).toNat = (maxVts - v₀).toNat
  times : ∀ f ∈ out, (f.vts - v₀).toNat ≤ (maxVts - v₀).toNat

section PollPaced

variable {q idx vtime rtime : Nat} {r v₀ v maxVts : BitVec 32} {l : List Sending} {s s' : PollState}
  {S : Nat → List Nat} {N : List Nat}

theorem PollClock.served (h : PollClock v₀ maxVts s.t.tsVirtual s.out) (hs : Served s s' idx v)
    (hle : s.t.ahead v ≤ s.t.ahead maxVts) : PollClock v₀ maxVts s'.t.tsVirtual s'.out := by
  have h₂ := (clock_advance h.clock hle).2
  rw [hs.tsVirtual]
  refine ⟨h₂, fun f hf => ?_⟩
  rw [hs.out, List.mem_append] at hf
  rcases hf with hf | hf
  · exact h.times f hf
  · split at hf
    · cases hf
    · rw [List.mem_singleton.mp hf]
      exact Nat.le.intro h₂

theorem ahead_tsVirtual (t : QmanThread) : t.ahead t.tsVirtual = 0 := by
  simp [QmanThread.ahead]

theorem pollKeeps_clock : PollKeeps maxVts fun _ v out => PollClock v₀ maxVts v out where
  nolimit {s _ _ _ _} _ _ hs h := h.served hs (by rw [ahead_tsVirtual]; exact Nat.zero_le _)
  skiplist _ _ _ hle hs h := h.served hs hle
  advance _ _ hle h := ⟨(clock_advance h.clock hle).2, h.times⟩

/-- The pacing in a poll, which comes after the sendings `l`. -/
def PollPaced (q : Nat) (r : BitVec 32) (vtime : Nat) (v₀ : BitVec 32) (rtime : Nat) (l : List Sending)
    (queues : Nat → QmanQueue) (v : BitVec 32) (out : List Fired) : Prop :=
  PacingInv q r (queues q) v (vtime + (v - v₀).toNat) (l ++ out.map (stamp vtime v₀ rtime))

theorem PollPaced.served (h : PollPaced q r vtime v₀ rtime l s.t.queues s.t.tsVirtual s.out)
    (hc : PollClock v₀ maxVts s.t.tsVirtual s.out) (hinv : QmanInv s.t S N none) (hr : r ≠ 0)
    (hs : Served s s' idx v) (hle : s.t.ahead v ≤ s.t.ahead maxVts)
    (hv : (s.t.queues q).inSkiplist = true → s.t.ahead v ≤ s.t.key q)
    (hready : idx = q → ∀ f ∈ (sendingsOf q (l ++ s.out.map (stamp vtime v₀ rtime))).getLast?,
      f.vtime + f.cost r ≤ vtime + (s.t.tsVirtual - v₀).toNat + s.t.ahead v) :
    PollPaced q r vtime v₀ rtime l s'.t.queues s'.t.tsVirtual s'.out := by
  have h₁ : (v - v₀).toNat = (s.t.tsVirtual - v₀).toNat + s.t.ahead v := (clock_advance hc.clock hle).1
  have hp := PacingInv.served h hinv hr hs hv hready rtime
  rw [Nat.add_assoc, ← h₁, List.append_assoc] at hp
  have hout : s'.out.map (stamp vtime v₀ rtime) = s.out.map (stamp vtime v₀ rtime) ++
      if (s.t.queues idx).avail = 0 then [] else
        [⟨idx, (fireBytes (s.t.queues idx)).setWidth 16, vtime + (v - v₀).toNat, rtime⟩] := by
    rw [hs.out, List.map_append]
    split <;> rfl
  rw [PollPaced, hs.tsVirtual, hout]
  exact hp

theorem pollKeeps_paced (hr : r ≠ 0) : PollKeeps maxVts fun queues v out =>
    PollClock v₀ maxVts v out ∧ PollPaced q r vtime v₀ rtime l queues v out where
  nolimit {s s' S N idx} hinv hi hs h := by
    have hself := ahead_tsVirtual s.t
    refine ⟨pollKeeps_clock.nolimit hinv hi hs h.1, h.2.served h.1 hinv hr hs (by omega) (fun _ => by omega) ?_⟩
    -- a queue in the no-limit list has not been let to send with this rate yet
    intro he f hf
    have hno := (h.2.held f hf).notNolimit
    rw [← he, ← Bool.not_eq_true, ← hinv.marked.inNo] at hno
    exact absurd hi hno
  skiplist {s s' S N idx} hinv hi hfirst hle hs h := by
    refine ⟨h.1.served hs hle, h.2.served h.1 hinv hr hs hle (fun hq => hfirst q ((hinv.marked.inSkip q).mpr hq)) ?_⟩
    intro he f hf
    subst he
    exact (h.2.held f hf).inList ((hinv.marked.inSkip idx).mp hi)
  advance {t S N v out} hinv hv hle h := by
    refine ⟨pollKeeps_clock.advance hinv hv hle h.1, ?_⟩
    have h₁ : (v - v₀).toNat = (t.tsVirtual - v₀).toNat + t.ahead v := (clock_advance h.1.clock hle).1
    have hp := PacingInv.advance h.2 fun hq => hv q ((hinv.marked.inSkip q).mpr hq)
    rwa [Nat.add_assoc, ← h₁] at hp

end PollPaced

/-! ## Runs -/

/-- The times of a state: the virtual time is not ahead of the real time, and was
not when queues were let to send. -/
structure ClockInv (s : ClockState) : Prop where
  inv : ∃ S N, QmanInv s.t S N none
  ahead : s.vtime ≤ s.rtime
  times : ∀ f ∈ s.fired, f.vtime ≤ f.rtime

/-- The rate and `max_chunk` of queue `q` stay the same. -/
def KeepsRate (q : Nat) (t : QmanThread) : QmanOp → Prop
  | .set c => c.id.toNat = q → (qmanUpdate (t.queues q) c).rate = (t.queues q).rate ∧
    (qmanUpdate (t.queues q) c).maxChunk = (t.queues q).maxChunk
  | .poll _ _ => True

instance (q : Nat) (t : QmanThread) : ∀ op, Decidable (KeepsRate q t op)
  | .set _ => inferInstanceAs (Decidable (_ → _))
  | .poll _ _ => inferInstanceAs (Decidable True)

section Runs

variable {s s' : ClockState} {op : QmanOp} {q : Nat} {r : BitVec 32}

theorem maxVts_sub (t : QmanThread) (ts : BitVec 32) : t.tsVirtual + (ts - t.tsReal) - t.tsVirtual = ts - t.tsReal := by
  rw [BitVec.add_comm, BitVec.add_sub_cancel]

theorem pollClock_start (v maxVts : BitVec 32) : PollClock v maxVts v [] :=
  ⟨by simp, by simp⟩

theorem clockStep_inv (h : ClockInv s) (hok : qmanOk s.t op) : ∃ s', clockStep s op = some s' ∧ ClockInv s' := by
  obtain ⟨S, N, hinv⟩ := h.inv
  cases op with
  | set c =>
    obtain ⟨t', ret, S', N', e, h', -⟩ := qmanSet_inv hinv hok
    exact ⟨{ s with t := t' }, by rw [clockStep, e]; rfl, ⟨S', N', h'⟩, h.ahead, h.times⟩
  | poll num ts =>
    obtain ⟨p, S', N', e, h', hc, -⟩ := qmanPoll_inv pollKeeps_clock hinv hok (pollClock_start ..) num
    have hahead := h.ahead
    have hclock := hc.clock
    have htimes := hc.times
    rw [maxVts_sub] at hclock htimes
    refine ⟨_, by rw [clockStep, e]; rfl, ⟨S', N', h'⟩, ?_, fun f hf => ?_⟩
    · dsimp only
      omega
    · rcases List.mem_append.mp hf with hf | hf
      · exact h.times f hf
      · obtain ⟨g, hg, rfl⟩ := List.mem_map.mp hf
        have := htimes g hg
        dsimp only [stamp]
        omega

theorem PacingInv.set {queue queue' : QmanQueue} {v : BitVec 32} {vtime : Nat} {l : List Sending}
    (h : PacingInv q r queue v vtime l) (hr : queue'.rate = queue.rate) (hm : queue'.maxChunk = queue.maxChunk)
    (ht : queue'.nextTs = queue.nextTs) (hs : queue'.inSkiplist = queue.inSkiplist)
    (hn : queue'.inNolimitl = queue.inNolimitl) : PacingInv q r queue' v vtime l := by
  refine ⟨hr.trans h.rate, h.paced, fun f hf => ?_⟩
  obtain ⟨h₁, h₂, h₃⟩ := h.held f hf
  refine ⟨hn.trans h₁, ?_, ?_⟩ <;> rw [hs, ht]
  · exact h₂
  · rw [QmanQueue.cost, hr, hm]
    exact h₃

theorem qmanSet_paced {t t' : QmanThread} {c : QmanSet} {vtime : Nat} {l : List Sending} (hr : r ≠ 0)
    (h : PacingInv q r (t.queues q) t.tsVirtual vtime l) (hok : RateOk (qmanUpdate (t.queues c.id.toNat) c))
    (hk : KeepsRate q t (.set c)) (hset : SetQueue t c.id.toNat c t'.queues) :
    PacingInv q r (t'.queues q) t.tsVirtual vtime l := by
  by_cases hi : c.id.toNat = q
  · obtain ⟨hrate, hchunk⟩ := hk hi
    rw [hi] at hok hset
    have h₁ : PacingInv q r (qmanUpdate (t.queues q) c) t.tsVirtual vtime l := h.set hrate hchunk rfl rfl rfl
    rcases hset with hq | ⟨hq, ha, hs⟩ <;> rw [hq, update_self]
    · exact h₁
    · have hr₁ : (qmanUpdate (t.queues q) c).rate ≠ 0 := h₁.rate ▸ hr
      refine ⟨?_, h₁.paced, fun f hf => (h₁.held f hf).activated hr₁ (hok ha hr₁) hs⟩
      rw [activatedQueue, if_neg hr₁]
      exact h₁.rate
  · rcases hset with hq | ⟨hq, -⟩ <;> rw [hq, update_of_ne (Ne.symm hi)] <;> exact h

theorem clockStep_paced (h : ClockInv s) (hr : r ≠ 0) (hp : PacingInv q r (s.t.queues q) s.t.tsVirtual s.vtime s.fired)
    (hok : qmanOk s.t op) (hk : KeepsRate q s.t op) (hs : clockStep s op = some s') :
    PacingInv q r (s'.t.queues q) s'.t.tsVirtual s'.vtime s'.fired := by
  obtain ⟨S, N, hinv⟩ := h.inv
  cases op with
  | set c =>
    obtain ⟨t', ret, S', N', e, h', hv, -, hq, -⟩ := qmanSet_inv hinv hok
    rw [clockStep, e] at hs
    cases hs
    simp only [hv]
    rcases hq with ⟨hq, -⟩ | ⟨hid, hq⟩
    · rwa [hq]
    · exact qmanSet_paced hr hp (hok hid) hk hq
  | poll num ts =>
    have hstart : PollPaced q r s.vtime s.t.tsVirtual (s.rtime + (ts - s.t.tsReal).toNat) s.fired s.t.queues
        s.t.tsVirtual [] := by
      simpa [PollPaced] using hp
    obtain ⟨p, S', N', e, h', hc, -⟩ :=
      qmanPoll_inv (pollKeeps_paced hr) hinv hok ⟨pollClock_start .., hstart⟩ num
    rw [clockStep, e] at hs
    cases hs
    exact hc.2

end Runs

/-- The bytes of queue `q` sent from one sending on, but for a later one, take at
rate `r` no more than the virtual time between the two. -/
def RateLimited (q : Nat) (r : BitVec 32) (fired : List Sending) : Prop :=
  ∀ before f between g after, sendingsOf q fired = before ++ f :: (between ++ g :: after) →
    f.vtime + ((f :: between).map (Sending.cost r)).sum ≤ g.vtime

theorem clockInit_inv (ts : BitVec 32) (rng : Nat → BitVec 32) (nolimitFirst : Bool) :
    ClockInv (clockInit ts rng nolimitFirst) :=
  ⟨⟨_, _, qmanThreadInit_inv ts rng nolimitFirst⟩, Nat.le_refl _, by simp [clockInit]⟩

/-- In every run in which all queues of the thread have high enough rates, a queue
whose rate and `max_chunk` stay the same from some state on does not exceed its
rate from then on, and the virtual time is never ahead of the real time. -/
theorem rate_limited {ts : BitVec 32} {rng : Nat → BitVec 32} {nolimitFirst : Bool} {ops ops' : List QmanOp} {q : Nat}
    {s : ClockState} (hok : Run.All clockStep (fun s => qmanOk s.t) (clockInit ts rng nolimitFirst) ops)
    (hs : Run.exec clockStep (clockInit ts rng nolimitFirst) ops = some s) (hr : (s.t.queues q).rate ≠ 0)
    (hok' : Run.All clockStep (fun s op => qmanOk s.t op ∧ KeepsRate q s.t op) { s with fired := [] } ops') :
    ∃ s', Run.exec clockStep { s with fired := [] } ops' = some s' ∧ RateLimited q (s.t.queues q).rate s'.fired ∧
      s'.vtime ≤ s'.rtime ∧ ∀ f ∈ s'.fired, f.vtime ≤ f.rtime := by
  obtain ⟨s₁, e₁, h₁⟩ := Run.exec_total (I := ClockInv) (fun _ _ => clockStep_inv) (clockInit_inv ts rng nolimitFirst) hok
  obtain rfl : s₁ = s := Option.some.inj (e₁.symm.trans hs)
  have hstart : ClockInv { s₁ with fired := [] } := ⟨h₁.inv, h₁.ahead, by simp⟩
  have hpaced : PacingInv q (s₁.t.queues q).rate (s₁.t.queues q) s₁.t.tsVirtual s₁.vtime [] :=
    ⟨rfl, List.isChain_nil, by simp [sendingsOf]⟩
  obtain ⟨s', e, h', hp⟩ := Run.exec_total
    (I := fun s => ClockInv s ∧ PacingInv q (s₁.t.queues q).rate (s.t.queues q) s.t.tsVirtual s.vtime s.fired)
    (fun s op hI hop => by
      obtain ⟨s', e, h'⟩ := clockStep_inv hI.1 hop.1
      exact ⟨s', e, h', clockStep_paced hI.1 hr hI.2 hop.1 hop.2 e⟩) ⟨hstart, hpaced⟩ hok'
  exact ⟨s', e, fun _ _ _ _ _ hl => Paced.sum_le (hl ▸ hp.paced), h'.ahead, h'.times⟩

/-- `QMAN_SET_RATE`, `QMAN_SET_MAXCHUNK` and `QMAN_SET_AVAIL`. -/
def setAll (id rate avail : BitVec 32) (maxChunk : BitVec 16) : QmanOp :=
  .set ⟨id, rate, avail, maxChunk, qmanSetRate ||| qmanSetMaxchunk ||| qmanSetAvail⟩

/-- The state in which queue 0 has two segments to send, at rate 6. -/
def rateStart : ClockState :=
  (Run.exec clockStep (clockInit 0 (fun _ => 0) false) [setAll 0 6 2896 1448]).get (by decide +kernel)

/-- Queue 0 is emptied, and refilled. -/
def refillOps : List QmanOp :=
  [.poll 10 1, .poll 10 1930666667, .set ⟨0, 0, 1448, 0, qmanAddAvail⟩, .poll 10 1930666668, .poll 10 3861333333]

theorem rate_limited_refill :
    ∃ s', Run.exec clockStep { rateStart with fired := [] } refillOps = some s' ∧
      RateLimited 0 (rateStart.t.queues 0).rate s'.fired ∧ s'.vtime ≤ s'.rtime ∧ ∀ f ∈ s'.fired, f.vtime ≤ f.rtime :=
  have hok : Run.All clockStep (fun s => qmanOk s.t) (clockInit 0 (fun _ => 0) false) [setAll 0 6 2896 1448] := by
    decide +kernel
  rate_limited hok (Option.some_get _).symm (by decide +kernel) (by decide +kernel)

/-- The time between polls is less than half the range of the clock. -/
def PollsClose (t : QmanThread) : QmanOp → Prop
  | .set _ => True
  | .poll _ ts => (ts - t.tsReal).toNat < 2 ^ 31

instance (t : QmanThread) : ∀ op, Decidable (PollsClose t op)
  | .set _ => inferInstanceAs (Decidable True)
  | .poll _ _ => inferInstanceAs (Decidable (_ < _))

/-- Queue 1 sends at rate 6, and then gets rate 3 and more to send. -/
def outrunOps : List QmanOp :=
  [setAll 1 6 1448 1448, .poll 10 1, setAll 1 3 1448 1448, .poll 1 2, .poll 10 3]

/-- With a queue of rate 3, `max_chunk` takes so long that queue 1 is put in the
past, and serving it moves the virtual time to the time stamp of queue 0: both
segments of queue 0 are sent within three nanoseconds. -/
theorem rate_outrun : ¬ ∀ (ts : BitVec 32) (rng : Nat → BitVec 32) (nolimitFirst : Bool) (ops ops' : List QmanOp) (q : Nat)
    (s s' : ClockState), Run.All clockStep (fun s => PollsClose s.t) (clockInit ts rng nolimitFirst) ops →
      Run.exec clockStep (clockInit ts rng nolimitFirst) ops = some s → (s.t.queues q).rate ≠ 0 →
      (s.t.queues q).cost (s.t.queues q).maxChunk.toNat < 2 ^ 31 →
      Run.All clockStep (fun s op => PollsClose s.t op ∧ KeepsRate q s.t op) { s with fired := [] } ops' →
      Run.exec clockStep { s with fired := [] } ops' = some s' →
      RateLimited q (s.t.queues q).rate s'.fired ∧ s'.vtime ≤ s'.rtime ∧ ∀ f ∈ s'.fired, f.vtime ≤ f.rtime := by
  intro h
  have hahead : (Run.exec clockStep { rateStart with fired := [] } outrunOps).all
      (fun s' => decide (s'.vtime ≤ s'.rtime ∧ ∀ f ∈ s'.fired, f.vtime ≤ f.rtime)) = false := by
    decide +kernel
  refine Run.not_forall_exec hahead fun s' hs' => ?_
  exact (h 0 (fun _ => 0) false [setAll 0 6 2896 1448] outrunOps 0 rateStart s' (by decide +kernel)
    (Option.some_get _).symm (by decide +kernel) (by decide +kernel) (by decide +kernel) hs').2

end TasNic
