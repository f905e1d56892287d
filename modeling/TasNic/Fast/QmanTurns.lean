import TasNic.Fast.QmanStructure

/-!
# The turns of queues without a rate

Queues without a rate are in the no-limit list, of which `poll_nolimit` takes the first one, lets it send and puts it back at the
end if it has more bytes. So they are served in turn (`RoundRobin.Trace`), across polls: what happens to the list
is one run of that, an event at a time (`TurnsInv`). Bytes are let to send as they were added.
-/

namespace TasNic

open Function IdxList List

/-! ## Events -/

/-- A queue is set, or a turn of a poll takes it. -/
inductive QmanEvent where
  | set (c : QmanSet)
  | take (idx : Nat)

/-- An event, with the thread before it. -/
structure QmanMoment where
  t : QmanThread
  event : QmanEvent

namespace QmanMoment

def fires (m : QmanMoment) : Option Nat :=
  match m.event with
  | .set _ => none
  | .take idx => if (m.t.queues idx).avail = 0 then none else some idx

/-- The queue that is let to send, with the smaller of its bytes and `max_chunk`. -/
def report (m : QmanMoment) : Option (Nat × Nat) :=
  m.fires.map fun idx => (idx, min (m.t.queues idx).avail.toNat (m.t.queues idx).maxChunk.toNat)

def adds (q : Nat) (m : QmanMoment) : Nat :=
  match m.event with
  | .set c => if c.id.toNat = q ∧ q < numQmqueues ∧ c.flags &&& qmanAddAvail ≠ 0 then c.avail.toNat else 0
  | .take _ => 0

def nolimitList (t : QmanThread) : List Nat := toList (t.skip.next 0) numQmqueues t.nolimitHeadIdx

/-- The event as one of the no-limit list. -/
def entry (m : QmanMoment) : List Nat × Option Nat := (nolimitList m.t, m.fires)

end QmanMoment

/-- The turns of `poll_nolimit`. -/
def nolimitMoments (t : QmanThread) (num : Nat) : List QmanMoment :=
  (Run.visited (nolimitTurn num) (pollTurns num) ⟨t, []⟩).filterMap fun s => s.t.nolimitHeadIdx.map fun idx => ⟨s.t, .take idx⟩

/-- The turns of `poll_skiplist`. -/
def skiplistMoments (t : QmanThread) (ts : BitVec 32) (num : Nat) : List QmanMoment :=
  (Run.visited (skiplistTurn (t.tsVirtual + (ts - t.tsReal)) num) (pollTurns num) ⟨t, []⟩).filterMap fun s =>
    (s.t.skip.head 0).map fun idx => ⟨s.t, .take idx⟩

/-- The turns of `qman_poll`. -/
def pollMoments (t : QmanThread) (num : Nat) (ts : BitVec 32) : List QmanMoment :=
  if t.nolimitFirst then
    nolimitMoments t num ++ (pollNolimit t num).elim [] fun s => skiplistMoments s.t ts (num - s.out.length)
  else
    skiplistMoments t ts num ++ (pollSkiplist t ts num).elim [] fun s => nolimitMoments s.t (num - s.out.length)

/-- A thread with what has happened to it, and what its polls have returned. -/
structure QmanLog where
  t : QmanThread
  log : List QmanMoment
  fired : List Fired

def logStep (s : QmanLog) : QmanOp → Option QmanLog
  | .set c => (qmanSet s.t c).map fun r => { s with t := r.1, log := s.log ++ [⟨s.t, .set c⟩] }
  | .poll num ts => (qmanPoll s.t num ts).map fun p =>
    { t := p.t, log := s.log ++ pollMoments s.t num ts, fired := s.fired ++ p.out }

theorem logStep_t (s : QmanLog) (op : QmanOp) : (logStep s op).map (·.t) = qmanStep s.t op := by
  cases op with
  | set c => rw [logStep, qmanStep, Option.map_map]; rfl
  | poll num ts => rw [logStep, qmanStep, Option.map_map]; rfl

def addedTo (q : Nat) (log : List QmanMoment) : Nat := (log.map (·.adds q)).sum

def sentBy (q : Nat) (fired : List Fired) : Nat := ((fired.filter (·.id = q)).map (·.bytes.toNat)).sum

/-- Queues are only added bytes to, and get no rate. -/
def AddsOnly : QmanOp → Prop
  | .set c => c.flags &&& qmanSetAvail = 0 ∧ (c.flags &&& qmanSetRate ≠ 0 → c.rate = 0)
  | .poll _ _ => True

instance : (op : QmanOp) → Decidable (AddsOnly op)
  | .set _ => inferInstanceAs (Decidable (_ ∧ (_ → _)))
  | .poll _ _ => isTrue trivial

/-! ## The invariant -/

/-- No queue has a rate; what has happened is a run of the no-limit list, and bytes are accounted for. -/
structure TurnsInv (t : QmanThread) (log : List QmanMoment) (fired : List Fired) (N : List Nat) : Prop where
  inv : QmanInv t (fun _ => []) N none
  rates : ∀ i, (t.queues i).rate = 0
  trace : RoundRobin.Trace [] (log.map QmanMoment.entry) N
  active : ∀ m ∈ log, ∀ i, (m.t.queues i).avail ≠ 0 → i ∈ QmanMoment.nolimitList m.t
  reports : (fired.map fun f => (f.id, f.bytes.toNat)) = log.filterMap QmanMoment.report
  bytes : ∀ q, addedTo q log < 2 ^ 32 → sentBy q fired + (t.queues q).avail.toNat = addedTo q log

section Events

variable {t : QmanThread} {log : List QmanMoment} {fired : List Fired} {N : List Nat} {c : QmanSet}

theorem TurnsInv.nolimitList_eq (h : TurnsInv t log fired N) : QmanMoment.nolimitList t = N :=
  h.inv.linked.nolimit.toList_eq (h.inv.linked.length_le h.inv.marked).2

theorem TurnsInv.mem (h : TurnsInv t log fired N) (i : Nat) (ha : (t.queues i).avail ≠ 0) : i ∈ QmanMoment.nolimitList t := by
  rw [h.nolimitList_eq]
  exact (h.inv.marked.active i (by simp) ha).resolve_left not_mem_nil

theorem qmanUpdate_rate {q : QmanQueue} (hq : q.rate = 0) (hc : AddsOnly (.set c)) : (qmanUpdate q c).rate = 0 := by
  rw [qmanUpdate]
  dsimp only
  split_ifs with h
  · exact hc.2 h
  · exact hq

theorem qmanUpdate_avail (q : QmanQueue) (hc : AddsOnly (.set c)) :
    (qmanUpdate q c).avail = if c.flags &&& qmanAddAvail ≠ 0 then q.avail + c.avail else q.avail := by
  rw [qmanUpdate]
  rw [if_neg (not_not.mpr hc.1)]

theorem activatedQueue_rate_avail (t : QmanThread) (q : QmanQueue) :
    (activatedQueue t q).rate = q.rate ∧ (activatedQueue t q).avail = q.avail := by
  rw [activatedQueue]
  split_ifs
  · exact ⟨rfl, rfl⟩
  · exact ⟨rfl, rfl⟩

theorem SetQueue.rate_avail {queues : Nat → QmanQueue} {idx : Nat} (h : SetQueue t idx c queues) (i : Nat) :
    (queues i).rate = (update t.queues idx (qmanUpdate (t.queues idx) c) i).rate ∧
      (queues i).avail = (update t.queues idx (qmanUpdate (t.queues idx) c) i).avail := by
  rcases h with rfl | ⟨rfl, -⟩
  · exact ⟨rfl, rfl⟩
  · by_cases hi : i = idx
    · rw [hi, update_self, update_self]
      exact activatedQueue_rate_avail ..
    · rw [update_of_ne hi, update_of_ne hi]
      exact ⟨rfl, rfl⟩

theorem addedTo_concat (q : Nat) (log : List QmanMoment) (m : QmanMoment) : addedTo q (log ++ [m]) = addedTo q log + m.adds q := by
  rw [addedTo, map_append, sum_append, addedTo]
  rfl

/-- One more event. The bytes of every queue change by what is added and reported. -/
theorem TurnsInv.concat {t' : QmanThread} {e : QmanEvent} {F : List Fired} {N' : List Nat} (h : TurnsInv t log fired N)
    (hinv : QmanInv t' (fun _ => []) N' none) (hrates : ∀ i, (t'.queues i).rate = 0)
    (hstep : RoundRobin.Step N (QmanMoment.mk t e).fires N')
    (hreport : (F.map fun f => (f.id, f.bytes.toNat)) = (QmanMoment.mk t e).report.toList)
    (hbytes : ∀ q, (t.queues q).avail.toNat + (QmanMoment.mk t e).adds q < 2 ^ 32 →
      sentBy q F + (t'.queues q).avail.toNat = (t.queues q).avail.toNat + (QmanMoment.mk t e).adds q) :
    TurnsInv t' (log ++ [⟨t, e⟩]) (fired ++ F) N' where
  inv := hinv
  rates := hrates
  trace := by
    have hentry : QmanMoment.entry ⟨t, e⟩ = (N, (QmanMoment.mk t e).fires) := by rw [QmanMoment.entry, h.nolimitList_eq]
    rw [map_append, map_singleton, hentry]
    exact h.trace.append (.cons hstep (.nil N'))
  active m hm i ha := by
    rcases mem_append.mp hm with hm | hm
    · exact h.active m hm i ha
    · rw [mem_singleton.mp hm] at ha ⊢
      exact h.mem i ha
  reports := by
    rw [map_append, h.reports, hreport, filterMap_append, filterMap_cons]
    cases (QmanMoment.mk t e).report with
    | none => rfl
    | some r => rfl
  bytes q hadded := by
    rw [addedTo_concat] at hadded ⊢
    have hsum : sentBy q (fired ++ F) = sentBy q fired + sentBy q F := by
      simp [sentBy]
    have hbefore := h.bytes q (by omega)
    have hnow := hbytes q (by omega)
    omega

theorem set_avail {queues : Nat → QmanQueue} {q : Nat} (hc : AddsOnly (.set c))
    (hq : queues = t.queues ∧ numQmqueues ≤ c.id.toNat ∨ c.id.toNat < numQmqueues ∧ SetQueue t c.id.toNat c queues)
    (hlt : (t.queues q).avail.toNat + (QmanMoment.mk t (.set c)).adds q < 2 ^ 32) :
    (queues q).avail.toNat = (t.queues q).avail.toNat + (QmanMoment.mk t (.set c)).adds q := by
  rw [QmanMoment.adds] at hlt ⊢
  dsimp only at hlt ⊢
  rcases hq with ⟨rfl, hid⟩ | ⟨hid, hq⟩
  · rw [if_neg fun h => by omega, Nat.add_zero]
  · rw [(hq.rate_avail q).2]
    by_cases hi : q = c.id.toNat
    · subst hi
      rw [update_self, qmanUpdate_avail _ hc]
      by_cases hadd : c.flags &&& qmanAddAvail ≠ 0
      · rw [if_pos ⟨rfl, hid, hadd⟩] at hlt
        rw [if_pos hadd, if_pos ⟨rfl, hid, hadd⟩, BitVec.toNat_add, Nat.mod_eq_of_lt hlt]
      · rw [if_neg hadd, if_neg fun h => hadd h.2.2, Nat.add_zero]
    · rw [update_of_ne hi, if_neg fun h => hi h.1.symm, Nat.add_zero]

theorem TurnsInv.set (h : TurnsInv t log fired N) (hc : AddsOnly (.set c)) :
    ∃ t' r N', qmanSet t c = some (t', r) ∧ TurnsInv t' (log ++ [⟨t, .set c⟩]) fired N' := by
  have hrate := qmanUpdate_rate (h.rates c.id.toNat) hc
  obtain ⟨t', r, S', N', e, h', -, -, hq, hstep⟩ := qmanSet_inv (c := c) h.inv fun _ _ hr => absurd hrate hr
  obtain ⟨rfl, hjoin⟩ := hstep hrate
  have hrates : ∀ i, (t'.queues i).rate = 0 := by
    intro i
    rcases hq with ⟨hq, -⟩ | ⟨-, hq⟩
    · rw [hq]
      exact h.rates i
    · rw [(hq.rate_avail i).1]
      by_cases hi : i = c.id.toNat
      · rw [hi, update_self]
        exact hrate
      · rw [update_of_ne hi]
        exact h.rates i
  have hbytes : ∀ q, (t.queues q).avail.toNat + (QmanMoment.mk t (.set c)).adds q < 2 ^ 32 →
      sentBy q [] + (t'.queues q).avail.toNat = (t.queues q).avail.toNat + (QmanMoment.mk t (.set c)).adds q := by
    intro q hlt
    rw [set_avail hc hq hlt]
    exact Nat.zero_add _
  have hmore := h.concat (e := .set c) h' hrates hjoin rfl hbytes
  rw [append_nil] at hmore
  exact ⟨t', r, N', e, hmore⟩

/-- A queue is let to send the smaller of its bytes and `max_chunk`. -/
theorem fireBytes_toNat (q : QmanQueue) : (fireBytes q).toNat = min q.avail.toNat q.maxChunk.toNat ∧
    ((fireBytes q).setWidth 16).toNat = min q.avail.toNat q.maxChunk.toNat := by
  have hchunk : (q.maxChunk.setWidth 32).toNat = q.maxChunk.toNat := Serial.toNat_setWidth32 _
  have hfire : (fireBytes q).toNat = min q.avail.toNat q.maxChunk.toNat := by
    rw [fireBytes]
    split_ifs with h
    · rw [BitVec.le_def, hchunk] at h
      omega
    · rw [BitVec.le_def, hchunk] at h
      omega
  refine ⟨hfire, ?_⟩
  rw [BitVec.toNat_setWidth, hfire]
  omega

theorem servedQueue_rate_avail (t : QmanThread) (q : QmanQueue) : (servedQueue t q).rate = q.rate ∧
    (servedQueue t q).avail.toNat = q.avail.toNat - min q.avail.toNat q.maxChunk.toNat := by
  have hfire := (fireBytes_toNat q).1
  have hsub : (q.avail - fireBytes q).toNat = q.avail.toNat - min q.avail.toNat q.maxChunk.toNat := by
    rw [Serial.toNat_sub_of_le (by omega), hfire]
  rw [servedQueue]
  split_ifs with ha hmore
  · have hzero : q.avail.toNat = 0 := congrArg BitVec.toNat ha
    exact ⟨rfl, by rw [QmanQueue.out]; dsimp only; omega⟩
  · rw [(activatedQueue_rate_avail t _).1, (activatedQueue_rate_avail t _).2]
    exact ⟨rfl, hsub⟩
  · exact ⟨rfl, hsub⟩

theorem report_take (t : QmanThread) (idx : Nat) (v : BitVec 32) :
    ((if (t.queues idx).avail = 0 then [] else [(⟨idx, (fireBytes (t.queues idx)).setWidth 16, v⟩ : Fired)]).map
      fun f => (f.id, f.bytes.toNat)) = (QmanMoment.mk t (.take idx)).report.toList := by
  rw [QmanMoment.report, QmanMoment.fires]
  dsimp only
  split_ifs
  · rfl
  · rw [map_singleton, (fireBytes_toNat _).2]
    rfl

theorem sentBy_take {t : QmanThread} {queues : Nat → QmanQueue} {idx : Nat} {v : BitVec 32}
    (hq : queues = update t.queues idx (servedQueue { t with tsVirtual := v } (t.queues idx))) (q : Nat) :
    sentBy q (if (t.queues idx).avail = 0 then [] else [⟨idx, (fireBytes (t.queues idx)).setWidth 16, v⟩]) +
      (queues q).avail.toNat = (t.queues q).avail.toNat := by
  have havail := (servedQueue_rate_avail { t with tsVirtual := v } (t.queues idx)).2
  by_cases hi : q = idx
  · subst hi
    rw [hq, update_self, havail]
    split_ifs with hzero
    · rw [hzero]
      rfl
    · have hsent : sentBy q [⟨q, (fireBytes (t.queues q)).setWidth 16, v⟩] =
          min (t.queues q).avail.toNat (t.queues q).maxChunk.toNat := by
        rw [← (fireBytes_toNat (t.queues q)).2]
        simp [sentBy]
      omega
  · rw [hq, update_of_ne hi]
    split_ifs with hzero
    · exact Nat.zero_add _
    · have hnone : sentBy q [⟨idx, (fireBytes (t.queues idx)).setWidth 16, v⟩] = 0 := by
        simp [sentBy, Ne.symm hi]
      rw [hnone, Nat.zero_add]

theorem TurnsInv.turn {s : PollState} {F : List Fired} (num : Nat) (h : TurnsInv s.t log (F ++ s.out) N) :
    nolimitTurn num s = some (false, s) ∨
      ∃ s' N' idx, nolimitTurn num s = some (true, s') ∧ s.out.length < num ∧ s.t.nolimitHeadIdx = some idx ∧
        TurnsInv s'.t (log ++ [⟨s.t, .take idx⟩]) (F ++ s'.out) N' ∧
        (s'.out.length = s.out.length + 1 ∨ s'.out.length = s.out.length ∧ N'.length < N.length) := by
  rcases @nolimitTurn_inv s _ N num h.inv with e | ⟨s', S', N', idx, e, h', hnum, hhead, -, hs, hstep, hp⟩
  · exact .inl e
  · obtain ⟨rfl, hserve⟩ := hstep (h.rates idx)
    refine .inr ⟨s', N', idx, e, hnum, hhead, ?_, hp⟩
    have hrates : ∀ i, (s'.t.queues i).rate = 0 := by
      intro i
      rw [hs.queues]
      by_cases hi : i = idx
      · rw [hi, update_self, (servedQueue_rate_avail _ _).1]
        exact h.rates idx
      · rw [update_of_ne hi]
        exact h.rates i
    rw [hs.out, ← append_assoc]
    exact h.concat (e := .take idx) h' hrates hserve (report_take s.t idx s.t.tsVirtual) fun q _ => sentBy_take hs.queues q

/-! ## Polls -/

theorem TurnsInv.relabel (h : TurnsInv t log fired N) (v ts : BitVec 32) (b : Bool) :
    TurnsInv { t with tsVirtual := v, tsReal := ts, nolimitFirst := b } log fired N :=
  { h with inv := (h.inv.advance (v := v) fun _ hi => absurd hi not_mem_nil).relabel ts b }

theorem TurnsInv.pollNolimit (h : TurnsInv t log fired N) (num : Nat) :
    ∃ s N', pollNolimit t num = some s ∧ TurnsInv s.t (log ++ nolimitMoments t num) (fired ++ s.out) N' := by
  let taken (past : List PollState) : List QmanMoment :=
    past.filterMap fun s => s.t.nolimitHeadIdx.map fun idx => ⟨s.t, .take idx⟩
  let I (past : List PollState) (s : PollState) (n : Nat) := ∃ N, TurnsInv s.t (log ++ taken past) (fired ++ s.out) N ∧
    n = pollRank num s N
  let J (past : List PollState) (s : PollState) := ∃ N, TurnsInv s.t (log ++ taken past) (fired ++ s.out) N
  have hstart : I [] ⟨t, []⟩ (pollRank num ⟨t, []⟩ N) := by
    refine ⟨N, ?_, rfl⟩
    rw [append_nil, show taken [] = [] from rfl, append_nil]
    exact h
  have hlen := (h.inv.linked.length_le h.inv.marked).2
  obtain ⟨s, e, N', hJ⟩ : ∃ s, Run.loop (nolimitTurn num) (pollTurns num) ⟨t, []⟩ = some s ∧
      J ([] ++ Run.visited (nolimitTurn num) (pollTurns num) ⟨t, []⟩) s := by
    refine Run.loop_total_visited (I := I) (J := J) (fun past s n hI => ?_) hstart (pollRank_turns hlen)
    obtain ⟨N, h, rfl⟩ := hI
    rcases h.turn num with e | ⟨s', N', idx, e, hnum, hhead, h', hp⟩
    · exact .inr ⟨s, e, N, h⟩
    · refine .inl ⟨s', _, e, ⟨N', ?_, rfl⟩, pollRank_lt hnum (h'.inv.linked.length_le h'.inv.marked).2 hp⟩
      have htaken : taken (past ++ [s]) = taken past ++ [⟨s.t, .take idx⟩] := by
        simp [taken, hhead]
      rw [htaken, ← append_assoc]
      exact h'
  exact ⟨s, N', e, hJ⟩

/-- `poll_skiplist` finds no queue. -/
theorem TurnsInv.pollSkiplist (h : TurnsInv t log fired N) (ts : BitVec 32) (num : Nat) :
    skiplistMoments t ts num = [] ∧ ∃ s, pollSkiplist t ts num = some s ∧ s.out = [] ∧ TurnsInv s.t log fired N ∧
      s.t.nolimitFirst = t.nolimitFirst := by
  have hhead : t.skip.head 0 = none := chain_nil.mp (h.inv.linked.rep.chain 0 (by decide))
  have hturn : ∃ v, skiplistTurn (t.tsVirtual + (ts - t.tsReal)) num ⟨t, []⟩ = some (false, ⟨{ t with tsVirtual := v }, []⟩) := by
    rw [skiplistTurn]
    split_ifs
    · rw [hhead]
      exact ⟨_, rfl⟩
    · exact ⟨t.tsVirtual, rfl⟩
  obtain ⟨v, hv⟩ := hturn
  obtain ⟨k, hk⟩ : ∃ k, pollTurns num = k + 1 :=
    Nat.exists_eq_add_one.mpr (Nat.mul_pos (Nat.succ_pos _) (Nat.succ_pos _))
  refine ⟨?_, ?_⟩
  · rw [skiplistMoments, hk, Run.visited, hv]
    rfl
  · rw [TasNic.pollSkiplist, hk, Run.loop, hv]
    exact ⟨_, rfl, rfl, h.relabel _ ts t.nolimitFirst, rfl⟩

theorem TurnsInv.poll (h : TurnsInv t log fired N) (num : Nat) (ts : BitVec 32) :
    ∃ s N', qmanPoll t num ts = some s ∧ TurnsInv s.t (log ++ pollMoments t num ts) (fired ++ s.out) N' := by
  rw [qmanPoll, pollMoments]
  split_ifs
  · obtain ⟨s, N', e, h'⟩ := h.pollNolimit num
    obtain ⟨hnone, s', e', hout, h'', -⟩ := h'.pollSkiplist ts (num - s.out.length)
    rw [e, Option.bind_some, e', Option.elim_some, hnone, append_nil]
    refine ⟨_, N', rfl, ?_⟩
    dsimp only
    rw [hout, append_nil]
    exact h''.relabel s'.t.tsVirtual s'.t.tsReal _
  · obtain ⟨hnone, s, e, hout, h', -⟩ := h.pollSkiplist ts num
    obtain ⟨s', N', e', h''⟩ := h'.pollNolimit (num - s.out.length)
    rw [e, Option.bind_some, e', Option.elim_some, hnone, nil_append]
    refine ⟨_, N', rfl, ?_⟩
    dsimp only
    rw [hout] at h'' ⊢
    rw [nil_append]
    exact h''.relabel s'.t.tsVirtual s'.t.tsReal _

theorem turnsInv_init (ts : BitVec 32) (rng : Nat → BitVec 32) (nolimitFirst : Bool) :
    TurnsInv (qmanThreadInit ts rng nolimitFirst) [] [] [] where
  inv := qmanThreadInit_inv ts rng nolimitFirst
  rates _ := rfl
  trace := .nil []
  active _ hm := absurd hm not_mem_nil
  reports := rfl
  bytes _ _ := rfl

end Events

/-! ## Runs -/

/-- Between two events that let queue `a` send, every other queue that has bytes all the time is let to send, and once if `a` has bytes
all the time, too. -/
def ServedInTurn (log : List QmanMoment) : Prop :=
  ∀ (l₁ l₂ l₃ : List QmanMoment) (m₁ m₂ : QmanMoment) (a b : Nat), log = l₁ ++ m₁ :: (l₂ ++ m₂ :: l₃) →
    m₁.fires = some a → m₂.fires = some a → (∀ m ∈ l₂, m.fires ≠ some a) → b ≠ a →
    (∀ m ∈ l₂ ++ [m₂], (m.t.queues b).avail ≠ 0) →
    1 ≤ (l₂.map (·.fires)).count (some b) ∧
      ((∀ m ∈ l₂ ++ [m₂], (m.t.queues a).avail ≠ 0) → (l₂.map (·.fires)).count (some b) = 1)

theorem TurnsInv.servedInTurn {t : QmanThread} {log : List QmanMoment} {fired : List Fired} {N : List Nat}
    (h : TurnsInv t log fired N) : ServedInTurn log := by
  rintro l₁ l₂ l₃ m₁ m₂ a b rfl h₁ h₂ hna hba hb
  have hm₁ : m₁.entry = (QmanMoment.nolimitList m₁.t, some a) := by rw [QmanMoment.entry, h₁]
  have hm₂ : m₂.entry = (QmanMoment.nolimitList m₂.t, some a) := by rw [QmanMoment.entry, h₂]
  have htrace := h.trace
  rw [map_append, map_cons, map_append, map_cons, hm₁, hm₂] at htrace
  have hturns : RoundRobin.turns b (l₂.map QmanMoment.entry) = (l₂.map (·.fires)).count (some b) := by
    rw [RoundRobin.turns, map_map]
    rfl
  -- a queue with bytes is in the list
  have hwaits : ∀ i, (∀ m ∈ l₂ ++ [m₂], (m.t.queues i).avail ≠ 0) →
      (∀ x ∈ l₂.map QmanMoment.entry, i ∈ x.1) ∧ i ∈ QmanMoment.nolimitList m₂.t := by
    intro i hi
    refine ⟨fun x hx => ?_, ?_⟩
    · obtain ⟨m, hm, rfl⟩ := mem_map.mp hx
      exact h.active m (by simp [hm]) i (hi m (by simp [hm]))
    · exact h.active m₂ (by simp) i (hi m₂ (by simp))
  have hfires : ∀ x ∈ l₂.map QmanMoment.entry, x.2 ≠ some a := by
    intro x hx
    obtain ⟨m, hm, rfl⟩ := mem_map.mp hx
    exact hna m hm
  obtain ⟨hone, honce⟩ := htrace.round nodup_nil hba hfires (hwaits b hb).1 (hwaits b hb).2
  rw [hturns] at hone honce
  exact ⟨hone, fun ha => honce (hwaits a ha).1⟩

theorem logStep_turns (s : QmanLog) (op : QmanOp) (h : ∃ N, TurnsInv s.t s.log s.fired N) (hop : AddsOnly op) :
    ∃ s', logStep s op = some s' ∧ ∃ N, TurnsInv s'.t s'.log s'.fired N := by
  obtain ⟨N, h⟩ := h
  cases op with
  | set c =>
    obtain ⟨t', r, N', e, h'⟩ := h.set hop
    rw [logStep, e]
    exact ⟨_, rfl, N', h'⟩
  | poll num ts =>
    obtain ⟨s', N', e, h'⟩ := h.poll num ts
    rw [logStep, e]
    exact ⟨_, rfl, N', h'⟩

/-- In every run without rates in which bytes are only added, queues are served in turn, with the smaller of their
bytes and `max_chunk` each time, and the bytes they were let to send and those left are those that were added. -/
theorem queues_served_in_turn (ts : BitVec 32) (rng : Nat → BitVec 32) (nolimitFirst : Bool) {ops : List QmanOp}
    (hops : ∀ op ∈ ops, AddsOnly op) :
    ∃ s, Run.exec logStep ⟨qmanThreadInit ts rng nolimitFirst, [], []⟩ ops = some s ∧ ServedInTurn s.log ∧
      (s.fired.map fun f => (f.id, f.bytes.toNat)) = s.log.filterMap QmanMoment.report ∧
      ∀ q, addedTo q s.log < 2 ^ 32 → sentBy q s.fired + (s.t.queues q).avail.toNat = addedTo q s.log := by
  obtain ⟨s, e, N, h⟩ := Run.exec_total (I := fun s : QmanLog => ∃ N, TurnsInv s.t s.log s.fired N) logStep_turns
    (s := ⟨qmanThreadInit ts rng nolimitFirst, [], []⟩) ⟨[], turnsInv_init ts rng nolimitFirst⟩ (.of_mem hops)
  exact ⟨s, e, h.servedInTurn, h.reports, h.bytes⟩

/-- Bytes for a queue without a rate that sends one byte at a time. -/
def addBytes (id avail : BitVec 32) : QmanOp := .set ⟨id, 0, avail, 1, qmanSetRate ||| qmanSetMaxchunk ||| qmanAddAvail⟩

/-- A queue that is set has a `max_chunk`. -/
def GivesChunk : QmanOp → Prop
  | .set c => c.flags &&& qmanSetMaxchunk ≠ 0 ∧ 1 ≤ c.maxChunk.toNat
  | .poll _ _ => True

instance : (op : QmanOp) → Decidable (GivesChunk op)
  | .set _ => inferInstanceAs (Decidable (_ ≠ _ ∧ _ ≤ _))
  | .poll _ _ => isTrue trivial

/-- Two queues in polls of two and three. -/
theorem queues_served_in_turn_two : ∃ s, Run.exec logStep ⟨qmanThreadInit 0 (fun _ => 8) true, [], []⟩
      [addBytes 0 3, addBytes 1 3, .poll 2 100, .poll 3 200] = some s ∧ ServedInTurn s.log ∧
    (s.fired.map fun f => (f.id, f.bytes.toNat)) = s.log.filterMap QmanMoment.report ∧
    ∀ q, addedTo q s.log < 2 ^ 32 → sentBy q s.fired + (s.t.queues q).avail.toNat = addedTo q s.log :=
  queues_served_in_turn 0 (fun _ => 8) true (by decide)

/-- A queue that has sent all its bytes is not in the list until it gets more, and the other one is served three times. -/
theorem served_three_times : ¬ ∀ (ts : BitVec 32) (rng : Nat → BitVec 32) (nolimitFirst : Bool) (ops : List QmanOp) (s : QmanLog),
    (∀ op ∈ ops, AddsOnly op ∧ GivesChunk op) →
    Run.exec logStep ⟨qmanThreadInit ts rng nolimitFirst, [], []⟩ ops = some s →
    ∀ (l₁ l₂ l₃ : List QmanMoment) (m₁ m₂ : QmanMoment) (a b : Nat), s.log = l₁ ++ m₁ :: (l₂ ++ m₂ :: l₃) →
      m₁.fires = some a → m₂.fires = some a → (∀ m ∈ l₂, m.fires ≠ some a) → b ≠ a →
      (∀ m ∈ m₁ :: (l₂ ++ [m₂]), (m.t.queues b).avail ≠ 0) → (l₂.map (·.fires)).count (some b) = 1 := by
  intro h
  -- the events with the bytes of queue 1
  let view (m : QmanMoment) : Option Nat × BitVec 32 := (m.fires, (m.t.queues 1).avail)
  have hrun : (Run.exec logStep ⟨qmanThreadInit 0 (fun _ => 8) true, [], []⟩
      [addBytes 0 1, addBytes 1 6, .poll 3 100, addBytes 0 1, .poll 2 200]).map (fun s => s.log.map view) =
      some ([(none, 0), (none, 0)] ++ (some 0, 6) :: ([(some 1, 6), (some 1, 5), (none, 4), (some 1, 4)] ++ (some 0, 3) :: [])) := by
    decide +kernel
  obtain ⟨s, hs, hlog⟩ := Option.map_eq_some_iff.mp hrun
  obtain ⟨l₁, r, e, -, hr⟩ := map_eq_append_iff.mp hlog
  obtain ⟨m₁, r, rfl, hm₁, hr⟩ := map_eq_cons_iff.mp hr
  obtain ⟨l₂, r, rfl, hl₂, hr⟩ := map_eq_append_iff.mp hr
  obtain ⟨m₂, l₃, rfl, hm₂, -⟩ := map_eq_cons_iff.mp hr
  have hfires : l₂.map (·.fires) = [some 1, some 1, none, some 1] := by
    rw [show (fun m : QmanMoment => m.fires) = Prod.fst ∘ view from rfl, ← map_map, hl₂]
    rfl
  have hview : ∀ m ∈ l₂, m.fires ≠ some 0 ∧ (m.t.queues 1).avail ≠ 0 := by
    intro m hm
    have hmem : view m ∈ l₂.map view := mem_map_of_mem hm
    rw [hl₂] at hmem
    exact (show ∀ x ∈ [(some 1, (6 : BitVec 32)), (some 1, 5), (none, 4), (some 1, 4)], x.1 ≠ some 0 ∧ x.2 ≠ 0 by decide) _ hmem
  have havail : ∀ m ∈ m₁ :: (l₂ ++ [m₂]), (m.t.queues 1).avail ≠ 0 := by
    intro m hm
    rcases mem_cons.mp hm with rfl | hm
    · rw [show (m.t.queues 1).avail = 6 from congrArg Prod.snd hm₁]
      decide
    rcases mem_append.mp hm with hm | hm
    · exact (hview m hm).2
    · rw [mem_singleton.mp hm, show (m₂.t.queues 1).avail = 3 from congrArg Prod.snd hm₂]
      decide
  have hone := h 0 (fun _ => 8) true _ s (by decide) hs l₁ l₂ l₃ m₁ m₂ 0 1 e (congrArg Prod.fst hm₁) (congrArg Prod.fst hm₂)
    (fun m hm => (hview m hm).1) (by decide) havail
  rw [hfires] at hone
  exact absurd hone (by decide)

end TasNic
