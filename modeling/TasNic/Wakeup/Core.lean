import TasNic.Wakeup.Application

/-!
# A core of the fast path blocks

A core that finds nothing to do for a poll cycle polls once more and then blocks on its eventfd. An
application that puts an entry into its `tx` queue writes to the eventfd if a poll cycle has passed since it
last did so or would have. The core measures its idle time from the start of the loop that last found data; an
entry and its kick may come after that.
-/

namespace TasNic

open Run

def flextcpFlexnicKick (delta now : Nat) (b : Bell) : Bell := if delta = pollCycleOff then b else writeAfter delta now b

structure NotifyBlockstate where
  canBlock : Bool
  secondBar : Bool
  lastActiveTs : Nat
deriving DecidableEq

/-- `notify_canblock`: whether the core may block. -/
def notifyCanblock (delta : Nat) (nbs : NotifyBlockstate) (hadData : Bool) (tsc : Nat) : Bool × NotifyBlockstate :=
  if delta = pollCycleOff then (false, nbs)
  else if hadData then (false, ⟨false, false, tsc⟩)
  else if nbs.secondBar then (true, ⟨false, false, tsc⟩)
  else if nbs.canBlock && delta < cyclesSince tsc nbs.lastActiveTs then (false, { nbs with secondBar := true })
  else (false, { nbs with canBlock := true })

def notifyCanblockReset (nbs : NotifyBlockstate) : NotifyBlockstate := { nbs with canBlock := false, secondBar := false }

/-- Where the core is: at the start of its loop, in `poll_queues` with buffers for
some more entries, at the end of the loop, or blocked. `data` says whether anything was found. -/
inductive CorePc where
  | top
  | polling (bufs : Nat) (data : Bool)
  | polled (data : Bool)
  | blocked
deriving DecidableEq

structure CoreWait where
  now : Nat
  /-- The application is between an enqueue and its kick. -/
  pending : Bool
  /-- `last_ts` of the context's queue for the core, and the eventfd of the core. -/
  bell : Bell
  /-- The number of entries in the `tx` queue. -/
  tx : Nat
  cyc : Nat
  nbs : NotifyBlockstate
  pc : CorePc
deriving DecidableEq

/-- At the start `nbs` is not initialised but for its flags; `last_active_ts` may be later than any sample. -/
def CoreWait.init (now lastActiveTs : BitVec 64) : CoreWait where
  now := now.toNat
  pending := false
  bell := ⟨0, 0⟩
  tx := 0
  cyc := now.toNat
  nbs := ⟨false, false, lastActiveTs.toNat⟩
  pc := .top

inductive CoreWaitOp where
  /-- Time passes, and the counter does not wrap. -/
  | tick (d : Nat)
  /-- `conns_bump` puts an entry into the queue. -/
  | enqueue
  | kick
  /-- `dataplane_loop` samples the clock. In this turn there are `bufs` buffers for
  `poll_queues`, and `other` says whether there is anything to do but for the entries of
  this context. -/
  | loopStart (bufs : Nat) (other : Bool)
  /-- A turn of `poll_queues`. -/
  | fetch
  /-- The end of the loop. -/
  | canblock
  /-- `rte_epoll_wait` returns. -/
  | wake

/-- A turn of `poll_queues`. -/
def CoreWait.fetch (s : CoreWait) (bufs : Nat) (data : Bool) : CoreWait :=
  if bufs = 0 ∨ s.tx = 0 then { s with pc := .polled data }
  else { s with tx := s.tx - 1, pc := .polling (bufs - 1) true }

def coreWaitStep (delta : Nat) (s : CoreWait) : CoreWaitOp → Option CoreWait
  | .tick d => if s.now + d < 2 ^ 64 then some { s with now := s.now + d } else none
  | .enqueue => if s.pending then none else some { s with tx := s.tx + 1, pending := true }
  | .kick => if s.pending then some { s with bell := flextcpFlexnicKick delta s.now s.bell, pending := false } else none
  | .loopStart bufs other => if s.pc = .top then some { s with cyc := s.now, pc := .polling bufs other } else none
  | .fetch => match s.pc with
    | .polling bufs data => some (s.fetch bufs data)
    | _ => none
  | .canblock => match s.pc with
    | .polled data =>
      let r := notifyCanblock delta s.nbs data s.cyc
      some { s with nbs := r.2, pc := if r.1 then .blocked else .top }
    | _ => none
  | .wake =>
    if s.pc = .blocked then some { s with bell := s.bell.clear, nbs := notifyCanblockReset s.nbs, pc := .top } else none

/-- The core is blocked while an entry waits for it, and nothing will wake it up. -/
def CoreWait.Lost (s : CoreWait) : Prop := s.pc = .blocked ∧ 0 < s.tx ∧ s.bell.tokens = 0 ∧ s.pending = false
deriving Decidable

namespace CoreWait

/-- The core will not look at the queue again before it blocks. -/
def Settled (s : CoreWait) : Prop := s.pc = .blocked ∨ s.pc = .polled false ∧ s.nbs.secondBar = true

structure Inv (delta : Nat) (s : CoreWait) : Prop where
  word : s.now < 2 ^ 64
  cyc : s.cyc ≤ s.now
  last : s.bell.last ≤ s.now
  off : delta = pollCycleOff → s.nbs.secondBar = false ∧ s.pc ≠ .blocked
  bufs : ∀ bufs, s.pc = .polling bufs false → 0 < bufs
  /-- From the second bar on, kicks make a token. -/
  armed : s.nbs.secondBar = true ∨ s.pc = .blocked → s.bell.Armed delta s.now
  heard : s.Settled → s.bell.Heard delta s.now s.tx s.pending

/-- When the core finds its idle period over, a poll cycle has passed since the last
kick too, which was not after the sample; and a turn that finds nothing else has a buffer. -/
def Agreed (delta : Nat) (s : CoreWait) : CoreWaitOp → Prop
  | .canblock => s.pc = .polled false → s.nbs.secondBar = false → s.nbs.canBlock = true →
      delta < cyclesSince s.cyc s.nbs.lastActiveTs → s.bell.last + delta < s.cyc
  | .loopStart bufs other => other = false → 0 < bufs
  | _ => True

instance Agreed.dec (delta : Nat) (s : CoreWait) : ∀ op, Decidable (s.Agreed delta op)
  | .canblock | .loopStart .. => inferInstanceAs (Decidable (_ → _))
  | .tick _ | .enqueue | .kick | .fetch | .wake => isTrue trivial

variable {delta : Nat} {s s' : CoreWait}

theorem Settled.armed (hs : s.Settled) (h : s.Inv delta) : s.bell.Armed delta s.now :=
  h.armed (hs.symm.imp And.right id)

theorem Inv.kick (h : s.Inv delta) :
    Inv delta { s with bell := flextcpFlexnicKick delta s.now s.bell, pending := false } := by
  by_cases hoff : delta = pollCycleOff
  · rw [flextcpFlexnicKick, if_pos hoff]
    refine { h with heard := fun hs => ?_ }
    obtain ⟨hbar, hpc⟩ := h.off hoff
    rcases hs with hb | ⟨-, hb⟩
    · exact absurd hb hpc
    · exact absurd (hbar.symm.trans hb) Bool.false_ne_true
  · rw [flextcpFlexnicKick, if_neg hoff, writeAfter_eq h.last h.word]
    exact ⟨h.word, h.cyc, Nat.le_refl _, h.off, h.bufs, fun hb => .inl (h.armed hb).ring, fun hs => (h.heard hs).ring _⟩

theorem Inv.fetch (h : s.Inv delta) {bufs : Nat} {data : Bool} (hpc : s.pc = .polling bufs data) :
    (s.fetch bufs data).Inv delta := by
  rw [CoreWait.fetch]
  split_ifs with h0
  · refine ⟨h.word, h.cyc, h.last, fun ho => ⟨(h.off ho).1, nofun⟩, nofun, fun hbar => h.armed (.inl (hbar.resolve_right nofun)), ?_⟩
    rintro (hbl | ⟨hd, -⟩)
    · cases hbl
    · -- the queue was empty
      cases hd
      have htx : s.tx = 0 := h0.resolve_left (Nat.ne_of_gt (h.bufs bufs hpc))
      simp only [htx]
      exact Bell.heard_empty
  · exact ⟨h.word, h.cyc, h.last, fun ho => ⟨(h.off ho).1, nofun⟩, by simp, fun hbar => h.armed (.inl (hbar.resolve_right nofun)),
      by simp [Settled]⟩

/-- What a call of `notify_canblock` can do. -/
theorem canblock_cases (delta : Nat) (nbs : NotifyBlockstate) (data : Bool) (tsc : Nat) :
    (delta = pollCycleOff ∧ notifyCanblock delta nbs data tsc = (false, nbs)) ∨ delta ≠ pollCycleOff ∧
      (notifyCanblock delta nbs data tsc = (false, ⟨false, false, tsc⟩) ∨
        (data = false ∧ nbs.secondBar = true ∧ notifyCanblock delta nbs data tsc = (true, ⟨false, false, tsc⟩)) ∨
        (data = false ∧ nbs.secondBar = false ∧ nbs.canBlock = true ∧ delta < cyclesSince tsc nbs.lastActiveTs ∧
          notifyCanblock delta nbs data tsc = (false, { nbs with secondBar := true })) ∨
        (nbs.secondBar = false ∧ notifyCanblock delta nbs data tsc = (false, { nbs with canBlock := true }))) := by
  rw [notifyCanblock]
  split_ifs with hoff hdata hbar hidle
  · exact .inl ⟨hoff, rfl⟩
  · exact .inr ⟨hoff, .inl rfl⟩
  · exact .inr ⟨hoff, .inr (.inl ⟨Bool.eq_false_iff.mpr hdata, hbar, rfl⟩)⟩
  · rw [Bool.and_eq_true, decide_eq_true_eq] at hidle
    exact .inr ⟨hoff, .inr (.inr (.inl ⟨Bool.eq_false_iff.mpr hdata, Bool.eq_false_iff.mpr hbar, hidle.1, hidle.2, rfl⟩))⟩
  · exact .inr ⟨hoff, .inr (.inr (.inr ⟨Bool.eq_false_iff.mpr hbar, rfl⟩))⟩

theorem Inv.canblock (h : s.Inv delta) {data : Bool} (hpc : s.pc = .polled data) (hf : s.Agreed delta .canblock) :
    Inv delta { s with
      nbs := (notifyCanblock delta s.nbs data s.cyc).2
      pc := if (notifyCanblock delta s.nbs data s.cyc).1 then .blocked else .top } := by
  rcases canblock_cases delta s.nbs data s.cyc with
    ⟨hoff, e⟩ | ⟨hoff, e | ⟨rfl, hbar, e⟩ | ⟨rfl, hbar, hcan, hidle, e⟩ | ⟨hbar, e⟩⟩
  · rw [e, if_neg Bool.false_ne_true]
    exact ⟨h.word, h.cyc, h.last, fun ho => ⟨(h.off ho).1, nofun⟩, nofun, by simp [(h.off hoff).1], by simp [Settled]⟩
  · rw [e, if_neg Bool.false_ne_true]
    exact ⟨h.word, h.cyc, h.last, fun _ => ⟨rfl, nofun⟩, nofun, by simp, by simp [Settled]⟩
  · -- the second poll has found nothing
    rw [e, if_pos rfl]
    exact ⟨h.word, h.cyc, h.last, fun ho => absurd ho hoff, nofun, fun _ => h.armed (.inl hbar), fun _ => h.heard (.inr ⟨hpc, hbar⟩)⟩
  · rw [e, if_neg Bool.false_ne_true]
    have hkick := hf hpc hbar hcan hidle
    have hcyc := h.cyc
    have hlt : delta < s.now - s.bell.last := by omega
    exact ⟨h.word, h.cyc, h.last, fun ho => absurd ho hoff, nofun, fun _ => .inr hlt, by simp [Settled]⟩
  · rw [e, if_neg Bool.false_ne_true]
    exact ⟨h.word, h.cyc, h.last, fun ho => absurd ho hoff, nofun, by simp [hbar], by simp [Settled]⟩

/-- Every step keeps it. -/
theorem Inv.step {op : CoreWaitOp} (h : s.Inv delta) (hf : s.Agreed delta op) (hs : coreWaitStep delta s op = some s') :
    s'.Inv delta := by
  cases op with
  | tick d =>
    rw [coreWaitStep] at hs
    split_ifs at hs with hword
    cases hs
    have hle : s.now ≤ s.now + d := Nat.le_add_right ..
    exact ⟨hword, Nat.le_trans h.cyc hle, Nat.le_trans h.last hle, h.off, h.bufs, fun hb => (h.armed hb).later hle,
      fun hset => (h.heard hset).later hle⟩
  | enqueue =>
    rw [coreWaitStep] at hs
    split_ifs at hs with hp
    cases hs
    exact { h with heard := fun hset => (Settled.armed (s := s) hset h).heard }
  | kick =>
    rw [coreWaitStep] at hs
    split_ifs at hs with hp
    cases hs
    exact h.kick
  | loopStart bufs other =>
    rw [coreWaitStep] at hs
    split_ifs at hs with hpc
    cases hs
    refine ⟨h.word, Nat.le_refl _, h.last, fun ho => ⟨(h.off ho).1, nofun⟩, ?_, fun hb => h.armed (.inl (hb.resolve_right nofun)),
      by simp [Settled]⟩
    intro b hb
    cases hb
    exact hf rfl
  | fetch =>
    rw [coreWaitStep] at hs
    split at hs <;> cases hs
    rename_i hpc
    exact h.fetch hpc
  | canblock =>
    rw [coreWaitStep] at hs
    split at hs <;> cases hs
    rename_i hpc
    exact h.canblock hpc hf
  | wake =>
    rw [coreWaitStep] at hs
    split_ifs at hs
    cases hs
    exact ⟨h.word, h.cyc, h.last, fun _ => ⟨rfl, nofun⟩, nofun, by simp [notifyCanblockReset], by simp [Settled]⟩

theorem init_inv (delta : Nat) (now lastActiveTs : BitVec 64) : (init now lastActiveTs).Inv delta :=
  ⟨now.isLt, Nat.le_refl _, Nat.zero_le _, fun _ => ⟨rfl, nofun⟩, nofun, by simp [init], by simp [init, Settled]⟩

theorem Inv.not_lost (h : s.Inv delta) : ¬ s.Lost := by
  rintro ⟨hpc, htx, ht, hp⟩
  have := (h.heard (.inl hpc)).not_lost htx ht
  rw [hp] at this
  cases this

end CoreWait

theorem core_not_lost {delta : Nat} {now lastActiveTs : BitVec 64} {ops : List CoreWaitOp}
    (hops : Run.All (coreWaitStep delta) (CoreWait.Agreed delta) (.init now lastActiveTs) ops) {s : CoreWait}
    (hs : Run.exec (coreWaitStep delta) (.init now lastActiveTs) ops = some s) : ¬ s.Lost :=
  (exec_inv (fun _ _ _ h hf hs => h.step hf hs) (CoreWait.init_inv delta now lastActiveTs) hops hs).not_lost

/-- The core blocks, is woken up by an entry, blocks again a poll cycle after the last
kick, and is woken up again. -/
theorem core_not_lost_woken : ∃ s, Run.exec (coreWaitStep 10) (.init 100 0)
    [.loopStart 8 false, .fetch, .canblock, .loopStart 8 false, .fetch, .canblock, .loopStart 8 false, .fetch, .canblock,
      .enqueue, .kick, .wake, .loopStart 8 false, .fetch, .fetch, .canblock, .loopStart 8 false, .fetch, .canblock, .tick 11,
      .loopStart 8 false, .fetch, .canblock, .loopStart 8 false, .fetch, .canblock, .enqueue, .kick] = some s ∧ ¬ s.Lost := by
  exact Run.exists_exec (by decide +kernel) fun s hs => core_not_lost (by decide +kernel) hs

/-- The core is woken up, and starts a loop. Eight cycles later there is a second entry
and a kick, and the core finds both. It blocks a poll cycle after the start of that
loop, when the application still takes it to be awake. -/
theorem core_lost_stale_sample :
    ¬ ∀ (delta : Nat) (now lastActiveTs : BitVec 64) (ops : List CoreWaitOp) (s : CoreWait),
      Run.exec (coreWaitStep delta) (.init now lastActiveTs) ops = some s → ¬ s.Lost := by
  intro h
  exact Run.not_forall_exec (P := fun s => ¬ CoreWait.Lost s) (by decide +kernel)
    (h 10 100 0 [.loopStart 8 false, .fetch, .canblock, .loopStart 8 false, .fetch, .canblock, .loopStart 8 false, .fetch,
      .canblock, .enqueue, .kick, .wake, .loopStart 8 false, .tick 8, .enqueue, .kick, .fetch, .fetch, .fetch, .canblock,
      .loopStart 8 false, .fetch, .canblock, .tick 3, .loopStart 8 false, .fetch, .canblock, .loopStart 8 false, .fetch,
      .canblock, .enqueue, .kick])

end TasNic
