import TasNic.Lib.Bell
import TasNic.Lib.Run
import Mathlib.Algebra.Order.Ring.Int
import Mathlib.Tactic.SplitIfs

/-!
# An application goes to sleep

An application that finds nothing to do for a while sleeps on the eventfd of its context. There is no flag
that says so: `flextcp_context_canwait` lets it sleep when a grace period has passed since its last event, and
then one more poll finds nothing; and `notify_appctx` writes to the eventfd when a grace period has passed since
the last notification, by the clock sample from the start of its loop. Times are cycle counts below `2 ^ 64`, which
are subtracted as `uint64_t`. Stamps never run backwards (`Stamps`), so that no difference wraps.
-/

namespace TasNic

open Run

/-! ## Notifications -/

/-- `UINT64_MAX`, the poll cycle that disables blocking. -/
def pollCycleOff : Nat := 0xffffffffffffffff

/-- The difference of two cycle counts, which are of type `uint64_t`. -/
def cyclesSince (now t : Nat) : Nat := (now + 2 ^ 64 - t) % 2 ^ 64

theorem cyclesSince_of_le {now t : Nat} (h : t ≤ now) (hnow : now < 2 ^ 64) : cyclesSince now t = now - t := by
  unfold cyclesSince
  omega

/-- A write to the eventfd, unless the last one is not longer ago than `delta`. -/
def writeAfter (delta stamp : Nat) (b : Bell) : Bell :=
  ⟨stamp, if delta < cyclesSince stamp b.last then b.tokens + 1 else b.tokens⟩

theorem writeAfter_eq {delta stamp : Nat} {b : Bell} (h : b.last ≤ stamp) (hstamp : stamp < 2 ^ 64) :
    writeAfter delta stamp b = b.ring delta stamp := by
  rw [writeAfter, cyclesSince_of_le h hstamp, Bell.ring]

/-- `notify_communicator`, for an eventfd. -/
def notifyCommunicator (delta tsc : Nat) (b : Bell) : Bell :=
  if delta = pollCycleOff then b else writeAfter delta tsc b

/-! ## The context of an application -/

/-- The flags of a context, and `last_inev_ts`. -/
structure WaitCtx where
  pollCalled : Bool
  pollEvents : Bool
  wantwait : Bool
  lastwait : Bool
  lastInevTs : Nat
deriving DecidableEq

/-- `flextcp_context_canwait`: whether it returns 0. -/
def flextcpContextCanwait (delta now : Nat) (x : WaitCtx) : Bool × WaitCtx :=
  if delta = pollCycleOff then (false, x)
  else if x.pollEvents then (false, { x with pollEvents := false, wantwait := false, lastwait := false })
  else if x.wantwait then
    if delta < cyclesSince now x.lastInevTs then (false, { x with pollCalled := false, wantwait := false, lastwait := true })
    else (false, x)
  else if x.lastwait then (x.pollCalled, x)
  else if x.pollCalled then (false, { x with lastInevTs := now, wantwait := true })
  else (false, x)

/-- The flags that `flextcp_context_waitclear` clears. -/
def flextcpContextWaitclear (x : WaitCtx) : WaitCtx :=
  { x with wantwait := false, lastwait := false, pollCalled := false }

/-- Where the application is: between calls, in `fastpath_poll_vec` with room for
some more events, allowed to sleep, or asleep. -/
inductive AppPc where
  | ready
  | polling (slots : Nat) (found : Bool)
  | granted
  | asleep
deriving DecidableEq

structure AppWait where
  now : Nat
  /-- The clock sample of the core's loop. -/
  tsc : Nat
  /-- The core is between an enqueue and its notification. -/
  pending : Bool
  /-- `last_ts` of the context, and its eventfd. -/
  bell : Bell
  /-- The entries in the `rx` queue of the context, each with the number of events it
  is turned into. -/
  rx : List Nat
  ctx : WaitCtx
  pc : AppPc
deriving DecidableEq

namespace AppWait

def init (now : BitVec 64) : AppWait where
  now := now.toNat
  tsc := now.toNat
  pending := false
  bell := ⟨0, 0⟩
  rx := []
  ctx := ⟨false, false, false, false, 0⟩
  pc := .ready

/-- The start of `flextcp_context_poll`. `kernel` is what `kernel_poll` finds: the
number of events, and whether it runs out of room. -/
def pollCall (s : AppWait) (num : Nat) : Option (Nat × Bool) → AppWait
  | none => { s with ctx.pollCalled := true, pc := .polling num false }
  | some (used, ranOut) =>
    { s with
      ctx.pollCalled := true
      ctx.pollEvents := true
      pc := if ranOut then .ready else .polling (num - used) false }

/-- The end of `fastpath_poll_vec`. -/
def pollEnd (s : AppWait) (found : Bool) : AppWait :=
  { s with ctx.pollEvents := s.ctx.pollEvents || found, pc := .ready }

/-- A turn of `fastpath_poll_vec`, which takes an entry if there is room for its
events. -/
def pollTurn (s : AppWait) (slots : Nat) (found : Bool) : AppWait :=
  if slots = 0 then s.pollEnd found
  else match s.rx with
    | [] => s.pollEnd found
    | evs :: rx => if slots < evs then s.pollEnd true else { s with rx := rx, pc := .polling (slots - evs) true }

end AppWait

inductive AppWaitOp where
  /-- Time passes, and the counter does not wrap. -/
  | tick (d : Nat)
  /-- `dataplane_loop` starts over. -/
  | loopStart
  /-- An entry is put into the queue. -/
  | enqueue (evs : Nat)
  | notify
  | poll (num : Nat) (kernel : Option (Nat × Bool))
  | pollTurn
  | canwait
  | sleep
  /-- The wait is over, and `flextcp_context_waitclear` is called. -/
  | wake

def appWaitStep (delta : Nat) (s : AppWait) : AppWaitOp → Option AppWait
  | .tick d => if s.now + d < 2 ^ 64 then some { s with now := s.now + d } else none
  | .loopStart => if s.pending then none else some { s with tsc := s.now }
  | .enqueue evs => some { s with rx := s.rx ++ [evs], pending := true }
  | .notify =>
    if s.pending then some { s with bell := notifyCommunicator delta s.tsc s.bell, pending := false } else none
  | .poll num kernel => if s.pc = .ready then some (s.pollCall num kernel) else none
  | .pollTurn => match s.pc with
    | .polling slots found => some (s.pollTurn slots found)
    | _ => none
  | .canwait =>
    if s.pc = .ready then
      let r := flextcpContextCanwait delta s.now s.ctx
      some { s with ctx := r.2, pc := if r.1 then .granted else .ready }
    else none
  | .sleep => if s.pc = .granted then some { s with pc := .asleep } else none
  | .wake =>
    if s.pc = .asleep then
      some { s with bell := s.bell.clear, ctx := flextcpContextWaitclear s.ctx, pc := .ready }
    else none

/-- The application sleeps while an entry waits for it, and nothing will wake it up. -/
def AppWait.Lost (s : AppWait) : Prop := s.pc = .asleep ∧ s.rx ≠ [] ∧ s.bell.tokens = 0 ∧ s.pending = false
deriving Decidable

/-! ## What holds in every state -/

namespace AppWait

/-- No event was found since the last call of `flextcp_context_canwait`. -/
def Calm (s : AppWait) : Prop := s.ctx.pollEvents = false ∧ ∀ slots, s.pc ≠ .polling slots true

/-- The application will not look at the queue again before it sleeps. -/
def Settled (s : AppWait) : Prop :=
  s.pc = .granted ∨ s.pc = .asleep ∨
    s.pc = .ready ∧ s.ctx.lastwait = true ∧ s.ctx.pollCalled = true ∧ s.ctx.pollEvents = false

/-- The stamps were taken one after the other. -/
structure Stamps (now sample lastTs lastInevTs : Nat) : Prop where
  word : now < 2 ^ 64
  tsc : sample ≤ now
  last : lastTs ≤ sample
  inev : lastInevTs ≤ now

structure Inv (delta : Nat) (s : AppWait) : Prop where
  stamps : Stamps s.now s.tsc s.bell.last s.ctx.lastInevTs
  off : delta = pollCycleOff → s.ctx.lastwait = false
  /-- The grace period is over. -/
  grace : s.ctx.lastwait = true → s.ctx.lastInevTs + delta < s.now
  allowed : s.pc = .granted ∨ s.pc = .asleep → s.ctx.lastwait = true ∧ s.ctx.pollEvents = false
  slots : ∀ slots, s.pc = .polling slots false → s.ctx.pollEvents = false → 0 < slots
  /-- All entries were taken before the grace period began. -/
  quiet : s.ctx.wantwait = true ∨ s.ctx.lastwait = true → s.Calm → s.rx = [] →
    s.bell.last ≤ s.ctx.lastInevTs ∧ (s.pending = true → s.tsc ≤ s.ctx.lastInevTs)
  heard : s.Settled → s.bell.Heard delta s.tsc s.rx.length s.pending

/-- The clock sample is recent enough to decide on a notification, and polls have
room for an event. -/
def Fresh (delta : Nat) (s : AppWait) : AppWaitOp → Prop
  | .enqueue _ => s.now - s.bell.last ≤ delta ∨ delta < s.tsc - s.bell.last
  | .poll num _ => 0 < num
  | _ => True

instance Fresh.dec (delta : Nat) (s : AppWait) (op) : Decidable (s.Fresh delta op) := by
  cases op <;> dsimp only [Fresh] <;> infer_instance

variable {delta : Nat} {s s' : AppWait}

theorem Settled.lastwait (h : s.Settled) (hi : s.Inv delta) : s.ctx.lastwait = true ∧ s.ctx.pollEvents = false := by
  rcases h with h | h | ⟨-, h, -, he⟩
  · exact hi.allowed (.inl h)
  · exact hi.allowed (.inr h)
  · exact ⟨h, he⟩

theorem Settled.calm (h : s.Settled) (hi : s.Inv delta) : s.Calm := by
  refine ⟨(h.lastwait hi).2, fun slots hpc => ?_⟩
  rcases h with h | h | ⟨h, -⟩ <;> rw [h] at hpc <;> cases hpc

variable (h : s.Inv delta)

include h

/-- A notification of an application that is about to sleep makes a token: the last
one was before the grace period. -/
theorem Inv.armed (hs : s.Settled) (hf : s.now - s.bell.last ≤ delta ∨ delta < s.tsc - s.bell.last) :
    s.bell.Armed delta s.tsc := by
  by_cases hrx : s.rx = []
  · obtain ⟨hlast, -⟩ := h.quiet (.inr (hs.lastwait h).1) (hs.calm h) hrx
    have hgrace := h.grace (hs.lastwait h).1
    exact .inr (hf.resolve_left (by omega))
  · exact (h.heard hs).armed (List.length_pos_iff.mpr hrx)

theorem Inv.enqueue {evs : Nat} (hf : s.Fresh delta (.enqueue evs)) :
    Inv delta { s with rx := s.rx ++ [evs], pending := true } :=
  { h with quiet := fun _ _ hrx => by simp at hrx, heard := fun hs => (h.armed hs hf).heard }

theorem Inv.notify (hp : s.pending = true) :
    Inv delta { s with bell := notifyCommunicator delta s.tsc s.bell, pending := false } := by
  by_cases hoff : delta = pollCycleOff
  · rw [notifyCommunicator, if_pos hoff]
    refine { h with quiet := fun hw hc hrx => ⟨(h.quiet hw hc hrx).1, nofun⟩, heard := fun hs => ?_ }
    have hl := (Settled.lastwait (s := s) hs h).1
    rw [h.off hoff] at hl
    cases hl
  · rw [notifyCommunicator, if_neg hoff, writeAfter_eq h.stamps.last (Nat.lt_of_le_of_lt h.stamps.tsc h.stamps.word)]
    exact { h with
      stamps := { h.stamps with last := Nat.le_refl _ }
      quiet := fun hw hc hrx => ⟨(h.quiet hw hc hrx).2 hp, nofun⟩
      heard := fun hs => (h.heard hs).ring _ }

theorem Inv.pollCall (hpc : s.pc = .ready) {num : Nat} (hnum : 0 < num) (kernel : Option (Nat × Bool)) :
    (s.pollCall num kernel).Inv delta := by
  cases kernel with
  | none =>
    refine ⟨h.stamps, h.off, h.grace, ?_, ?_, fun hw hc hrx => h.quiet hw ⟨hc.1, by simp [hpc]⟩ hrx, ?_⟩
    · simp [AppWait.pollCall]
    · rintro slots he -
      cases he
      exact hnum
    · simp [AppWait.pollCall, Settled]
  | some k =>
    obtain ⟨used, ranOut⟩ := k
    refine ⟨h.stamps, h.off, h.grace, ?_, nofun, fun _ hc => absurd hc.1 (by simp [AppWait.pollCall]), ?_⟩
    · cases ranOut <;> simp [AppWait.pollCall]
    · cases ranOut <;> simp [AppWait.pollCall, Settled]

theorem Inv.pollEnd_found {found : Bool} (hf : (s.ctx.pollEvents || found) = true) :
    (s.pollEnd found).Inv delta := by
  refine ⟨h.stamps, h.off, h.grace, ?_, nofun, fun _ hc => absurd hc.1 ?_, ?_⟩
  · simp [AppWait.pollEnd]
  · simp [AppWait.pollEnd, hf]
  · simp [AppWait.pollEnd, Settled, hf]

theorem Inv.pollTurn {slots : Nat} {found : Bool} (hpc : s.pc = .polling slots found) :
    (s.pollTurn slots found).Inv delta := by
  rw [AppWait.pollTurn]
  split_ifs with h0
  · refine h.pollEnd_found ((Bool.not_eq_false _).mp fun hne => ?_)
    rw [Bool.or_eq_false_iff] at hne
    have := h.slots slots (hne.2 ▸ hpc) hne.1
    omega
  · cases hrx : s.rx with
    | nil =>
      -- the queue is empty at the end of this poll
      by_cases hf : (s.ctx.pollEvents || found) = true
      · exact h.pollEnd_found hf
      · obtain ⟨he, rfl⟩ : s.ctx.pollEvents = false ∧ found = false := by simpa using hf
        refine ⟨h.stamps, h.off, h.grace, by simp [AppWait.pollEnd], nofun, fun hw _ _ => ?_, fun _ => ?_⟩
        · exact h.quiet hw ⟨he, by simp [hpc]⟩ hrx
        · simp only [AppWait.pollEnd, hrx]
          exact Bell.heard_empty
    | cons evs rx =>
      dsimp only
      split_ifs with hlt
      · exact h.pollEnd_found (Bool.or_true _)
      · refine ⟨h.stamps, h.off, h.grace, by simp, by simp, fun _ hc => absurd rfl (hc.2 _), ?_⟩
        simp [Settled]

omit h in
/-- What a call of `flextcp_context_canwait` can do. -/
theorem canwait_cases (delta now : Nat) (x : WaitCtx) :
    flextcpContextCanwait delta now x = (false, x) ∨
    flextcpContextCanwait delta now x = (false, { x with pollEvents := false, wantwait := false, lastwait := false }) ∨
    (delta ≠ pollCycleOff ∧ x.pollEvents = false ∧ x.wantwait = true ∧ delta < cyclesSince now x.lastInevTs ∧
      flextcpContextCanwait delta now x = (false, { x with pollCalled := false, wantwait := false, lastwait := true })) ∨
    (x.pollEvents = false ∧ x.lastwait = true ∧ x.pollCalled = true ∧ flextcpContextCanwait delta now x = (true, x)) ∨
    (x.pollEvents = false ∧ x.lastwait = false ∧
      flextcpContextCanwait delta now x = (false, { x with lastInevTs := now, wantwait := true })) := by
  rw [flextcpContextCanwait]
  split_ifs with hoff hev hwant hgrace hlast hcalled
  · exact .inl rfl
  · exact .inr (.inl rfl)
  · exact .inr (.inr (.inl ⟨hoff, by simpa using hev, hwant, hgrace, rfl⟩))
  · exact .inl rfl
  · cases hc : x.pollCalled with
    | true => exact .inr (.inr (.inr (.inl ⟨by simpa using hev, hlast, rfl, rfl⟩)))
    | false => exact .inl rfl
  · exact .inr (.inr (.inr (.inr ⟨by simpa using hev, by simpa using hlast, rfl⟩)))
  · exact .inl rfl

theorem Inv.canwait (hpc : s.pc = .ready) :
    Inv delta { s with
      ctx := (flextcpContextCanwait delta s.now s.ctx).2
      pc := if (flextcpContextCanwait delta s.now s.ctx).1 then .granted else .ready } := by
  have hcalm : s.ctx.pollEvents = false → s.Calm := fun he => ⟨he, by simp [hpc]⟩
  rcases canwait_cases delta s.now s.ctx with e | e | ⟨hoff, hev, hwant, hlt, e⟩ | ⟨hev, hlast, hcalled, e⟩ | ⟨hev, hlast, e⟩
  · rw [e, if_neg Bool.false_ne_true, ← hpc]
    exact h
  · rw [e, if_neg Bool.false_ne_true]
    exact ⟨h.stamps, fun _ => rfl, nofun, by simp, nofun, by simp, by simp [Settled]⟩
  · rw [e, if_neg Bool.false_ne_true]
    refine ⟨h.stamps, fun ho => absurd ho hoff, fun _ => ?_, by simp, nofun, fun _ _ hrx => ?_, by simp [Settled]⟩
    · show s.ctx.lastInevTs + delta < s.now
      rw [cyclesSince_of_le h.stamps.inev h.stamps.word] at hlt
      omega
    · exact h.quiet (.inl hwant) (hcalm hev) hrx
  · rw [e, if_pos rfl]
    exact ⟨h.stamps, h.off, h.grace, fun _ => ⟨hlast, hev⟩, nofun, fun hw _ hrx => h.quiet hw (hcalm hev) hrx,
      fun _ => h.heard (.inr (.inr ⟨hpc, hlast, hcalled, hev⟩))⟩
  · rw [e, if_neg Bool.false_ne_true]
    exact ⟨{ h.stamps with inev := Nat.le_refl _ }, h.off, by simp [hlast], by simp, nofun,
      fun _ _ _ => ⟨Nat.le_trans h.stamps.last h.stamps.tsc, fun _ => h.stamps.tsc⟩, by simp [Settled, hlast]⟩

theorem Inv.wake :
    Inv delta { s with bell := s.bell.clear, ctx := flextcpContextWaitclear s.ctx, pc := .ready } :=
  ⟨h.stamps, fun _ => rfl, nofun, by simp, nofun, by simp [flextcpContextWaitclear],
    by simp [flextcpContextWaitclear, Settled]⟩

/-- Every step keeps it. -/
theorem Inv.step {op : AppWaitOp} (hf : s.Fresh delta op) (hs : appWaitStep delta s op = some s') :
    s'.Inv delta := by
  cases op with
  | tick d =>
    rw [appWaitStep] at hs
    split_ifs at hs with hword
    cases hs
    have hle : s.now ≤ s.now + d := Nat.le_add_right ..
    exact { h with
      stamps := ⟨hword, Nat.le_trans h.stamps.tsc hle, h.stamps.last, Nat.le_trans h.stamps.inev hle⟩
      grace := fun hl => Nat.lt_of_lt_of_le (h.grace hl) hle }
  | loopStart =>
    rw [appWaitStep] at hs
    split_ifs at hs with hp
    cases hs
    exact { h with
      stamps := { h.stamps with tsc := Nat.le_refl _, last := Nat.le_trans h.stamps.last h.stamps.tsc }
      quiet := fun hw hc hrx => ⟨(h.quiet hw hc hrx).1, fun hp' => absurd hp' hp⟩
      heard := fun hset => (h.heard hset).later h.stamps.tsc }
  | enqueue evs =>
    cases hs
    exact h.enqueue hf
  | notify =>
    rw [appWaitStep] at hs
    split_ifs at hs with hp
    cases hs
    exact h.notify hp
  | poll num kernel =>
    rw [appWaitStep] at hs
    split_ifs at hs with hpc
    cases hs
    exact h.pollCall hpc hf kernel
  | pollTurn =>
    rw [appWaitStep] at hs
    split at hs <;> cases hs
    rename_i hpc
    exact h.pollTurn hpc
  | canwait =>
    rw [appWaitStep] at hs
    split_ifs at hs with hpc
    cases hs
    exact h.canwait hpc
  | sleep =>
    rw [appWaitStep] at hs
    split_ifs at hs with hpc
    cases hs
    have hl := h.allowed (.inl hpc)
    exact ⟨h.stamps, h.off, h.grace, fun _ => hl, nofun, fun hw _ hrx => h.quiet hw ⟨hl.2, by simp [hpc]⟩ hrx,
      fun _ => h.heard (.inl hpc)⟩
  | wake =>
    rw [appWaitStep] at hs
    split_ifs at hs
    cases hs
    exact h.wake

omit h in
theorem init_inv (delta : Nat) (now : BitVec 64) : (init now).Inv delta :=
  ⟨⟨now.isLt, Nat.le_refl _, Nat.zero_le _, Nat.zero_le _⟩, fun _ => rfl, nofun, by simp [init], nofun,
    by simp [init], by simp [init, Settled]⟩

theorem Inv.not_lost : ¬ s.Lost := by
  rintro ⟨hpc, hrx, ht, hp⟩
  have := (h.heard (.inr (.inl hpc))).not_lost (List.length_pos_iff.mpr hrx) ht
  rw [hp] at this
  cases this

end AppWait

theorem app_not_lost {delta : Nat} {now : BitVec 64} {ops : List AppWaitOp}
    (hops : Run.All (appWaitStep delta) (AppWait.Fresh delta) (.init now) ops) {s : AppWait}
    (hs : Run.exec (appWaitStep delta) (.init now) ops = some s) : ¬ s.Lost :=
  (exec_inv (fun _ _ _ h hf hs => h.step hf hs) (AppWait.init_inv delta now) hops hs).not_lost

/-- The application takes an entry, sleeps until the next one comes, and is woken up. -/
theorem app_not_lost_woken : ∃ s, Run.exec (appWaitStep 10) (.init 100)
    [.enqueue 1, .notify, .loopStart, .poll 4 none, .pollTurn, .pollTurn, .canwait, .canwait, .tick 11, .canwait,
      .poll 4 none, .pollTurn, .canwait, .sleep, .wake, .poll 4 none, .pollTurn, .canwait, .tick 11, .canwait,
      .poll 4 none, .pollTurn, .canwait, .sleep, .loopStart, .enqueue 1, .notify] = some s ∧ ¬ s.Lost := by
  exact Run.exists_exec (by decide +kernel) fun s hs => app_not_lost (by decide +kernel) hs

/-- The core starts a loop, and the application falls asleep before an entry of that
loop comes. The sample is not past the grace period, so there is no token. -/
theorem app_lost_stale_sample :
    ¬ ∀ (delta : Nat) (now : BitVec 64) (ops : List AppWaitOp) (s : AppWait),
      Run.exec (appWaitStep delta) (.init now) ops = some s → ¬ s.Lost := by
  intro h
  exact Run.not_forall_exec (P := fun s => ¬ AppWait.Lost s) (by decide +kernel)
    (h 10 100 [.enqueue 1, .notify, .loopStart, .poll 4 none, .pollTurn, .pollTurn, .canwait, .canwait, .tick 11, .canwait,
      .poll 4 none, .pollTurn, .canwait, .sleep, .wake, .poll 4 none, .pollTurn, .canwait, .tick 11, .canwait,
      .poll 4 none, .pollTurn, .canwait, .sleep, .enqueue 1, .notify])

end TasNic
