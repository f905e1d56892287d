import TasNic.Slow.TcpSteps
import TasNic.Utils.TimeoutSet

/-!
# The timer of a connection

A connection has its timer armed while it waits for the answer to its SYN, and after it was closed until
its state is freed. The timeout that `conn_timeout_arm` draws is at most one and a half times that of the
connection. The bound on the doublings keeps it in the range of the timeout manager.

The calls of the timeout manager that a run has made are in `Slow.timerCalls`. Made at any times, with any
random numbers, and with polls between them, none fails, and the lists of the manager then hold the timers
that are armed (`TimerLog.keeps`).
-/

namespace TasNic

open Function Run TimeoutManager

variable {cfg : SlowConfig} {s : Slow} {peers : Nat → Option Peer} {c : Nat} {x : Connection} {p : Peer}

/-! ## The timeout manager -/

/-- What happens to the timeout manager: a poll starts, or there is a call for the timer of a connection, at some
time and with some random number. -/
inductive ManagerOp where
  | poll (ts : BitVec 32)
  | call (k : TimerCall) (ts rnd : BitVec 32)

def ManagerOp.timerCall : ManagerOp → Option TimerCall
  | poll _ => none
  | call k _ _ => some k

/-- A timer that expires is taken by the poll. -/
def managerStep (m : TimeoutManager) : ManagerOp → Option TimeoutManager
  | .poll ts => moveDueTimeouts (ts &&& timeoutMask) (addresses + 1) m
  | .call (.arm c t timeout) ts rnd => m.utilTimeoutArmTs c (t.us timeout rnd) t.code ts (addresses + 1)
  | .call (.disarm c) _ _ => m.utilTimeoutDisarm c
  | .call (.expire c) _ _ => some (m.pollPop c)

/-- The manager after these operations, the newest first. -/
def managerAfter (timeouts : Nat → Timeout) : List ManagerOp → Option TimeoutManager
  | [] => some (utilTimeoutInit timeouts)
  | op :: ops => (managerAfter timeouts ops).bind (managerStep · op)

/-- A timer that expires is the first that is due. -/
def ExpireInOrder (timeouts : Nat → Timeout) : List ManagerOp → Prop
  | [] => True
  | .call (.expire c) _ _ :: ops =>
    (∀ m, managerAfter timeouts ops = some m → m.dueFirst = some c) ∧ ExpireInOrder timeouts ops
  | _ :: ops => ExpireInOrder timeouts ops

theorem TimerLog.lt_addresses {calls : List TimerCall} {timers : Nat → Option TimerType} (h : TimerLog cfg calls timers)
    (hc : timers c ≠ none) : c < addresses := by
  induction h with
  | nil => exact absurd rfl hc
  | @arm _ _ d _ _ _ _ hb _ ih =>
    by_cases e : c = d
    · exact e ▸ hb
    · exact ih (by rwa [update_of_ne e] at hc)
  | @clear _ _ d _ _ _ _ ih =>
    by_cases e : c = d
    · rw [e, update_self] at hc
      exact absurd rfl hc
    · exact ih (by rwa [update_of_ne e] at hc)

theorem TimerLog.fits {calls : List TimerCall} {timers : Nat → Option TimerType} (h : TimerLog cfg calls timers) :
    Keeps.Fits (Option.map TimerType.code ∘ timers) (addresses + 1) := fun _ hl hne =>
  Chains.length_lt_of_below hl fun c hc => h.lt_addresses fun e => hne c hc (by simp [e])

/-- No call fails, and the lists of the manager hold the timers that are armed. -/
theorem TimerLog.keeps {calls : List TimerCall} {timers : Nat → Option TimerType} (h : TimerLog cfg calls timers)
    (hok : cfg.HandshakeOk) {timeouts : Nat → Timeout} {ops : List ManagerOp}
    (hops : ops.filterMap ManagerOp.timerCall = calls) (hdue : ExpireInOrder timeouts ops) :
    ∃ m, managerAfter timeouts ops = some m ∧ m.Keeps (Option.map TimerType.code ∘ timers) := by
  induction ops generalizing calls timers with
  | nil =>
    subst hops
    cases h
    exact ⟨_, rfl, .init timeouts⟩
  | cons op ops ih =>
    cases op with
    | poll ts =>
      obtain ⟨m, hm, hk⟩ := ih h hops hdue
      obtain ⟨m', hm', hk'⟩ := hk.moveDueTimeouts h.fits (ts &&& timeoutMask)
      exact ⟨m', by rw [managerAfter, hm]; exact hm', hk'⟩
    | call k ts rnd =>
      obtain rfl : k :: ops.filterMap ManagerOp.timerCall = calls := hops
      cases h with
      | @arm _ timers c t timeout h hc hb hr =>
        obtain ⟨m, hm, hk⟩ := ih h rfl hdue
        obtain ⟨m', hm', hk'⟩ := hk.arm (t := c) h.fits (by simp [hc]) (hr hok rnd) t.code ts
        rw [comp_update]
        exact ⟨m', by rw [managerAfter, hm]; exact hm', hk'⟩
      | @clear _ timers c _ h hc hcall =>
        have hne : (Option.map TimerType.code ∘ timers) c ≠ none := by simpa using hc
        rw [comp_update]
        rcases hcall with rfl | rfl
        · obtain ⟨m, hm, hk⟩ := ih h rfl hdue
          obtain ⟨m', hm', hk'⟩ := hk.disarm hne
          exact ⟨m', by rw [managerAfter, hm]; exact hm', hk'⟩
        · obtain ⟨m, hm, hk⟩ := ih h rfl hdue.2
          exact ⟨_, by rw [managerAfter, hm]; rfl, (hk.pop (hdue.1 m hm)).2⟩

/-! ## The connections -/

/-- The timers are armed as the connections say, and nothing waits for freed memory. The lists of the timeout
manager hold the timers of the connections for which `to_armed` is set, as whatever type they were armed. -/
structure TimersSound (s : Slow) : Prop where
  lists : ∀ timeouts ops, ops.filterMap ManagerOp.timerCall = s.timerCalls → ExpireInOrder timeouts ops →
    ∃ m D W, managerAfter timeouts ops = some m ∧ Lists m D W ∧
      (∀ c, c ∈ D ++ W ↔ ∃ x, s.conns c = some x ∧ x.toArmed = true) ∧ ∀ c t, s.timers c = some t → m.typeOf c = t.code
  armed : ∀ c x, s.conns c = some x → (x.toArmed = true ↔ s.timers c ≠ none)
  status : ∀ c x, s.conns c = some x → (x.toArmed = true ↔ x.status = .synSent ∨ x.status = .closed)
  freed : ∀ c, s.conns c = none → s.timers c = none ∧ c ∉ s.arpWait ∧ c ∉ s.connAsyncQ
  range : ∀ c x, s.conns c = some x → x.status = .synSent →
    x.timeout ≠ 0 ∧ ∀ rnd, (x.timeout / 2 + rnd % x.timeout).toNat < 0x8000000

theorem Phase.timer_isSome {ph : Phase} {st : ConnStatus} (h : ph.Of st) :
    ph.timer.isSome = true ↔ st = .synSent ∨ st = .closed := by
  cases ph with
  | waiting l =>
    rcases h with rfl | rfl <;> simp [Phase.timer]
  | _ =>
    obtain rfl : st = _ := h
    simp [Phase.timer]

theorem SlowOf.armed_iff (h : SlowOf cfg s peers) : s.timers c ≠ none ↔ ∃ x, s.conns c = some x ∧ x.toArmed = true := by
  cases hx : s.conns c with
  | none => simp [(h.fresh hx).2.2]
  | some x => simp [((h.timers c).2 x hx).1, Option.isSome_iff_ne_none]

theorem SlowOf.timersSound (h : SlowOf cfg s peers) (hok : cfg.HandshakeOk) : TimersSound s where
  lists timeouts ops hops hdue := by
    obtain ⟨m, hm, ⟨D, W, hl, hmem⟩, htype⟩ := h.log.keeps hok hops hdue
    refine ⟨m, D, W, hm, hl, fun c => ?_, fun c t ht => ?_⟩
    · rw [hmem, ← h.armed_iff]
      simp
    · rw [htype c t.code (by simp [ht])]
      cases t <;> rfl
  armed c x hx := by
    rw [((h.timers c).2 x hx).1, Option.isSome_iff_ne_none]
  status c x hx := by
    obtain ⟨p, hp, hxp⟩ := h.peer hx
    rw [(h.timer_eq hx hp).2]
    exact Phase.timer_isSome hxp.phase
  freed c hc := by
    obtain ⟨-, ⟨hq, hw⟩, ht⟩ := h.fresh hc
    exact ⟨ht, hw, hq⟩
  range c x hx hst := by
    obtain ⟨p, hp, hxp⟩ := h.peer hx
    have hph : p.phase = .synSent := Phase.of_synSent (hst ▸ hxp.phase)
    have ht : s.timers c = some .handshake := by
      rw [(h.timer_eq hx hp).1, hph]
      rfl
    have hb := ((h.timers c).2 x hx).2 ht hok
    exact ⟨(hb.range hok).1, hb.drawn hok⟩

/-- The reasons to stop that are about timers, freed memory and the queue of
completions. -/
def Stop.OfTimers : Stop → Prop
  | .assertion => True
  | .badState => True
  | .divides => True
  | .freed => True
  | .queued => True
  | _ => False

theorem Life.Stops.not_ofTimers {v : Life} {e : Stop} (h : v.Stops cfg e) (hok : cfg.HandshakeOk) : ¬ e.OfTimers := by
  rcases h.kinds with h | h | h <;> cases e <;> first | exact h.elim | exact id | exact absurd hok h

theorem tcp_timers_exact (hok : cfg.HandshakeOk) {hint : BitVec 16} {ops : List SlowOp}
    (hops : Run.All (slowStep cfg) (SlowOk fun _ _ => True) (.ok (slowInit hint)) ops) {r : SlowProc}
    (hr : Run.exec (slowStep cfg) (.ok (slowInit hint)) ops = some r) :
    Ends (fun e => ¬ e.OfTimers) TimersSound r := by
  refine (slowRun_inv (J := fun _ => True) trivial (fun _ _ _ _ _ _ _ _ _ => trivial) hops hr).mono ?_ ?_
  · rintro e ⟨v, -, -, he⟩
    exact he.not_ofTimers hok
  · rintro s ⟨peers, hs, -⟩
    exact hs.timersSound hok

/-- An address is resolved, the SYN is sent twice, and the connection is closed and
freed. The address of a second connection is not found, and a third is refused. -/
theorem tcp_timers_exact_three_connections : ∃ r, Run.exec (slowStep .plain) (.ok (slowInit 8192))
    [.connOpen ⟨0, 0⟩ ⟨1, 0, 80⟩ (some (7, .zeroed)) .pending, .connOpen ⟨0, 0⟩ ⟨2, 0, 80⟩ (some (8, .zeroed)) .pending,
      .arpDone 7 0 5, .tcpPoll fun _ => true, .timeout 7 .handshake true, .packet (.plain 80 8192 0x12 true) 0 0 (some 3) true,
      .connClose ⟨0, 0⟩ ⟨1, ⟨0, 0, 8192, 80⟩⟩ ⟨0, 0, true, true⟩, .timeout 7 .closed true, .arpDone 8 (-1) 0,
      .connOpen ⟨0, 0⟩ ⟨3, 0, 80⟩ (some (7, .zeroed)) (.found 0), .tcpPoll fun _ => true,
      .packet (.plain 80 8194 0x14 true) 0 0 (some 3) true] = some r ∧
    Ends (fun e => ¬ e.OfTimers) TimersSound r := by
  exact Run.exists_exec (by decide +kernel) fun r hr => tcp_timers_exact ⟨by decide, by decide⟩ (by decide +kernel) hr

end TasNic
