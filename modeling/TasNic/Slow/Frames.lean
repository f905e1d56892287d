import TasNic.Slow.TcpSteps

/-!
# What the calls on a connection leave alone

The functions on one connection change no other connection and no listener
(`Touches`), in any state. `Pairing` says what `listener_accept` does: it takes
the oldest SYN off the backlog, and the connection that waits first may get what
is in it.
-/

namespace TasNic

open Function Chains Run

/-- Of the connections at most `c` is changed; listeners and the connections that
wait for them are not. -/
def Touches (c : Nat) (s s' : Slow) : Prop :=
  (∀ d, d ≠ c → s'.conns d = s.conns d) ∧ s'.listeners = s.listeners ∧ s'.waitConns = s.waitConns

/-- A call, wherever it stops, touches only `c`. -/
abbrev Leaves (c : Nat) (s : Slow) : Except Stop Slow → Prop := Returns (Touches c s)

section

variable {cfg : SlowConfig} {s s' s'' : Slow} {c l : Nat} {x : Connection} {room : Bool}

theorem Slow.free_conns (s : Slow) (c : Nat) : (s.free c).conns c = none := update_self ..

theorem Touches.refl (c : Nat) (s : Slow) : Touches c s s := ⟨fun _ _ => rfl, rfl, rfl⟩

theorem Touches.trans (h : Touches c s s') (h' : Touches c s' s'') : Touches c s s'' :=
  ⟨fun d hd => (h'.1 d hd).trans (h.1 d hd), h'.2.1.trans h.2.1, h'.2.2.trans h.2.2⟩

theorem Touches.setConn (h : Touches c s s') (x : Connection) : Touches c s (s'.setConn c x) :=
  h.trans ⟨fun _ hd => update_of_ne hd .., rfl, rfl⟩

theorem Touches.free (h : Touches c s s') : Touches c s (s'.free c) :=
  h.trans ⟨fun _ hd => update_of_ne hd .., rfl, rfl⟩

theorem Leaves.after {r : Except Stop Slow} (h : Touches c s s') (hr : Leaves c s' r) : Leaves c s r :=
  hr.imp fun _ h' => h.trans h'

theorem Leaves.seq {r : Except Stop Slow} {f : Slow → Except Stop Slow} (h : Leaves c s r)
    (hf : ∀ s', Leaves c s' (f s')) : Leaves c s (r >>= f) :=
  Ends.bind h fun s' hs' => (hf s').after hs'

theorem ends_ok {α : Type} {P : α → Prop} {r : Except Stop α} {a : α} (h : Returns P r) (e : r = .ok a) : P a := by
  rw [e] at h
  exact h

theorem ends_and {α : Type} {P Q : α → Prop} {r : Except Stop α} (h : Returns P r)
    (h' : Returns Q r) : Returns (fun a => P a ∧ Q a) r := by
  cases r with
  | ok a => exact ⟨h, h'⟩
  | error e => trivial

theorem ends_any {α : Type} (r : Except Stop α) : Returns (fun _ => True) r :=
  (Ends.self r).mono (fun _ _ => trivial) fun _ _ => trivial

theorem Slow.conn_ends (s : Slow) (c : Nat) : Returns (fun x => s.conns c = some x) (s.conn c) := by
  rw [Slow.conn]
  cases hx : s.conns c with
  | none => trivial
  | some x => rfl

theorem Leaves.conn {f : Connection → Except Stop Slow} (h : ∀ x, s.conns c = some x → Leaves c s (f x)) :
    Leaves c s (s.conn c >>= f) :=
  (s.conn_ends c).bind h

/-! ## Lists, timers and messages -/

theorem connRegister_leaves : Leaves c s (connRegister cfg c s) := .conn fun _ _ => .refl c s

theorem connUnregister_leaves : Leaves c s (connUnregister cfg c s) := by
  refine .conn fun x _ => ?_
  split
  · trivial
  · trivial
  · exact .refl c s

theorem connTimeoutArm_leaves : Leaves c s (connTimeoutArm c s) := by
  refine .conn fun x _ => ?_
  split_ifs
  · trivial
  · trivial
  · exact (Touches.refl c s).setConn _

theorem connTimeoutDisarm_leaves : Leaves c s (connTimeoutDisarm c s) := by
  refine .conn fun x _ => ?_
  split_ifs
  · exact (Touches.refl c s).setConn _
  · trivial

theorem connTimeoutClear_leaves : Leaves c s (connTimeoutClear c s) := by
  refine .conn fun x _ => ?_
  split_ifs
  · exact connTimeoutDisarm_leaves
  · exact .refl c s

theorem connAsyncEnq_leaves : Leaves c s (connAsyncEnq c s) := by
  rw [connAsyncEnq]
  split_ifs
  · trivial
  · exact .refl c s

theorem appifConnOpened_kept (room : Bool) (c : Nat) (status : Int) (s : Slow) :
    Returns (fun s' => Touches c s s' ∧ (s'.conns c = s.conns c ∨ s'.conns c = none))
      (appifConnOpened room c status s) := by
  refine (s.conn_ends c).bind fun x _ => ?_
  split_ifs
  · exact ⟨.refl c s, .inl rfl⟩
  · refine Ends.bind (P := fun s' => s' = s.free c) ?_ ?_
    · refine (s.conn_ends c).bind fun x _ => ?_
      split_ifs
      · rfl
      · trivial
    · rintro _ rfl
      exact ⟨(Touches.refl c s).free, .inr (update_self ..)⟩
  · exact ⟨.refl c s, .inl rfl⟩

variable {status : Int}

theorem appifConnOpened_leaves : Leaves c s (appifConnOpened room c status s) :=
  (appifConnOpened_kept room c status s).imp fun _ h => h.1

theorem appifConnClosed_leaves : Leaves c s (appifConnClosed room c status s) := by
  refine .conn fun x _ => ?_
  split_ifs
  · exact (ends_any _).bind fun apps _ => .refl c s
  · exact .refl c s

theorem appifAcceptConn_leaves : Leaves c s (appifAcceptConn room c s) := by
  refine .conn fun x _ => ?_
  split_ifs
  · exact .refl c s
  · trivial

/-! ## Connections -/

theorem connFailed_failed (status : Int) : Returns
    (fun s' => Touches c s s' ∧ ∀ x, s'.conns c = some x → x.status = .failed) (connFailed cfg room c status s) := by
  refine connUnregister_leaves.bind fun s₁ h₁ => connTimeoutClear_leaves.bind fun s₂ h₂ => ?_
  refine (s₂.conn_ends c).bind fun x _ => ?_
  refine (appifConnOpened_kept room c status _).imp ?_
  rintro s' ⟨ht, hc⟩
  refine ⟨((h₁.trans h₂).setConn _).trans ht, fun y hy => ?_⟩
  rcases hc with hc | hc
  · rw [hc, Slow.setConn_conns] at hy
    cases hy
    rfl
  · rw [hc] at hy
    cases hy

theorem connFailed_leaves : Leaves c s (connFailed cfg room c status s) :=
  (connFailed_failed status).imp fun _ h => h.1

theorem connArpDone_leaves : Leaves c s (connArpDone cfg c s) :=
  .conn fun _ _ => (Leaves.after ((Touches.refl c s).setConn _) connTimeoutArm_leaves).seq fun s' => .refl c s'

theorem connSynSentPacket_leaves {b : Nat → Byte} {opts : TcpOpts} {flow : Option (BitVec 32)} :
    Returns (fun r => Touches c s r.2) (connSynSentPacket c b opts flow room s) := by
  refine connTimeoutDisarm_leaves.bind fun s₁ h₁ => ?_
  split_ifs
  · exact h₁
  · split
    · exact h₁
    · refine (s₁.conn_ends c).bind fun x _ => ?_
      split
      · exact h₁.setConn _
      · refine appifConnOpened_leaves.bind fun s₂ h₂ => ?_
        exact ((h₁.setConn _).setConn _).trans h₂

theorem connPacket_leaves {b : Nat → Byte} {opts : TcpOpts} {fnCore : BitVec 32} {flowGroup : BitVec 16}
    {flow : Option (BitVec 32)} : Leaves c s (connPacket cfg c b opts fnCore flowGroup flow room s) := by
  refine .conn fun x _ => ?_
  split_ifs
  · refine connSynSentPacket_leaves.bind fun r hr => ?_
    have hr : Touches c s r.2 := ((Touches.refl c s).setConn _).trans hr
    dsimp only
    split_ifs
    · exact connFailed_leaves.after hr
    · exact hr
  · split
    · exact connFailed_leaves
    · exact .refl c s
  all_goals exact .refl c s

theorem connRegSynack_leaves : Leaves c s (connRegSynack room c s) :=
  .conn fun _ _ => appifAcceptConn_leaves.after ((Touches.refl c s).setConn _)

theorem connCloseTimeout_freed : Returns (fun s' => Touches c s s' ∧ s'.conns c = none)
    (connCloseTimeout cfg room c s) := by
  refine (s.conn_ends c).bind fun x _ => ?_
  refine connUnregister_leaves.bind fun s₁ (h₁ : Touches c s s₁) => ?_
  refine appifConnClosed_leaves.bind fun s₂ (h₂ : Touches c s₁ s₂) => ?_
  exact ⟨(h₁.trans h₂).free, update_self ..⟩

/-! ## Calls -/

/-- The connection is closed, unless it is not open. -/
theorem tcpClose_closed {nic : NicDisabled} : Returns
    (fun r => Touches c s r.2 ∧ ∀ x, r.2.conns c = some x → s.conns c = some x ∨ x.status = .closed) (tcpClose c nic s) := by
  refine (s.conn_ends c).bind fun x _ => ?_
  by_cases hst : x.status ≠ .opened
  · rw [if_pos hst]
    exact ⟨.refl c s, fun y hy => .inl hy⟩
  · rw [if_neg hst]
    refine (ends_any _).bind fun cc _ => ?_
    by_cases ha : x.toArmed
    · rw [if_pos ha]
      trivial
    · rw [if_neg ha]
      refine ⟨Touches.trans ?_ ((Touches.refl c _).setConn _), fun y hy => .inr ?_⟩
      · split_ifs <;> exact .refl c s
      · cases (Slow.setConn_conns ..).symm.trans hy
        rfl

theorem tcpTimeout_leaves {t : TimerType} : Leaves c s (tcpTimeout cfg c t room s) := by
  refine .conn fun x _ => ?_
  split
  · cases t with
    | closed => exact connCloseTimeout_freed.imp fun _ h => ((Touches.refl c s).setConn _).trans h.1
    | handshake =>
      split_ifs
      · trivial
      · exact connFailed_leaves.after ((Touches.refl c s).setConn _)
      · exact (connTimeoutArm_leaves.after ((Touches.refl c s).setConn _)).seq fun s' => .refl c s'
  · trivial

theorem tcpPollConn_leaves {rooms : Nat → Bool} : Leaves c s (tcpPollConn cfg rooms c s) := by
  refine .conn fun x _ => ?_
  split_ifs
  · exact connFailed_leaves
  · exact connArpDone_leaves
  · exact connFailed_leaves
  · exact connRegSynack_leaves
  · exact .refl c s

theorem arpDone_leaves {mac : BitVec 64} : Leaves c s (arpDone c status mac s) :=
  .conn fun _ _ => connAsyncEnq_leaves.imp fun _ h => ((Touches.refl c s).setConn _).trans h

theorem arpDone_resolved {mac : BitVec 64} : Returns
    (fun s' => ∀ x', s'.conns c = some x' → ∃ x, s.conns c = some x ∧ x' = x.resolved status mac) (arpDone c status mac s) := by
  refine (s.conn_ends c).bind fun x hx => ?_
  rw [connAsyncEnq]
  split_ifs
  · trivial
  · intro x' hx'
    cases (Slow.setConn_conns ..).symm.trans hx'
    exact ⟨x, hx, rfl⟩

theorem portAlloc_leaves (c : Nat) : Returns (fun r => Touches c s r.2) (portAlloc s) := by
  refine (ends_any _).bind fun r _ => ?_
  cases r with
  | none => exact .refl c s
  | some p => exact Touches.refl c s

theorem kinConnOpen_leaves {ctx : AppContext} {req : ConnOpen} {junk : Connection} {route : Route} :
    Leaves c s (kinConnOpen cfg ctx req (some (c, junk)) route s) := by
  refine Ends.bind (P := fun r => Touches c s r.2) ?_ fun r hr => ?_
  · refine (portAlloc_leaves c).bind fun r hr => ?_
    have hr : Touches c s r.2 := ((Touches.refl c s).setConn _).trans hr
    dsimp only
    split_ifs
    · exact hr.free
    · split
      · exact hr.free
      · refine connRegister_leaves.bind fun s₁ h₁ => connArpDone_leaves.bind fun s₂ h₂ => ?_
        exact (hr.setConn _).trans (h₁.trans h₂)
      · refine connRegister_leaves.bind fun s₁ h₁ => ?_
        exact (hr.setConn _).trans h₁
  · obtain ⟨o, s'⟩ := r
    cases o with
    | none => exact hr
    | some d => exact hr

end

/-! ## What becomes of the connection -/

section

variable {cfg : SlowConfig} {s : Slow} {c : Nat} {room : Bool}

theorem connTimeoutArm_status : Returns
    (fun s' => ∀ x', s'.conns c = some x' → ∃ x, s.conns c = some x ∧ x'.status = x.status) (connTimeoutArm c s) := by
  refine (s.conn_ends c).bind fun x hx => ?_
  split_ifs
  · trivial
  · trivial
  · intro x' hx'
    cases (update_self ..).symm.trans hx'
    exact ⟨x, hx, rfl⟩

theorem connArpDone_status : Returns (fun s' => ∀ x', s'.conns c = some x' → x'.status = .synSent)
    (connArpDone cfg c s) := by
  refine (s.conn_ends c).bind fun x _ => connTimeoutArm_status.bind fun s₁ h₁ => ?_
  intro x' hx'
  obtain ⟨y, hy, e⟩ := h₁ x' hx'
  cases (Slow.setConn_conns ..).symm.trans hy
  exact e

theorem connSynSentPacket_status {b : Nat → Byte} {opts : TcpOpts} {flow : Option (BitVec 32)} : Returns
    (fun r => r.1 = 0 → ∀ x', r.2.conns c = some x' → x'.status = .opened) (connSynSentPacket c b opts flow room s) := by
  have hne : (-1 : Int) ≠ 0 := by decide
  refine (ends_any _).bind fun s₁ _ => ?_
  split_ifs
  · exact fun h => absurd h hne
  · split
    · exact fun h => absurd h hne
    · refine (s₁.conn_ends c).bind fun x _ => ?_
      split
      · exact fun h => absurd h hne
      · refine (appifConnOpened_kept ..).bind fun s₂ h₂ _ x' hx' => ?_
        rcases h₂.2 with e | e
        · cases (update_self ..).symm.trans (e.symm.trans hx')
          rfl
        · rw [e] at hx'
          cases hx'

theorem connPacket_status {b : Nat → Byte} {opts : TcpOpts} {fnCore : BitVec 32} {flowGroup : BitVec 16}
    {flow : Option (BitVec 32)} : Returns (fun s' => ∀ x', s'.conns c = some x' → s.conns c = some x' ∨
      x'.status = .failed ∨ x'.status = .opened ∧ ∃ x, s.conns c = some x ∧ x.status = .synSent)
      (connPacket cfg c b opts fnCore flowGroup flow room s) := by
  have hfailed : ∀ status s₁, Returns (fun s' => ∀ x', s'.conns c = some x' → s.conns c = some x' ∨
      x'.status = .failed ∨ x'.status = .opened ∧ ∃ x, s.conns c = some x ∧ x.status = .synSent)
      (connFailed cfg room c status s₁) := fun status s₁ =>
    (connFailed_failed status).imp fun s' h x' hx' => .inr (.inl (h.2 x' hx'))
  refine (s.conn_ends c).bind fun x hx => ?_
  split_ifs with hst
  · refine connSynSentPacket_status.bind fun r hr => ?_
    dsimp only
    split_ifs with hret
    · exact hfailed _ _
    · exact fun x' hx' => .inr (.inr ⟨hr (not_not.mp hret) x' hx', x, hx, hst⟩)
  · split
    · exact hfailed _ _
    · exact fun x' hx' => .inl hx'
  all_goals exact fun x' hx' => .inl hx'

theorem connRegSynack_status : Returns (fun s' => ∀ x', s'.conns c = some x' → x'.status = .opened)
    (connRegSynack room c s) := by
  refine (s.conn_ends c).bind fun x _ => ?_
  refine (Slow.conn_ends _ c).bind fun y _ => ?_
  split_ifs
  · intro x' hx'
    cases (update_self ..).symm.trans hx'
    rfl
  · trivial

/-- A turn of `tcp_poll` ends the setup of a connection. One that is not being set up
stays as it is. -/
theorem tcpPollConn_status {rooms : Nat → Bool} : Returns (fun s' => ∀ x', s'.conns c = some x' →
    x'.status ≠ .regSynack ∧ (∃ x, s.conns c = some x ∧ (x.status = .arpPending ∨ x.status = .regSynack)) ∨
      s.conns c = some x') (tcpPollConn cfg rooms c s) := by
  refine (s.conn_ends c).bind fun x hx => ?_
  split_ifs with harp hcomp hreg hcomp
  · refine (connFailed_failed _).imp fun s' h x' hx' => .inl ⟨?_, x, hx, .inl harp⟩
    rw [h.2 x' hx']
    nofun
  · refine connArpDone_status.imp fun s' h x' hx' => .inl ⟨?_, x, hx, .inl harp⟩
    rw [h x' hx']
    nofun
  · refine (connFailed_failed _).imp fun s' h x' hx' => .inl ⟨?_, x, hx, .inr hreg⟩
    rw [h.2 x' hx']
    nofun
  · refine connRegSynack_status.imp fun s' h x' hx' => .inl ⟨?_, x, hx, .inr hreg⟩
    rw [h x' hx']
    nofun
  · exact fun x' hx' => .inr hx'

theorem tcpTimeout_status {t : TimerType} : Returns
    (fun s' => ∀ x', s'.conns c = some x' → x'.status = .failed ∨ x'.status = .synSent) (tcpTimeout cfg c t room s) := by
  refine (s.conn_ends c).bind fun x _ => ?_
  split
  · cases t with
    | closed =>
      refine connCloseTimeout_freed.imp fun s' h x' hx' => ?_
      rw [h.2] at hx'
      cases hx'
    | handshake =>
      split_ifs with hst hmax
      · trivial
      · exact (connFailed_failed _).imp fun s' h x' hx' => .inl (h.2 x' hx')
      · refine connTimeoutArm_status.bind fun s₁ h₁ x' hx' => ?_
        obtain ⟨y, hy, e⟩ := h₁ x' hx'
        cases (Slow.setConn_conns ..).symm.trans hy
        exact .inr (e.trans (not_not.mp hst))
  · trivial

theorem kinConnOpen_status {ctx : AppContext} {req : ConnOpen} {junk : Connection} {route : Route} : Returns
    (fun s' => ∀ x', s'.conns c = some x' → x'.status = .arpPending ∨ x'.status = .synSent)
    (kinConnOpen cfg ctx req (some (c, junk)) route s) := by
  refine Ends.bind (P := fun r => ∀ x', r.2.conns c = some x' → x'.status = .arpPending ∨ x'.status = .synSent) ?_
    fun r hr => ?_
  · refine (ends_any _).bind fun r _ => ?_
    have hfree : ∀ x', (r.2.free c).conns c = some x' → x'.status = .arpPending ∨ x'.status = .synSent := by
      intro x' hx'
      rw [Slow.free_conns] at hx'
      cases hx'
    dsimp only
    split_ifs
    · exact hfree
    · split
      · exact hfree
      · refine (ends_any _).bind fun s₁ _ => connArpDone_status.bind fun s₂ h₂ => ?_
        exact fun x' hx' => .inr (h₂ x' hx')
      · rw [connRegister_eq (Slow.setConn_conns ..), ok_bind]
        intro x' hx'
        cases (Slow.setConn_conns ..).symm.trans hx'
        exact .inl rfl
  · obtain ⟨o, s'⟩ := r
    cases o with
    | none => exact hr
    | some d => exact hr

end

/-! ## Pairing -/

/-- What `listener_accept` does for the first connection that waits. -/
inductive Pairing (cfg : SlowConfig) (l : Nat) (flow : Option (BitVec 32)) (li : Listener) (c : Nat) (s s' : Slow) : Prop where
  /-- The SYN has no timestamp. -/
  | dropped (hparse : ∀ opts, parseOptions li.oldest.buf li.oldest.len = .ok (some opts) → opts.ts = none)
      (hconns : s'.conns = s.conns) (hwait : s'.waitConns = s.waitConns)
  /-- The flow is not registered; the connection goes on waiting with what is written into it. -/
  | refused (opts : TcpOpts) (ts : Nat) (x : Connection)
      (hparse : parseOptions li.oldest.buf li.oldest.len = .ok (some opts)) (hts : opts.ts = some ts)
      (hx : s.conns c = some x) (hflow : flow = none)
      (hconns : s'.conns = update s.conns c (some (x.accept cfg li ts))) (hwait : s'.waitConns = s.waitConns)
  | accepted (opts : TcpOpts) (ts : Nat) (x : Connection) (f : BitVec 32)
      (hparse : parseOptions li.oldest.buf li.oldest.len = .ok (some opts)) (hts : opts.ts = some ts)
      (hx : s.conns c = some x) (hflow : flow = some f)
      (hconns : s'.conns = update s.conns c (some { x.accept cfg li ts with flowId := f }))
      (hwait : s'.waitConns = update s.waitConns l (s.htNext c))

variable {flow : Option (BitVec 32)}

/-- `listener_accept` takes the oldest SYN off the backlog in any case. -/
theorem listenerAccept_pairs {cfg : SlowConfig} {l : Nat} {s s' : Slow} (h : listenerAccept cfg l flow s = .ok s') :
    ∃ li c, s.listeners l = some li ∧ s.waitConns l = some c ∧
      li.backlogUsed ≠ 0 ∧ s'.listeners = update s.listeners l (some li.pop) ∧ Pairing cfg l flow li c s s' := by
  unfold listenerAccept at h
  split at h
  · cases h
  · cases h
  rename_i li c hli hc
  split at h
  · cases h
  rename_i hu
  refine ⟨li, c, hli, hc, hu, ?_⟩
  cases hparse : parseOptions li.oldest.buf li.oldest.len with
  | error e =>
    rw [hparse] at h
    cases h
  | ok o =>
    rw [hparse, ok_bind] at h
    cases o with
    | none =>
      cases h
      exact ⟨rfl, .dropped (by rw [hparse]; nofun) rfl rfl⟩
    | some opts =>
      cases hts : opts.ts with
      | none =>
        simp only [hts] at h
        cases h
        refine ⟨rfl, .dropped (fun o ho => ?_) rfl rfl⟩
        rw [hparse] at ho
        cases ho
        exact hts
      | some ts =>
        simp only [hts] at h
        cases hx : s.conns c with
        | none =>
          rw [Slow.conn, hx] at h
          cases h
        | some x =>
          rw [Slow.conn_eq hx, ok_bind] at h
          cases flow with
          | none =>
            cases h
            exact ⟨rfl, .refused opts ts x hparse hts hx rfl rfl rfl⟩
          | some f =>
            dsimp only at h
            rw [connRegister_eq (x := { x.accept cfg li ts with flowId := f }) (update_self ..), ok_bind] at h
            unfold connAsyncEnq at h
            split at h
            · cases h
            · cases h
              refine ⟨rfl, .accepted opts ts x f hparse hts hx rfl ?_ rfl⟩
              exact update_idem ..

/-! ## Packets and requests for listeners -/

def packetListener (cfg : SlowConfig) (s : Slow) (pkt : RawPkt) : Option Nat :=
  if pkt.len.toNat < pktTcpSize ∨ RawPkt.ipDest pkt.buf ≠ cfg.ip then none
  else match parseOptions pkt.buf pkt.len, connLookup cfg (RawPkt.key pkt.buf) s with
    | .ok (some _), .ok none => listenerLookup s.ports (RawPkt.key pkt.buf)
    | _, _ => none

/-- The listener that `kin_accept_conn` finds. -/
def Slow.acceptListener (s : Slow) (ctx : AppContext) (req : AcceptConn) : Option Nat :=
  (s.appListeners ctx.app).find? fun l =>
    (s.listeners l).any fun li => li.port = req.localPort && li.opq = req.listenOpq

/-- The state in which `tcp_accept` looks at the backlog: the connection `c` waits
for `l`. -/
def Slow.waits (s : Slow) (ctx : AppContext) (req : AcceptConn) (l : Nat) (li : Listener) (c : Nat) (junk : Connection) : Slow :=
  { (connAlloc ctx c junk s).setConn c (junk.waiting ctx req li) with
    htNext := update s.htNext c (s.waitConns l), waitConns := update s.waitConns l (some c) }

variable {cfg : SlowConfig} {s s' : Slow}

theorem Slow.waits_first (s : Slow) (ctx : AppContext) (req : AcceptConn) (l : Nat) (li : Listener) (c : Nat)
    (junk : Connection) : (s.waits ctx req l li c junk).waitConns l = some c := update_self ..

theorem tcpPacket_cases {pkt : RawPkt} {fnCore : BitVec 32} {flowGroup : BitVec 16} {room : Bool}
    (h : tcpPacket cfg pkt fnCore flowGroup flow room s = .ok s') :
    (packetListener cfg s pkt = none ∧ (s'.conns = s.conns ∧ s'.listeners = s.listeners ∧ s'.waitConns = s.waitConns ∨
        ∃ c opts, connPacket cfg c pkt.buf opts fnCore flowGroup flow room s = .ok s')) ∨
      ∃ l opts, packetListener cfg s pkt = some l ∧
        listenerPacket cfg l pkt.buf opts fnCore flowGroup flow room s = .ok s' := by
  unfold tcpPacket at h
  split at h
  · rename_i hlen
    cases h
    exact .inl ⟨if_pos (.inl hlen), .inl ⟨rfl, rfl, rfl⟩⟩
  rename_i hlen
  split at h
  · rename_i hip
    cases h
    exact .inl ⟨if_pos (.inr hip), .inl ⟨rfl, rfl, rfl⟩⟩
  rename_i hip
  rw [packetListener, if_neg (not_or.mpr ⟨hlen, hip⟩)]
  cases hparse : parseOptions pkt.buf pkt.len with
  | error e =>
    rw [hparse] at h
    cases h
  | ok o =>
    rw [hparse, ok_bind] at h
    cases o with
    | none =>
      cases h
      exact .inl ⟨rfl, .inl ⟨rfl, rfl, rfl⟩⟩
    | some opts =>
      dsimp only at h
      cases hlook : connLookup cfg (RawPkt.key pkt.buf) s with
      | error e =>
        rw [hlook] at h
        cases h
      | ok r =>
        rw [hlook, ok_bind] at h
        cases r with
        | some c => exact .inl ⟨rfl, .inr ⟨c, opts, h⟩⟩
        | none =>
          cases hl : listenerLookup s.ports (RawPkt.key pkt.buf) with
          | some l =>
            rw [hl] at h
            exact .inr ⟨l, opts, rfl, h⟩
          | none =>
            rw [hl] at h
            dsimp only at h
            split at h <;> cases h <;> exact .inl ⟨rfl, .inl ⟨rfl, rfl, rfl⟩⟩

/-- The packet is stored in the backlog. -/
structure Listener.Takes (li : Listener) (b : Nat → Byte) : Prop where
  flags : RawPkt.flags b &&& ~~~(tcpEce ||| tcpCwr) = tcpSyn
  len : synLen b ≤ backlogBufSize
  fresh : li.holds (RawPkt.key b) = false
  room : li.backlogLen ≠ li.backlogUsed

theorem listenerPacket_cases {l : Nat} {b : Nat → Byte} {opts : TcpOpts} {fnCore : BitVec 32} {flowGroup : BitVec 16}
    {room : Bool} (h : listenerPacket cfg l b opts fnCore flowGroup flow room s = .ok s') :
    ∃ li, s.listeners l = some li ∧
      (¬ li.Takes b ∧ s'.conns = s.conns ∧ s'.listeners = s.listeners ∧ s'.waitConns = s.waitConns ∨
        li.Takes b ∧ ∃ s₁ : Slow, s₁.conns = s.conns ∧ s₁.htNext = s.htNext ∧ s₁.waitConns = s.waitConns ∧
          s₁.listeners = update s.listeners l (some (li.store b (synLen b) fnCore flowGroup)) ∧
          (s.waitConns l = none ∧ s' = s₁ ∨ listenerAccept cfg l flow s₁ = .ok s')) := by
  unfold listenerPacket at h
  cases hli : s.listeners l with
  | none =>
    rw [hli] at h
    cases h
  | some li =>
    rw [hli] at h
    dsimp only at h
    refine ⟨li, rfl, ?_⟩
    split at h
    · rename_i hf
      cases h
      exact .inl ⟨fun ht => hf ht.flags, rfl, rfl, rfl⟩
    rename_i hf
    split at h
    · rename_i hlen
      cases h
      exact .inl ⟨fun ht => absurd ht.len (Nat.not_le.mpr hlen), rfl, rfl, rfl⟩
    rename_i hlen
    split at h
    · rename_i hholds
      cases h
      exact .inl ⟨fun ht => by simp [ht.fresh] at hholds, rfl, rfl, rfl⟩
    rename_i hholds
    split at h
    · rename_i hfull
      cases h
      exact .inl ⟨fun ht => ht.room hfull, rfl, rfl, rfl⟩
    rename_i hfull
    refine .inr ⟨⟨not_not.mp hf, Nat.le_of_not_lt hlen, Bool.eq_false_iff.mpr hholds, hfull⟩, ?_⟩
    obtain ⟨out, hout⟩ := appifListenNewconn_eq room li (RawPkt.ipSrc b) (RawPkt.tcpSrc b)
      (s.setListener l (li.store b (synLen b) fnCore flowGroup))
    rw [hout] at h
    refine ⟨{ s.setListener l (li.store b (synLen b) fnCore flowGroup) with out := out }, rfl, rfl, rfl, rfl, ?_⟩
    split at h
    · rename_i hw
      cases h
      exact .inl ⟨hw, rfl⟩
    · exact .inr h

theorem tcpAccept_eq {ctx : AppContext} {req : AcceptConn} {l c : Nat} {li : Listener} {junk : Connection}
    (hli : s.listeners l = some li) :
    tcpAccept cfg ctx req (some l) (some (c, junk)) flow s =
      if li.backlogUsed = 0 then .ok (true, s.waits ctx req l li c junk)
      else (listenerAccept cfg l flow (s.waits ctx req l li c junk)) >>= fun s => .ok (true, s) := by
  simp only [tcpAccept, Option.bind_some, hli, Option.map_some]
  rfl

theorem kinAcceptConn_cases {ctx : AppContext} {req : AcceptConn} {mem : ConnMem}
    (h : kinAcceptConn cfg ctx req mem flow s = .ok s') :
    (mem = none ∧ s'.conns = s.conns ∧ s'.listeners = s.listeners ∧ s'.waitConns = s.waitConns) ∨
      ∃ c junk l li, mem = some (c, junk) ∧ s.acceptListener ctx req = some l ∧ s.listeners l = some li ∧
        (li.backlogUsed = 0 ∧ s' = s.waits ctx req l li c junk ∨
          listenerAccept cfg l flow (s.waits ctx req l li c junk) = .ok s') := by
  unfold kinAcceptConn at h
  cases mem with
  | none =>
    cases h
    exact .inl ⟨rfl, rfl, rfl, rfl⟩
  | some m =>
    obtain ⟨c, junk⟩ := m
    refine .inr ⟨c, junk, ?_⟩
    cases hl : s.acceptListener ctx req with
    | none =>
      rw [show List.find? _ _ = none from hl] at h
      cases h
    | some l =>
      rw [show List.find? _ _ = some l from hl] at h
      cases hli : s.listeners l with
      | none =>
        simp only [tcpAccept, Option.bind_some, hli, Option.map_none] at h
        cases h
      | some li =>
        refine ⟨l, li, rfl, rfl, hli, ?_⟩
        dsimp only at h
        rw [tcpAccept_eq hli] at h
        split at h
        · rename_i hu
          cases h
          exact .inl ⟨hu, rfl⟩
        · cases hacc : listenerAccept cfg l flow (s.waits ctx req l li c junk) with
          | error e =>
            rw [hacc] at h
            cases h
          | ok s₁ =>
            rw [hacc] at h
            cases h
            exact .inr rfl

theorem kinListenOpen_cases (ctx : AppContext) (req : ListenOpen) (mem : Option (Nat × (Nat → BacklogSlot))) (s : Slow) :
    (kinListenOpen ctx req mem s).conns = s.conns ∧
      ((kinListenOpen ctx req mem s).listeners = s.listeners ∧ (kinListenOpen ctx req mem s).waitConns = s.waitConns ∨
        ∃ l bufs, mem = some (l, bufs) ∧
          (kinListenOpen ctx req mem s).listeners = update s.listeners l (some (req.listener ctx bufs)) ∧
          (kinListenOpen ctx req mem s).waitConns = update s.waitConns l none) := by
  unfold kinListenOpen tcpListen
  split
  · rename_i h
    split at h
    · cases h
    · split at h
      · cases h
        exact ⟨rfl, .inl ⟨rfl, rfl⟩⟩
      · cases h
    · cases h
      exact ⟨rfl, .inl ⟨rfl, rfl⟩⟩
  · rename_i h
    split at h
    · cases h
      exact ⟨rfl, .inr ⟨_, _, rfl, rfl, rfl⟩⟩
    · split at h
      · cases h
      · cases h
        exact ⟨rfl, .inr ⟨_, _, rfl, rfl, rfl⟩⟩
    · cases h

/-! ## Other steps -/

/-- A relation that every turn of `tcp_poll` respects holds between its start and
its end. -/
theorem tcpPollTurns_keeps {R : Slow → Slow → Prop} (hrefl : ∀ s, R s s) (htrans : ∀ {s s' s''}, R s s' → R s' s'' → R s s'')
    {rooms : Nat → Bool} (hturn : ∀ c q s, Returns (R s) (tcpPollConn cfg rooms c { s with connAsyncQ := q }))
    (turns : Nat) (s : Slow) : Returns (R s) (tcpPollTurns cfg rooms turns s) := by
  induction turns generalizing s with
  | zero => trivial
  | succ turns ih =>
    rw [tcpPollTurns]
    split
    · exact hrefl s
    · split_ifs
      · exact (hturn _ _ s).bind fun s₁ h₁ => (ih s₁).imp fun _ h => htrans h₁ h
      · trivial

theorem kinConnMove_same {ctx : AppContext} {name : ConnName} {known : Bool} : Returns
    (fun s' => s'.conns = s.conns ∧ s'.listeners = s.listeners ∧ s'.waitConns = s.waitConns) (kinConnMove ctx name known s) := by
  refine (ends_any (kinFind ctx name s)).bind fun r _ => ?_
  cases r with
  | none => exact ⟨rfl, rfl, rfl⟩
  | some c => exact (s.conn_ends c).bind fun x _ => ⟨rfl, rfl, rfl⟩

theorem kinConnClose_closed {ctx : AppContext} {name : ConnName} {nic : NicDisabled} : Returns
    (fun s' => ∃ c, Touches c s s' ∧ ∀ x, s'.conns c = some x → s.conns c = some x ∨ x.status = .closed)
    (kinConnClose ctx name nic s) := by
  refine (ends_any (kinFind ctx name s)).bind fun r _ => ?_
  cases r with
  | none => exact ⟨0, .refl 0 s, fun _ => .inl⟩
  | some c =>
    refine tcpClose_closed.bind fun r hr => ?_
    obtain ⟨ok, s₁⟩ := r
    cases ok <;> exact ⟨c, hr⟩

theorem ccPoll_same : Returns (fun s' => s'.conns = s.conns ∧ s'.listeners = s.listeners ∧ s'.waitConns = s.waitConns)
    (slowCall cfg s .ccPoll) :=
  (ends_any (s.cc.poll s.alive)).bind fun _ _ => ⟨rfl, rfl, rfl⟩

def SlowOp.forListener : SlowOp → Bool
  | .listenOpen _ _ _ => true
  | .acceptConn _ _ _ _ => true
  | .packet _ _ _ _ _ => true
  | _ => false

theorem slowCall_listeners {op : SlowOp} (hop : op.forListener = false) :
    Returns (fun s' => s'.listeners = s.listeners ∧ s'.waitConns = s.waitConns) (slowCall cfg s op) := by
  cases op with
  | connOpen ctx req mem route =>
    cases mem with
    | none => exact ⟨rfl, rfl⟩
    | some m => exact kinConnOpen_leaves.imp fun _ h => h.2
  | connMove ctx name known => exact kinConnMove_same.imp fun _ h => h.2
  | connClose ctx name nic => exact kinConnClose_closed.imp fun _ ⟨_, h, _⟩ => h.2
  | listenOpen | acceptConn | packet => cases hop
  | arpDone c status mac => exact arpDone_leaves.imp fun _ h => h.2
  | tcpPoll rooms =>
    exact tcpPollTurns_keeps (R := fun s s' => s'.listeners = s.listeners ∧ s'.waitConns = s.waitConns)
      (fun _ => ⟨rfl, rfl⟩) (fun h h' => ⟨h'.1.trans h.1, h'.2.trans h.2⟩)
      (fun c q s => tcpPollConn_leaves.imp fun _ h => h.2) _ s
  | timeout c t room => exact tcpTimeout_leaves.imp fun _ h => h.2
  | ccPoll => exact ccPoll_same.imp fun _ h => h.2

end TasNic
