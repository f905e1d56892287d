import TasNic.Slow.TcpLife

/-!
# Steps of the slow path as events

Each request of an application, packet, timer and poll is a sequence of events
in the life of connections, or stops (`slowCall_follows`). `SlowOp.May` says
which events a step can bring, so that an invariant of connections is proved
event by event, and then holds in every run (`slowRun_inv`).
-/

namespace TasNic

open Function Chains Run Relation Option Slow

variable {cfg : SlowConfig} {s s' : Slow} {peers peers' : Nat → Option Peer} {c l : Nat} {x x' : Connection} {p p' : Peer}
  {P : Life → LifeEvent → Prop} {v : Life}

/-! ## Calls -/

theorem portSearch_ends (ports : BitVec 16 → Port) (pStart : BitVec 16) (turns : Nat) (q : BitVec 16) :
    Ends (Stop.Benign cfg) (fun r => ∀ q', r = some q' → ports q' = .unused) (portSearch ports pStart turns q) := by
  induction turns generalizing q with
  | zero => trivial
  | succ turns ih =>
    rw [portSearch]
    split_ifs with hq hend
    · intro q' e
      cases e
      exact hq
    · intro q' e
      cases e
    · exact ih _

/-- `port_alloc` gives 0 or a port that is not in use. -/
theorem portAlloc_ends (s : Slow) : Ends (Stop.Benign cfg)
    (fun r => ∃ hint, r.2 = { s with portEphHint := hint } ∧ (r.1 = 0 ∨ s.ports r.1 = .unused)) (portAlloc s) := by
  refine (portSearch_ends ..).bind fun r hr => ?_
  cases r with
  | none => exact ⟨_, rfl, .inl rfl⟩
  | some q => exact ⟨_, rfl, .inr (hr q rfl)⟩

theorem SlowOf.hint (h : SlowOf cfg s peers) (hint : BitVec 16) : SlowOf cfg { s with portEphHint := hint } peers :=
  { h with }

theorem connRegister_eq (hx : s.conns c = some x) : connRegister cfg c s = .ok { s with
    htNext := update s.htNext c (s.hashtable (htIndex cfg.crc x.key))
    hashtable := update s.hashtable (htIndex cfg.crc x.key) (some c) } := by
  rw [connRegister, conn_eq hx, ok_bind]

variable {mem : ConnMem} {alive : Nat → Bool} {cc : CcList} {e : Stop}

theorem tcpOpen_ends (h : SlowOf cfg s peers) (hm : ∀ m ∈ mem, m.1 < addresses ∧ s.conns m.1 = none)
    (hP : ∀ m ∈ mem, ∀ p v, P v (.opens m.1 p)) (ctx : AppContext) (req : ConnOpen) (route : Route) :
    Ends (Stop.Benign cfg) (fun r => (r.1 = none → ∃ hint, r.2 = { s with portEphHint := hint }) ∧
      ∀ c, r.1 = some c → Follows cfg P (s.life peers) { r.2 with apps := r.2.apps.link ctx.app c })
      (tcpOpen cfg ctx req mem route s) := by
  cases mem with
  | none => exact ⟨fun _ => ⟨_, rfl⟩, fun c hc => by cases hc⟩
  | some m =>
    obtain ⟨c, junk⟩ := m
    obtain ⟨hc, hfree⟩ := hm _ rfl
    obtain ⟨hp, hq, ht⟩ := h.fresh hfree
    have hfree' : update s.conns c none = s.conns := update_eq_self_iff.mpr hfree.symm
    simp only [tcpOpen]
    refine (portAlloc_ends _).bind ?_
    rintro ⟨localPort, s₁⟩ ⟨hint, hs, hport⟩
    subst hs
    split_ifs with h0
    · refine ⟨fun _ => ⟨hint, ?_⟩, fun c hc => by cases hc⟩
      simp [free, connAlloc, setConn, hfree']
    · have hport : s.ports localPort = .unused := hport.resolve_left h0
      cases route with
      | fails =>
        refine ⟨fun _ => ⟨hint, ?_⟩, fun c hc => by cases hc⟩
        simp [free, connAlloc, setConn, hfree']
      | found mac =>
        have hx : (junk.opening cfg ctx req localPort mac).toArmed = false := rfl
        dsimp only
        rw [connRegister_eq (setConn_conns ..), ok_bind]
        refine (connArpDone_ends (update_self ..) hx).bind ?_
        rintro _ ⟨out, rfl⟩
        refine ⟨fun hd => (some_ne_none _ hd).elim, fun d hd => ?_⟩
        cases hd
        have hpush := h.family.push (c := c) (by rw [hp]; rfl)
          (Place.bucket (htIndex cfg.crc (junk.opening cfg ctx req localPort mac).key))
        rw [← heads_hashtable] at hpush
        exact Follows.change (o := some { (junk.opening cfg ctx req localPort mac).arpDone cfg with toArmed := true })
          (.opens c ⟨.synSent, (junk.opening cfg ctx req localPort mac).key, ctx.app⟩) h.toSlowLife (fun d _ => h.timers d)
          ⟨hp, hc, .inr rfl, rfl, hport⟩ (hP _ rfl ..) rfl (by simp [connAlloc, setConn])
          (.some ⟨rfl, rfl, rfl⟩ hc) hpush (h.queues.keep hq ..) rfl
          (.handshake rfl rfl fun _ => Connection.arpDone_backedOff _)
          (h.armed (x := { (junk.opening cfg ctx req localPort mac).arpDone cfg with toArmed := true }) ht hc fun _ =>
            Connection.arpDone_backedOff _)
      | pending =>
        rw [connRegister_eq (setConn_conns ..), ok_bind]
        refine ⟨fun hd => (some_ne_none _ hd).elim, fun d hd => ?_⟩
        cases hd
        have hpush := h.family.push (c := c) (by rw [hp]; rfl)
          (Place.bucket (htIndex cfg.crc (junk.opening cfg ctx req localPort 0).key))
        rw [← heads_hashtable] at hpush
        exact Follows.change (o := some (junk.opening cfg ctx req localPort 0)) (t := none)
          (.opens c ⟨.resolving, (junk.opening cfg ctx req localPort 0).key, ctx.app⟩) h.toSlowLife (fun d _ => h.timers d)
          ⟨hp, hc, .inl rfl, rfl, hport⟩ (hP _ rfl ..) rfl (by simp [connAlloc, setConn])
          (.some ⟨rfl, rfl, rfl⟩ hc) hpush ((h.queues.keep hq ..).arpPush hq (update_self ..) rfl)
          (update_eq_self_iff.mpr ht.symm).symm (.other rfl (by simp) fun y hy => by cases hy; rfl) h.log

theorem SlowLife.waits_none (h : SlowLife cfg s peers) (hl : s.listeners l = none) : s.waitConns l = none := by
  cases hw : s.waitConns l with
  | none => rfl
  | some c =>
    obtain ⟨-, p, -, hp, hph⟩ := h.waits hw
    have := h.inv.waits c p l hp hph
    rw [show (s.life peers).listeners l = none from hl] at this
    cases this

theorem kinListenOpen_follows (h : SlowOf cfg s peers) {mem : Option (Nat × (Nat → BacklogSlot))}
    (hm : ∀ m ∈ mem, s.listeners m.1 = none) (ctx : AppContext) (req : ListenOpen)
    (hP : ∀ l bufs port, mem = some (l, bufs) →
      (kinListenOpen ctx req mem s).ports = update s.ports req.localPort port →
      P (s.life peers) (.listens l (req.listener ctx bufs) port)) :
    Follows cfg P (s.life peers) (kinListenOpen ctx req mem s) := by
  have hnew : ∀ l bufs port, mem = some (l, bufs) →
      (kinListenOpen ctx req mem s).ports = update s.ports req.localPort port →
      (s.ports req.localPort = .unused ∧ (port = .listen l ∨ port = .lmulti [l]) ∨
        ∃ ls, s.ports req.localPort = .lmulti ls ∧ port = .lmulti (ls ++ [l])) → ∀ appListeners out,
      Follows cfg P (s.life peers) { s.setListener l (req.listener ctx bufs) with
        waitConns := update s.waitConns l none, ports := update s.ports req.localPort port
        appListeners := appListeners, out := out } := by
    intro l bufs port e hports hport appListeners out
    have hl := hm _ e
    have hg : (s.life peers).Guard cfg (.listens l (req.listener ctx bufs) port) := ⟨hl, rfl, rfl, hport⟩
    refine ⟨peers, .single ⟨_, hg, hP l bufs port e hports, rfl⟩, ⟨h.block, ?_, h.queues, Life.apply_inv h.inv hg, h.log⟩, h.timers⟩
    have hw : update s.waitConns l none = s.waitConns := update_eq_self_iff.mpr (h.waits_none hl).symm
    rw [hw]
    exact h.family
  have hfail : Follows cfg P (s.life peers) (s.emit (.kout ctx (.statusListenOpen req.opq (-1)))) := Follows.emit h _
  unfold kinListenOpen tcpListen at hnew ⊢
  cases mem with
  | none => cases s.ports req.localPort <;> exact hfail
  | some m =>
    obtain ⟨l, bufs⟩ := m
    cases hport : s.ports req.localPort with
    | unused =>
      rw [hport] at hnew
      refine hnew l bufs _ rfl rfl (.inl ⟨rfl, ?_⟩) _ _
      cases req.reuseport
      · exact .inl rfl
      · exact .inr rfl
    | listen l' => exact hfail
    | conn c => exact hfail
    | lmulti ls =>
      rw [hport] at hnew
      dsimp only at hnew ⊢
      split_ifs at hnew ⊢
      · exact hfail
      · exact hnew l bufs _ rfl rfl (.inr ⟨ls, rfl, rfl⟩) _ _

/-- How a call can stop: for a reason that has nothing to do with the lists, or
in a walk along the list of the congestion control or of an application. -/
def Life.Stops (cfg : SlowConfig) (v : Life) (e : Stop) : Prop :=
  e.Benign cfg ∨ (∃ c p, v.peers c = some p ∧ p.phase = .opened ∧ v.cc.connRemove v.alive c = .error e) ∨
    v.cc.poll v.alive = .error e ∨
    (∃ c p, v.peers c = some p ∧ p.phase = .closed ∧ v.apps.remove v.alive p.app c = .error e) ∨
    ∃ app f, v.apps.search v.alive app f = .error e

def Stop.OfCc : Stop → Prop
  | .notInCc | .cc _ => True
  | _ => False

def Stop.OfApp : Stop → Prop
  | .notInApp | .app _ => True
  | _ => False

theorem CcList.connRemove_error (h : cc.connRemove alive c = .error e) : e.OfCc := by
  rw [CcList.connRemove] at h
  split at h <;> cases h <;> trivial

theorem CcList.pollFrom_error {cFirst turns : Nat} {isFirst : Bool} {o : Option Nat}
    (h : cc.pollFrom alive cFirst turns isFirst o = .error e) : e.OfCc := by
  induction turns generalizing isFirst o with
  | zero => cases h
  | succ turns ih =>
    cases o with
    | none =>
      cases h
      trivial
    | some c =>
      rw [CcList.pollFrom] at h
      split_ifs at h
      · exact ih h
      · cases h
        trivial

theorem CcList.poll_error (h : cc.poll alive = .error e) : e.OfCc := by
  rw [CcList.poll] at h
  split at h
  · cases h
  · rename_i c _
    cases hp : cc.pollFrom alive c 128 true (some c) with
    | ok o =>
      rw [hp] at h
      cases h
    | error e' =>
      rw [hp] at h
      cases h
      exact CcList.pollFrom_error hp

theorem AppLists.remove_error {apps : AppLists} {app : Nat} (h : apps.remove alive app c = .error e) : e.OfApp := by
  rw [AppLists.remove] at h
  split at h <;> cases h <;> trivial

theorem AppLists.search_error {apps : AppLists} {app : Nat} {f : Nat → Bool} (h : apps.search alive app f = .error e) :
    e.OfApp := by
  rw [AppLists.search] at h
  split at h <;> cases h
  trivial

theorem Life.Stops.kinds {v : Life} (h : v.Stops cfg e) : e.Benign cfg ∨ e.OfCc ∨ e.OfApp := by
  rcases h with hb | ⟨c, p, -, -, he⟩ | he | ⟨c, p, -, -, he⟩ | ⟨app, f, he⟩
  · exact .inl hb
  · exact .inr (.inl (CcList.connRemove_error he))
  · exact .inr (.inl (CcList.poll_error he))
  · exact .inr (.inr (AppLists.remove_error he))
  · exact .inr (.inr (AppLists.search_error he))

theorem ends_stops {α : Type} {Q : α → Prop} {r : Except Stop α} (h : Ends (Stop.Benign cfg) Q r) : Ends (v.Stops cfg) Q r :=
  h.mono (fun _ he => .inl he) fun _ hq => hq

theorem tcpClose_follows (h : SlowOf cfg s peers) (hx : s.conns c = some x) (hP : ∀ cc v, P v (.closes c cc)) (nic : NicDisabled) :
    Ends ((s.life peers).Stops cfg) (fun r => Follows cfg P (s.life peers) r.2) (tcpClose c nic s) := by
  obtain ⟨p, hp, hxp⟩ := h.peer hx
  rw [tcpClose, conn_eq hx, ok_bind]
  by_cases hst : x.status = .opened
  · have hph : p.phase = .opened := Phase.of_opened (hst ▸ hxp.phase)
    have ht := h.timer_eq hx hp
    rw [hph] at ht
    have hq := h.queues.not_mem_of hp (by simp [hph])
    obtain ⟨out, hs⟩ : ∃ out, (if nic.txClosed && nic.rxClosed then { s with flows := update s.flows c false }
        else ({ s with flows := update s.flows c false } : Slow).sendControl (x.disabled nic) tcpRst none none) =
        { s with flows := update s.flows c false, out := out } := by
      split
      · exact ⟨s.out, rfl⟩
      · exact ⟨_, rfl⟩
    have hal : ({ s with flows := update s.flows c false, out := out } : Slow).alive = (s.life peers).alive := h.alive_eq
    rw [if_neg (not_not.mpr hst)]
    simp only [hs, hal]
    refine ((Ends.self (s.cc.connRemove (s.life peers).alive c)).mono
      (fun e he => .inr (.inl ⟨c, p, hp, hph, he⟩)) fun _ hcc => hcc).bind fun cc hcc => ?_
    have harm : x.toArmed = false := ht.2
    simp only [harm, Bool.false_eq_true, ↓reduceIte]
    exact Follows.change (.closes c cc) h.toSlowLife (fun d _ => h.timers d) ⟨p, hp, hph, hcc⟩ (hP cc _)
      (setPhase_life _ hp .closed) rfl (.some ⟨rfl, hxp.key, hxp.app⟩ (h.below hx))
      (h.family_phase hp (by rw [hph]; rfl) rfl) (h.queues.keep hq ..) rfl
      (.other rfl (by simp) fun y hy => by cases hy; rfl) (h.log.arm ht.1 (h.below hx) fun _ _ => by rw [TimerType.us]; decide)
  · rw [if_pos hst]
    exact Follows.refl h

theorem portFree_idem (ports : BitVec 16 → Port) (q : BitVec 16) : portFree (portFree ports q) q = portFree ports q := by
  cases hq : ports q <;> simp [portFree, hq]

theorem portFree_listeners {ports : BitVec 16 → Port} {i : BitVec 16} (j : BitVec 16) (h : (ports i).listeners ≠ []) :
    portFree ports j i = ports i := by
  unfold portFree
  cases hj : ports j with
  | conn d =>
    refine update_of_ne (fun e => ?_) ..
    rw [e, hj] at h
    exact h rfl
  | _ => rfl

theorem appifConnClosed_ends (hx : s.conns c = some x) (room : Bool) (status : Int) :
    Ends (fun e => s.apps.remove s.alive x.ctx.app c = .error e)
      (fun s' => ∃ apps out, s' = { s with apps := apps, out := out } ∧
        if room then s.apps.remove s.alive x.ctx.app c = .ok apps else apps = s.apps)
      (appifConnClosed room c status s) := by
  rw [appifConnClosed, conn_eq hx, ok_bind]
  cases room with
  | false => exact ⟨s.apps, s.out, rfl, rfl⟩
  | true =>
    exact (Ends.self (s.apps.remove s.alive x.ctx.app c)).bind fun apps hr => ⟨apps, _, rfl, hr⟩

theorem connCloseTimeout_follows {room : Bool} (h : Loose cfg s peers c x p) (hph : p.phase = .closed)
    (ht : s.timers c = none) (hP : ∀ apps v, P v (.expires c p room apps)) :
    Ends ((s.life peers).Stops cfg) (Follows cfg P (s.life peers)) (connCloseTimeout cfg room c s) := by
  have hxp := h.peerOf h.conn h.reg.1
  obtain ⟨htab, nx, e, hf⟩ := connUnregister_eq h.toSlowLife h.conn h.reg
  rw [connCloseTimeout, conn_eq h.conn, ok_bind, e, ok_bind, portFree_idem]
  have hclosed := appifConnClosed_ends (x := x)
    (s := { s with ports := portFree s.ports x.localPort, htNext := nx, hashtable := htab }) h.conn room 0
  refine (hclosed.mono (fun e he => ?_) fun _ hs => hs).bind ?_
  · refine .inr (.inr (.inr (.inl ⟨c, p, h.reg.1, hph, ?_⟩)))
    rw [hxp.app, ← h.alive_eq]
    exact he
  · rintro _ ⟨apps, out, rfl, hr⟩
    refine Follows.change (t := none) (.expires c p room apps) h.toSlowLife h.timers ⟨h.reg.1, hph, ?_⟩ (hP apps _) ?_ rfl
      .none hf (h.queues.keep h.unqueued ..) (update_eq_self_iff.mpr ht.symm).symm
      (.other rfl (by simp) (by simp)) h.log
    · rw [hxp.app, ← h.alive_eq]
      exact hr
    · simp only [Life.apply, life, hxp.key]
      rfl

theorem Phase.timer_closed {ph : Phase} (h : ph.timer = some .closed) : ph = .closed := by
  cases ph <;> simp_all [Phase.timer]

theorem Phase.timer_handshake {ph : Phase} (h : ph.timer = some .handshake) : ph = .synSent := by
  cases ph <;> simp_all [Phase.timer]

theorem Loose.slowOf (h : Loose cfg s peers c x p) (ht : s.timers c = p.phase.timer)
    (hx : s.timers c = some .handshake → cfg.HandshakeOk → x.BackedOff cfg) : SlowOf cfg s peers := by
  refine ⟨h.toSlowLife, fun d => ?_⟩
  by_cases hd : d = c
  · subst hd
    refine ⟨?_, fun y hy => ?_⟩
    · rw [ht, show peers d = some p from h.reg.1, bind_some]
    · rw [h.conn] at hy
      cases hy
      exact ⟨h.armed, hx⟩
  · exact h.timers d hd

theorem Connection.BackedOff.retried (h : x.BackedOff cfg) (hok : cfg.HandshakeOk)
    (hretry : ¬ cfg.tcpHandshakeRetries < x.toAttempts + 1) : x.retried.BackedOff cfg := by
  obtain ⟨-, hto, hatt⟩ := h.range hok
  have hadd : (x.toAttempts + 1).toNat = x.toAttempts.toNat + 1 := by bv_omega
  refine ⟨BitVec.not_lt.mp hretry, ?_⟩
  simp only [Connection.retried, hadd, Nat.shiftLeft_succ, ← h.timeout]
  bv_omega

theorem tcpTimeout_follows (h : SlowOf cfg s peers) {t : TimerType} (ht : s.timers c = some t) {room : Bool}
    (hexp : t = .closed → ∀ p apps v, P v (.expires c p room apps))
    (hfail : t = .handshake → ∀ x, s.conns c = some x → cfg.tcpHandshakeRetries < x.toAttempts + 1 →
      ∀ v, P v (.fails c .synSent room)) :
    Ends ((s.life peers).Stops cfg) (Follows cfg P (s.life peers))
      (tcpTimeout cfg c t room (s.callTimer (.expire c))) := by
  obtain ⟨p, hp, htim⟩ := bind_eq_some_iff.mp ((h.timers c).1.symm.trans ht)
  obtain ⟨x, hx, hxp⟩ := h.conn hp
  have harm : x.toArmed = true := by rw [((h.timers c).2 x hx).1, ht]; rfl
  have hph : p.phase = .closed ∨ p.phase = .synSent := by
    cases t
    · exact .inr (Phase.timer_handshake htim)
    · exact .inl (Phase.timer_closed htim)
  have hreg : (s.life peers).Registered c p := ⟨hp, by rcases hph with h | h <;> rw [h] <;> rfl⟩
  have hl := h.loose hx hreg (h.queues.not_mem_of hp (by rcases hph with h | h <;> simp [h]))
  have hlog := hl.disarmed harm (.inr rfl)
  have hconn : (s.callTimer (.expire c)).conn c = .ok x := conn_eq hx
  rw [tcpTimeout, hconn, ok_bind, if_pos harm]
  cases t with
  | closed =>
    have hx' : PeerOf { x with toArmed := false } p := { hxp with }
    exact connCloseTimeout_follows (hl.disarm hx' rfl hlog) (Phase.timer_closed htim) (update_self ..) (hexp rfl p)
  | handshake =>
    have hsent := Phase.timer_handshake htim
    have hst : x.status = .synSent := by
      have := hxp.phase
      rwa [hsent] at this
    dsimp only
    rw [if_neg (not_not.mpr hst)]
    split
    · rename_i hretry
      have hx' : PeerOf { x with toArmed := false, toAttempts := x.toAttempts + 1 } p := { hxp with }
      have hP : ∀ v, P v (.fails c p.phase room) := hsent ▸ hfail rfl x hx hretry
      exact ends_stops ((connFailed_follows (hl.disarm hx' rfl hlog) (by decide) hP).imp fun _ hf => hf.1)
    · rename_i hretry
      have hb : cfg.HandshakeOk → x.retried.BackedOff cfg := fun hok =>
        (((h.timers c).2 x hx).2 ht hok).retried hok hretry
      refine ends_stops ((connTimeoutArm_ends (x := x.retried) (setConn_conns ..) rfl fun hok =>
        ((hb hok).range hok).1).bind ?_)
      rintro _ rfl
      have hx' : PeerOf { x.retried with toArmed := true } p := { hxp with }
      have hlog' := hlog.arm (update_self ..) (h.below hx) fun hok => (hb hok).drawn hok
      rw [update_idem] at hlog'
      have hl' := hl.write (t := update s.timers c (some .handshake)) hx' (fun _ hd => update_of_ne hd ..)
        (by rw [update_self]; rfl) hlog'
      have hs := (hl'.slowOf (by rw [hsent]; exact update_self ..) fun _ hok => ⟨(hb hok).attempts, (hb hok).timeout⟩).out
      simp only [setConn, callTimer, TimerCall.after, sendControl, emit, update_idem]
      exact ⟨peers, .refl, hs _⟩

theorem connAsyncEnq_eq (hq : c ∉ s.connAsyncQ) :
    connAsyncEnq c s = .ok { s with connAsyncQ := s.connAsyncQ ++ [c] } := if_neg hq

theorem arpDone_follows (h : SlowOf cfg s peers) (hc : c ∈ s.arpWait) (status : Int) (mac : BitVec 64) :
    Ends (Stop.Benign cfg) (Follows cfg P (s.life peers)) (arpDone c status mac s) := by
  obtain ⟨hq, p, hp, hph⟩ := h.queues.waiting c hc
  obtain ⟨x, hx, hxp⟩ := h.conn hp
  have hpeers : update peers c (some p) = peers := update_eq_self_iff.mpr hp.symm
  have ht := h.timer_eq hx hp
  rw [hph] at ht
  have henq := connAsyncEnq_eq (s := { s.setConn c (x.resolved status mac) with arpWait := s.arpWait.erase c }) hq
  rw [arpDone, conn_eq hx, ok_bind, henq]
  have hw : c ∉ s.arpWait.erase c := fun hm => (h.queues.arpNodup.mem_erase_iff.mp hm).1 rfl
  have hx' : PeerOf (x.resolved status mac) p := { hxp with }
  refine ⟨peers, .refl, ⟨fun d => ?_, h.family, ?_, h.inv, h.log⟩, fun d => ?_⟩
  · have := h.block_update (.some hx' (h.below hx)) d
    rwa [hpeers] at this
  · have := ((h.queues.arpErase c).keep ⟨hq, hw⟩ (some (x.resolved status mac)) (some p)).push ⟨hq, hw⟩ (update_self ..)
      (update_self ..) (.inl hph)
    rwa [hpeers] at this
  · have := TimerOf.update (c := c) (o := some (x.resolved status mac)) (q := some p) (t := none) (fun d _ => h.timers d)
      (.other (by rw [bind_some, hph]; rfl) (by simp) fun y hy => by cases hy; exact ht.2) d
    rwa [hpeers, update_eq_self_iff.mpr ht.1.symm] at this

section

variable {room : Nat → Bool}

/-- A turn of `tcp_poll` for the oldest connection in the queue. -/
theorem tcpPollConn_follows (h : SlowOf cfg s peers) {q : List Nat} (hq : s.connAsyncQ = c :: q) (hsend : ∀ v, P v (.sends c))
    (hdel : ∀ app v, P v (.delivers c app))
    (hfail : ∀ x, s.conns c = some x → x.compStatus ≠ 0 → ∀ v, P v (.fails c .resolving (room c))) :
    Ends (Stop.Benign cfg) (fun s' => Follows cfg P (s.life peers) s' ∧ Frame c { s with connAsyncQ := q } s')
      (tcpPollConn cfg room c { s with connAsyncQ := q }) := by
  have hqs := h.queues
  rw [hq] at hqs
  obtain ⟨hqs', hc⟩ := hqs.pop
  have h' : SlowOf cfg { s with connAsyncQ := q } peers := { h with queues := hqs' }
  obtain ⟨x, p, hx, hp, hph⟩ := hqs.queued c (List.mem_cons_self ..)
  have hxp := h.peerOf hx hp
  rw [tcpPollConn, conn_eq (s := { s with connAsyncQ := q }) hx, ok_bind]
  rcases hph with hph | ⟨hph, hcomp⟩
  · have hst : x.status = .arpPending := by
      have := hxp.phase
      rwa [hph] at this
    rw [if_pos hst]
    split_ifs with hcomp
    · have hreg : (s.life peers).Registered c p := ⟨hp, by rw [hph]; rfl⟩
      exact connFailed_follows (h'.loose hx hreg hc) hcomp (hph ▸ hfail x hx hcomp)
    · exact connArpDone_follows h' hx hp hph hc hsend
  · have hst : x.status = .regSynack := by
      have := hxp.phase
      rwa [hph] at this
    rw [if_neg (by simp [hst]), if_pos hst, if_neg (not_not.mpr hcomp)]
    exact connRegSynack_follows h' hx hp hph hc (hdel _) _

/-- The loop of `tcp_poll`. A turn leaves the connections that are still in the
queue as they are. -/
theorem tcpPollTurns_follows (turns : Nat) (h : SlowOf cfg s peers) (hsend : ∀ c v, P v (.sends c))
    (hdel : ∀ c app v, P v (.delivers c app))
    (hfail : ∀ c ∈ s.connAsyncQ, ∀ x, s.conns c = some x → x.compStatus ≠ 0 → ∀ v, P v (.fails c .resolving (room c))) :
    Ends (Stop.Benign cfg) (Follows cfg P (s.life peers)) (tcpPollTurns cfg room turns s) := by
  induction turns generalizing s peers with
  | zero => trivial
  | succ turns ih =>
    rw [tcpPollTurns]
    cases hq : s.connAsyncQ with
    | nil => exact Follows.refl h
    | cons c q =>
      have hal : (c :: q).all s.alive = true := List.all_eq_true.mpr fun d hd => by
        obtain ⟨x, -, hx, -⟩ := h.queues.queued d (hq ▸ hd)
        simp [alive, hx]
      have hnd := (List.nodup_cons.mp (hq ▸ h.queues.nodup)).1
      simp only [hal, ↓reduceIte]
      refine (tcpPollConn_follows h hq (hsend c) (hdel c) (hfail c (by simp [hq]))).bind ?_
      rintro s' ⟨⟨peers', hm, hs'⟩, hfr⟩
      refine (ih hs' fun d hd x hx hcomp => ?_).imp fun _ hf => hf.after hm
      have hd : d ∈ q := by rwa [hfr.queue] at hd
      rw [hfr.conns d (ne_of_mem_of_not_mem hd hnd)] at hx
      exact hfail d (by simp [hq, hd]) x hx hcomp

end

/-! ## Packets and requests -/

/-- `conn_lookup` finds a connection in the hash table, or there is none. -/
theorem connLookup_eq (h : SlowLife cfg s peers) (k : FlowKey) : ∃ r, connLookup cfg k s = .ok r ∧
    (∀ c, r = some c → ∃ x p, s.conns c = some x ∧ (s.life peers).Registered c p ∧ connMatches k x = true) ∧
    (r = none → ∀ c p, (s.life peers).Registered c p → p.key ≠ k) := by
  obtain ⟨r, e, hsome, hnone⟩ := h.family.find h.alive_place h.turns (fun c => (s.conns c).any (connMatches k))
    (Place.bucket (htIndex cfg.crc k))
  refine ⟨r, ?_, fun c hc => ?_, fun hr c p hp hk => ?_⟩
  · simp only [heads] at e
    simp [connLookup, e]
  · obtain ⟨hpl, hm⟩ := hsome c hc
    obtain ⟨p, hp, hpl⟩ := bind_eq_some_iff.mp hpl
    obtain ⟨x, hx, -⟩ := h.conn hp
    rw [hx, any_some] at hm
    exact ⟨x, p, hx, ⟨hp, (Peer.place_bucket hpl).1⟩, hm⟩
  · obtain ⟨x, hx, hxp⟩ := h.conn hp.1
    have hpl : (peers c).bind (·.place cfg) = some (.bucket (htIndex cfg.crc k)) := by
      rw [show peers c = some p from hp.1, bind_some, Peer.place_registered hp.2, hk]
    have := hnone hr c hpl
    rw [hx, any_some] at this
    have hk' : x.key = k := hxp.key.symm.trans hk
    rw [← hk'] at this
    simp [connMatches, Connection.key] at this

def packetTo (cfg : SlowConfig) (s : Slow) (pkt : RawPkt) : Option (Nat × TcpOpts) :=
  if pkt.len.toNat < pktTcpSize ∨ RawPkt.ipDest pkt.buf ≠ cfg.ip then none
  else match parseOptions pkt.buf pkt.len, connLookup cfg (RawPkt.key pkt.buf) s with
    | .ok (some opts), .ok (some c) => some (c, opts)
    | _, _ => none

theorem tcpPacket_follows (h : SlowOf cfg s peers) (pkt : RawPkt) (fnCore : BitVec 32) (flowGroup : BitVec 16)
    {flow : Option (BitVec 32)} {room : Bool} (hconn : ∀ c v, P v (.connects c)) (hadd : ∀ c, flow = none → ∀ v, P v (.addFails c))
    (hfail : ∀ c opts x ph, packetTo cfg s pkt = some (c, opts) → s.conns c = some x →
      x.failsOn pkt.buf opts flow = true → ph.Of x.status → ∀ v, P v (.fails c ph room))
    (hstore : ∀ l v, P v (.stores l pkt.buf fnCore flowGroup)) (hpop : ∀ l v, P v (.pops l))
    (hacc : ∀ c l k v, P v (.accepts c l k flow.isSome)) :
    Ends (Stop.Benign cfg) (Follows cfg P (s.life peers)) (tcpPacket cfg pkt fnCore flowGroup flow room s) := by
  rw [tcpPacket]
  by_cases hlen : pkt.len.toNat < pktTcpSize
  · rw [if_pos hlen]
    exact Follows.refl h
  by_cases hdest : RawPkt.ipDest pkt.buf = cfg.ip
  swap
  · rw [if_neg hlen, if_pos hdest]
    exact Follows.refl h
  rw [if_neg hlen, if_neg (not_not.mpr hdest)]
  refine ((Ends.self (parseOptions pkt.buf pkt.len)).mono (fun e he => ?_) fun _ ho => ho).bind fun o ho => ?_
  · have hp : Ends (Stop.Benign cfg) (fun _ => True) (parseOptions pkt.buf pkt.len) := parseOptions_ends ..
    rwa [he] at hp
  cases o with
  | none => exact Follows.refl h
  | some opts =>
    obtain ⟨r, hr, hsome, hnone⟩ := connLookup_eq h.toSlowLife (RawPkt.key pkt.buf)
    simp only [hr, ok_bind]
    cases r with
    | some c =>
      obtain ⟨x, p, hx, hp, -⟩ := hsome c rfl
      have hto : packetTo cfg s pkt = some (c, opts) := by
        simp [packetTo, ho, hr, hlen, hdest]
      exact connPacket_follows h hx hp (hconn c) (hadd c)
        (fun hf => hfail c opts x p.phase hto hx hf (h.peerOf hx hp.1).phase) fnCore flowGroup
    | none =>
      cases hl : listenerLookup s.ports (RawPkt.key pkt.buf) with
      | some l =>
        exact listenerPacket_follows h hdest hl (hnone rfl) (hstore l) (hpop l) (fun c k => hacc c l k) opts room
      | none =>
        split_ifs
        · exact Follows.emit h _
        · exact Follows.refl h

theorem kinConnOpen_follows (h : SlowOf cfg s peers) (hm : ∀ m ∈ mem, m.1 < addresses ∧ s.conns m.1 = none)
    (hP : ∀ m ∈ mem, ∀ p v, P v (.opens m.1 p)) (ctx : AppContext) (req : ConnOpen) (route : Route) :
    Ends (Stop.Benign cfg) (Follows cfg P (s.life peers)) (kinConnOpen cfg ctx req mem route s) := by
  refine (tcpOpen_ends h hm hP ctx req route).bind fun ⟨o, s'⟩ ⟨hnone, hsome⟩ => ?_
  cases o with
  | none =>
    obtain ⟨hint, rfl⟩ := hnone rfl
    exact Follows.emit (h.hint hint) _
  | some c => exact hsome c rfl

theorem kinFind_ends (h : SlowLife cfg s peers) (ctx : AppContext) (name : ConnName) :
    Ends ((s.life peers).Stops cfg) (fun r => ∀ c, r = some c → ∃ x, s.conns c = some x) (kinFind ctx name s) := by
  refine (Ends.self (kinFind ctx name s)).mono (fun e he => ?_) fun r hr c hc => ?_
  · rw [kinFind, h.alive_eq] at he
    exact .inr (.inr (.inr (.inr ⟨_, _, he⟩)))
  · subst hc
    rw [kinFind, AppLists.search] at hr
    split at hr
    · cases hr
    · rename_i e
      cases hr
      exact isSome_iff_exists.mp (find_some e).1

theorem kinConnMove_follows (h : SlowOf cfg s peers) (ctx : AppContext) (name : ConnName) (known : Bool) :
    Ends ((s.life peers).Stops cfg) (Follows cfg P (s.life peers)) (kinConnMove ctx name known s) := by
  refine (kinFind_ends h.toSlowLife ctx name).bind fun r hr => ?_
  cases r with
  | none => exact Follows.emit h _
  | some c =>
    obtain ⟨x, hx⟩ := hr c rfl
    simp only [conn_eq hx, ok_bind]
    exact Follows.emit h _

theorem kinConnClose_follows (h : SlowOf cfg s peers) (ctx : AppContext) (name : ConnName) (nic : NicDisabled)
    (hP : ∀ c cc v, P v (.closes c cc)) :
    Ends ((s.life peers).Stops cfg) (Follows cfg P (s.life peers)) (kinConnClose ctx name nic s) := by
  refine (kinFind_ends h.toSlowLife ctx name).bind fun r hr => ?_
  cases r with
  | none => exact Follows.emit h _
  | some c =>
    obtain ⟨x, hx⟩ := hr c rfl
    refine (tcpClose_follows h hx (hP c) nic).bind fun ⟨o, s'⟩ hf => ?_
    cases o with
    | true => exact hf
    | false => exact hf.trans fun _ hs => Follows.emit hs _

theorem kinAcceptConn_follows (h : SlowOf cfg s peers) (hm : ∀ m ∈ mem, m.1 < addresses ∧ s.conns m.1 = none)
    {flow : Option (BitVec 32)} (hP : ∀ m ∈ mem, ∀ p v, P v (.waits m.1 p)) (hpop : ∀ l v, P v (.pops l))
    (hacc : ∀ c l k v, P v (.accepts c l k flow.isSome)) (ctx : AppContext) (req : AcceptConn) :
    Ends (Stop.Benign cfg) (Follows cfg P (s.life peers)) (kinAcceptConn cfg ctx req mem flow s) := by
  refine (tcpAccept_follows h hm hP hpop hacc ctx req _).bind fun ⟨o, s'⟩ hf => ?_
  cases o with
  | true => exact hf
  | false => exact hf.trans fun _ hs => Follows.emit hs _

/-! ## Steps -/

namespace SlowOp

def failing (cfg : SlowConfig) (s : Slow) : SlowOp → List Nat
  | .packet pkt _ _ flow _ => match packetTo cfg s pkt with
    | some (c, opts) => if (s.conns c).any (·.failsOn pkt.buf opts flow) then [c] else []
    | none => []
  | .tcpPoll _ => s.connAsyncQ.filter fun c => (s.conns c).any (·.compStatus ≠ 0)
  | .timeout c .handshake _ => if (s.conns c).any (cfg.tcpHandshakeRetries < ·.toAttempts + 1) then [c] else []
  | _ => []

def room : SlowOp → Nat → Bool
  | .packet _ _ _ _ room, _ => room
  | .tcpPoll room, c => room c
  | .timeout _ _ room, _ => room
  | _, _ => false

def flow : SlowOp → Bool
  | .packet _ _ _ flow _ => flow.isSome
  | .acceptConn _ _ _ flow => flow.isSome
  | _ => true

/-- The memory that a step gives to `tcp_open`. -/
def opening : SlowOp → Option Nat
  | .connOpen _ _ mem _ => mem.map (·.1)
  | _ => none

/-- The memory that a step gives to `tcp_accept`. -/
def accepting : SlowOp → Option Nat
  | .acceptConn _ _ mem _ => mem.map (·.1)
  | _ => none

def May (cfg : SlowConfig) (s : Slow) (op : SlowOp) (v : Life) : LifeEvent → Prop
  | .opens c _ => op.opening = some c
  | .waits c _ => op.accepting = some c
  | .fails c ph freed =>
    c ∈ op.failing cfg s ∧ freed = op.room c ∧ ph ≠ .synAck ∧ ∃ x, s.conns c = some x ∧ ph.Of x.status
  | .accepts _ _ _ flow => flow = op.flow
  | .addFails _ => op.flow = false
  | .expires c _ room _ => op = .timeout c .closed room
  | .stores _ b _ _ => ∃ pkt fnCore flowGroup flow room, op = .packet pkt fnCore flowGroup flow room ∧ b = pkt.buf
  | .listens l li port => ∃ ctx req bufs, op = .listenOpen ctx req (some (l, bufs)) ∧ li = req.listener ctx bufs ∧
      v.ports = s.ports ∧ v.listeners = s.listeners ∧
      (kinListenOpen ctx req (some (l, bufs)) s).ports = update s.ports li.port port
  | _ => True

end SlowOp

theorem slowCall_follows (h : SlowOf cfg s peers) {op : SlowOp} (hop : s.Enabled op) :
    Ends ((s.life peers).Stops cfg) (Follows cfg (op.May cfg s) (s.life peers)) (slowCall cfg s op) := by
  cases op with
  | connOpen ctx req mem route =>
    exact ends_stops (kinConnOpen_follows h hop (fun m hm _ _ => congrArg (Option.map (·.1)) hm) ctx req route)
  | connMove ctx name known => exact kinConnMove_follows h ctx name known
  | connClose ctx name nic => exact kinConnClose_follows h ctx name nic fun _ _ _ => trivial
  | listenOpen ctx req mem =>
    exact kinListenOpen_follows h hop ctx req fun l bufs port e hports =>
      ⟨ctx, req, bufs, by rw [e], rfl, rfl, rfl, e ▸ hports⟩
  | acceptConn ctx req mem flow =>
    exact ends_stops (kinAcceptConn_follows h hop (fun m hm _ _ => congrArg (Option.map (·.1)) hm) (fun _ _ => trivial)
      (fun _ _ _ _ => rfl) ctx req)
  | packet pkt fnCore flowGroup flow room =>
    refine ends_stops (tcpPacket_follows h pkt fnCore flowGroup (fun _ _ => trivial) (fun c hf v => ?_)
      (fun c opts x ph hto hx hf hph v => ?_) (fun l v => ⟨pkt, fnCore, flowGroup, flow, room, rfl, rfl⟩)
      (fun _ _ => trivial) fun _ _ _ _ => rfl)
    · rw [hf]
      rfl
    · refine ⟨?_, rfl, fun e => ?_, x, hx, hph⟩
      · simp [SlowOp.failing, hto, hx, hf]
      · have hst : x.status = .regSynack := by rwa [e] at hph
        simp [Connection.failsOn, hst] at hf
  | arpDone c status mac => exact ends_stops (arpDone_follows h hop status mac)
  | tcpPoll room =>
    refine ends_stops (tcpPollTurns_follows _ h (fun _ _ => trivial) (fun _ _ _ => trivial) fun c hc x hx hcomp v => ?_)
    refine ⟨?_, rfl, by simp, x, hx, ?_⟩
    · simp [SlowOp.failing, hc, hx, hcomp]
    · obtain ⟨y, p, hy, hp, hph⟩ := h.queues.queued c hc
      rw [hx] at hy
      cases hy
      have hph : p.phase = .resolving := hph.resolve_right fun hs => hcomp hs.2
      exact hph ▸ (h.peerOf hx hp).phase
  | timeout c t room =>
    refine tcpTimeout_follows h hop (fun ht p apps v => by rw [ht]; rfl) fun ht x hx hr v => ?_
    subst ht
    refine ⟨?_, rfl, by simp, x, hx, ?_⟩
    · simpa [SlowOp.failing, hx] using hr
    · obtain ⟨p, hp, htim⟩ := bind_eq_some_iff.mp ((h.timers c).1.symm.trans hop)
      exact Phase.timer_handshake htim ▸ (h.peerOf hx hp).phase
  | ccPoll =>
    rw [slowCall, h.alive_eq]
    refine ((Ends.self (s.cc.poll (s.life peers).alive)).mono (fun e he => .inr (.inr (.inl he)))
      fun _ hcc => hcc).bind fun cc hcc => ?_
    have hg : (s.life peers).Guard cfg (.ccPolls cc) := hcc
    exact ⟨peers, .single ⟨.ccPolls cc, hg, trivial, rfl⟩, { h with inv := Life.apply_inv h.inv hg }⟩

/-! ## Runs -/

instance Slow.decEnabled (s : Slow) (op) : Decidable (s.Enabled op) := by
  induction op using SlowOp.casesOn <;> dsimp only [Slow.Enabled] <;> infer_instance

/-- The environment can do the step, and it meets `C`. -/
def SlowOk (C : Slow → SlowOp → Prop) : SlowProc → SlowOp → Prop
  | .ok s, op => s.Enabled op ∧ C s op
  | .error _, _ => True

instance SlowOk.dec {C : Slow → SlowOp → Prop} [∀ s op, Decidable (C s op)] : ∀ r op, Decidable (SlowOk C r op)
  | .ok s, op => inferInstanceAs (Decidable (s.Enabled op ∧ C s op))
  | .error _, _ => isTrue trivial

theorem slowInit_of (hint : BitVec 16) : SlowOf cfg (slowInit hint) fun _ => none := by
  refine ⟨⟨fun _ => .none, ⟨fun i => ⟨[], ?_, by simp⟩⟩, ⟨.nil, .nil, by simp [slowInit], by simp [slowInit]⟩, ?_, .nil⟩,
    fun c => .other rfl (by simp [slowInit]) (by simp [slowInit])⟩
  · cases i <;> rfl
  · exact ⟨⟨nofun, nofun, nofun, nofun, nofun⟩, nofun, nofun⟩

/-- What every event of a step keeps holds after it, and the process stops only as
it allows. -/
theorem slowCall_inv {J : Life → Prop} (h : SlowOf cfg s peers) {op : SlowOp} (hop : s.Enabled op) (hJ : J (s.life peers))
    (hstep : ∀ v e, LifeInv cfg v → J v → v.Guard cfg e → op.May cfg s v e → J (v.apply e)) :
    Ends (fun e => ∃ v, LifeInv cfg v ∧ J v ∧ v.Stops cfg e) (fun s' => ∃ peers', SlowOf cfg s' peers' ∧ J (s'.life peers'))
      (slowCall cfg s op) := by
  refine (slowCall_follows h hop).mono (fun e he => ⟨_, h.inv, hJ, he⟩) ?_
  rintro s' ⟨peers', hm, hs'⟩
  -- along the events of the step
  suffices hv : ∀ v, ReflTransGen (Life.Moves cfg (op.May cfg s)) (s.life peers) v → LifeInv cfg v ∧ J v from
    ⟨peers', hs', (hv _ hm).2⟩
  intro v hv
  induction hv with
  | refl => exact ⟨h.inv, hJ⟩
  | tail _ hmove ih =>
    obtain ⟨e, hg, hmay, rfl⟩ := hmove
    exact ⟨Life.apply_inv ih.1 hg, hstep _ e ih.1 ih.2 hg hmay⟩

/-- What every event keeps that can happen in a step with `C` holds in every state
that is reached. -/
theorem slowRun_inv {J : Life → Prop} {C : Slow → SlowOp → Prop} {hint : BitVec 16}
    (hinit : J ((slowInit hint).life fun _ => none))
    (hstep : ∀ s op v e, C s op → LifeInv cfg v → J v → v.Guard cfg e → op.May cfg s v e → J (v.apply e))
    {ops : List SlowOp} (hops : Run.All (slowStep cfg) (SlowOk C) (.ok (slowInit hint)) ops) {r : SlowProc}
    (hr : Run.exec (slowStep cfg) (.ok (slowInit hint)) ops = some r) :
    Ends (fun e => ∃ v, LifeInv cfg v ∧ J v ∧ v.Stops cfg e) (fun s => ∃ peers, SlowOf cfg s peers ∧ J (s.life peers)) r := by
  refine exec_inv (fun r op r' hI hok hs => ?_) ?_ hops hr
  · cases r with
    | error e => cases hs
    | ok s =>
      cases hs
      obtain ⟨peers, h, hJ⟩ := hI
      exact slowCall_inv h hok.1 hJ fun v e => hstep s op v e hok.2
  · exact ⟨_, slowInit_of hint, hinit⟩

/-! Inputs for runs on fixed values. -/

def Connection.zeroed : Connection where
  opq := 0
  ctx := ⟨0, 0⟩
  dbId := 0
  remoteMac := 0
  remoteIp := 0
  localIp := 0
  remotePort := 0
  localPort := 0
  status := .synWait
  remoteSeq := 0
  localSeq := 0
  synTs := 0
  timeout := 0
  toAttempts := 0
  toArmed := false
  compStatus := 0
  flowId := 0
  fnCore := 0
  flags := 0
  flowGroup := 0

/-- A host with address 0. All connections are in one chain of its hash table. -/
def SlowConfig.plain : SlowConfig where
  ip := 0
  tcpHandshakeTo := 10
  tcpHandshakeRetries := 2
  kniName := false
  crc := ⟨fun _ _ => 0, fun _ _ => 0, fun _ _ => 0⟩

/-- A packet from address 0, with or without a timestamp. -/
def RawPkt.plain (src dest : BitVec 16) (flags : BitVec 8) (ts : Bool) : RawPkt where
  buf i :=
    if i = 17 then (if ts then 52 else 40)
    else if i = 34 then src.extractLsb' 8 8
    else if i = 35 then src.extractLsb' 0 8
    else if i = 36 then dest.extractLsb' 8 8
    else if i = 37 then dest.extractLsb' 0 8
    else if i = 46 then (if ts then 0x80 else 0x50)
    else if i = 47 then flags
    else if i = 54 then 8
    else if i = 55 then 10
    else 0
  len := if ts then 66 else 54

/-! ## Refinement -/

/-- Events lead from the start to the state of the process, or to one where it may stop. -/
def SlowProc.Refines (cfg : SlowConfig) (hint : BitVec 16) : SlowProc → Prop :=
  let reached := ReflTransGen (Life.Moves cfg fun _ _ => True) ((slowInit hint).life fun _ => none)
  Ends (fun e => ∃ v, LifeInv cfg v ∧ reached v ∧ v.Stops cfg e) fun s => ∃ peers, SlowOf cfg s peers ∧ reached (s.life peers)

theorem slow_refines_life {hint : BitVec 16} {ops : List SlowOp}
    (hops : Run.All (slowStep cfg) (SlowOk fun _ _ => True) (.ok (slowInit hint)) ops) {r : SlowProc}
    (hr : Run.exec (slowStep cfg) (.ok (slowInit hint)) ops = some r) : r.Refines cfg hint := by
  refine slowRun_inv (J := ReflTransGen (Life.Moves cfg fun _ _ => True) _) .refl ?_ hops hr
  intro s op v e _ _ hv hg _
  exact hv.tail ⟨e, hg, trivial, rfl⟩

/-- A SYN is sent and answered. -/
theorem slow_refines_life_connected : ∃ r, Run.exec (slowStep .plain) (.ok (slowInit 8192))
    [.connOpen ⟨0, 0⟩ ⟨1, 0, 80⟩ (some (7, .zeroed)) (.found 0), .packet (.plain 80 8192 0x12 true) 0 0 (some 3) true] =
      some r ∧ r.Refines .plain 8192 := by
  exact Run.exists_exec (by decide +kernel) fun r hr => slow_refines_life (by decide +kernel) hr

end TasNic
