import TasNic.Slow.TcpSteps

/-!
# The table of ports

An entry of the table is for a connection if `tcp_open` gave the port to it. Every event keeps that
(`PortTable.apply`) but one: `conn_failed` leaves the entry of a connection that is dead. Nothing in a
connection tells whether it was opened or accepted, so a run carries a record of it (`openedStep`).

What a step makes of an entry is in `PortChange`: a port is given back by the step that ends its connection.
-/

namespace TasNic

open Function Run Option

/-- The connections that were opened, after a step. The others were accepted. -/
def SlowOp.opened (op : SlowOp) (act : Nat → Bool) (c : Nat) : Bool :=
  if op.opening = some c then true else if op.accepting = some c then false else act c

/-- A step of the process, with a record of the connections that were opened. -/
def openedStep (cfg : SlowConfig) : (Nat → Bool) × SlowProc → SlowOp → Option ((Nat → Bool) × SlowProc)
  | (_, .error _), _ => none
  | (act, .ok s), op => some (op.opened act, slowCall cfg s op)

/-! ## Events -/

/-- The entries for connections are the ports of those that were opened, none of which
has failed, and an accepted connection has the port of a listener. -/
structure PortTable (act : Nat → Bool) (v : Life) : Prop where
  conn : ∀ i c, v.ports i = .conn c ↔ act c = true ∧ (v.peers c).map (·.key.localPort) = some i
  accepted : ∀ c p, v.peers c = some p → act c = false → (v.ports p.key.localPort).listeners ≠ []
  registered : ∀ c p, v.peers c = some p → act c = true → p.phase.registered = true

variable {cfg : SlowConfig} {v v' : Life} {act : Nat → Bool} {c : Nat} {p : Peer}

theorem portFree_eq_self {ports : BitVec 16 → Port} {i : BitVec 16} (h : (ports i).listeners ≠ []) : portFree ports i = ports := by
  unfold portFree
  cases hi : ports i with
  | conn c =>
    rw [hi] at h
    exact absurd rfl h
  | _ => rfl

namespace PortTable

variable (h : PortTable act v)

include h

theorem change {o : Option Peer} (hports : v'.ports = v.ports) (hpeers : v'.peers = update v.peers c o)
    (hkeep : act c = true → o.map (·.key.localPort) = (v.peers c).map (·.key.localPort))
    (hacc : ∀ q, o = some q → act c = false → (v.ports q.key.localPort).listeners ≠ [])
    (hreg : ∀ q, o = some q → act c = true → q.phase.registered = true) : PortTable act v' := by
  refine ⟨fun i d => ?_, fun d q hq ha => ?_, fun d q hq ha => ?_⟩
  · rw [hports, hpeers, h.conn]
    by_cases hd : d = c
    · subst hd
      rw [update_self]
      exact and_congr_right fun ha => by rw [hkeep ha]
    · rw [update_of_ne hd]
  · rw [hports]
    rw [hpeers] at hq
    rcases update_cases hq with ⟨rfl, e⟩ | ⟨-, hq⟩
    · exact hacc q e ha
    · exact h.accepted d q hq ha
  · rw [hpeers] at hq
    rcases update_cases hq with ⟨rfl, e⟩ | ⟨-, hq⟩
    · exact hreg q e ha
    · exact h.registered d q hq ha

theorem gone (hports : v'.ports = v.ports) (hpeers : v'.peers = update v.peers c none)
    (ha : act c = false) : PortTable act v' :=
  h.change hports hpeers (by simp [ha]) (by simp) (by simp)

theorem setPhase {ph : Phase} (hp : v.peers c = some p) (hports : v'.ports = v.ports)
    (hpeers : v'.peers = (v.setPhase c ph).peers) (hph : ph.registered = true) : PortTable act v' := by
  have hset : v'.peers = update v.peers c (some { p with phase := ph }) := by
    rw [hpeers, Life.setPhase, hp, map_some]
  refine h.change hports hset (fun _ => by rw [hp]; rfl) (fun q hq ha => ?_) fun q hq _ => ?_
  · cases hq
    exact h.accepted c p hp ha
  · cases hq
    exact hph

theorem congr (hports : v'.ports = v.ports) (hpeers : v'.peers = v.peers) : PortTable act v' := by
  refine ⟨?_, ?_, ?_⟩
  · rw [hports, hpeers]
    exact h.conn
  · rw [hports, hpeers]
    exact h.accepted
  · rw [hpeers]
    exact h.registered

theorem opens (hg : v.Guard cfg (.opens c p)) (ha : act c = true) :
    PortTable act (v.apply (.opens c p)) := by
  obtain ⟨hnone, -, hph, -, hport⟩ := hg
  refine ⟨fun i d => ?_, fun d q hq had => ?_, fun d q hq had => ?_⟩
  · simp only [Life.apply, Life.setPeer]
    by_cases hi : i = p.key.localPort
    · subst hi
      rw [update_self]
      by_cases hd : d = c
      · subst hd
        simp [ha]
      · have hnot := h.conn p.key.localPort d
        rw [hport] at hnot
        rw [update_of_ne hd, ← hnot]
        simp [Ne.symm hd]
    · rw [update_of_ne hi, h.conn]
      by_cases hd : d = c
      · subst hd
        simp [hnone, Ne.symm hi]
      · rw [update_of_ne hd]
  · simp only [Life.apply, Life.setPeer] at hq ⊢
    by_cases hd : d = c
    · rw [hd, ha] at had
      cases had
    · rw [update_of_ne hd] at hq
      have hne := h.accepted d q hq had
      rwa [update_of_ne fun e => hne (by rw [e, hport]; rfl)]
  · rcases update_cases hq with ⟨-, hq⟩ | ⟨-, hq⟩
    · cases hq
      rcases hph with hph | hph <;> rw [hph] <;> rfl
    · exact h.registered d q hq had

theorem listens {l : Nat} {li : Listener} {port : Port} (hg : v.Guard cfg (.listens l li port)) :
    PortTable act (v.apply (.listens l li port)) := by
  obtain ⟨-, -, -, hg⟩ := hg
  have hold : ∀ c, v.ports li.port ≠ .conn c := by
    rcases hg with ⟨e, -⟩ | ⟨ls, e, -⟩ <;> simp [e]
  have hnew : port.listeners ≠ [] ∧ ∀ c, port ≠ .conn c := by
    rcases hg with ⟨-, rfl | rfl⟩ | ⟨ls, -, rfl⟩ <;> simp [Port.listeners]
  refine ⟨fun i c => ?_, fun c q hq ha => ?_, h.registered⟩
  · simp only [Life.apply]
    rw [← h.conn i c]
    by_cases hi : i = li.port
    · subst hi
      rw [update_self]
      exact iff_of_false (hnew.2 c) (hold c)
    · rw [update_of_ne hi]
  · simp only [Life.apply] at hq ⊢
    by_cases hi : q.key.localPort = li.port
    · rw [hi, update_self]
      exact hnew.1
    · rw [update_of_ne hi]
      exact h.accepted c q hq ha

theorem expires {room : Bool} {apps : AppLists} (hg : v.Guard cfg (.expires c p room apps)) :
    PortTable act (v.apply (.expires c p room apps)) := by
  obtain ⟨hp, -, -⟩ := hg
  cases ha : act c with
  | false => exact h.gone (portFree_eq_self (h.accepted c p hp ha)) rfl ha
  | true =>
    have hport : v.ports p.key.localPort = .conn c := (h.conn _ c).mpr ⟨ha, by rw [hp, map_some]⟩
    refine ⟨fun i d => ?_, fun d q hq had => ?_, fun d q hq had => ?_⟩
    · simp only [Life.apply, portFree, hport]
      by_cases hd : d = c
      · -- no entry is left
        subst hd
        rw [update_self, map_none]
        refine iff_of_false (fun e => ?_) (by simp)
        by_cases hi : i = p.key.localPort
        · rw [hi, update_self] at e
          cases e
        · rw [update_of_ne hi, h.conn, hp, map_some, some.injEq] at e
          exact hi e.2.symm
      · rw [update_of_ne hd, ← h.conn]
        by_cases hi : i = p.key.localPort
        · subst hi
          rw [update_self, hport]
          simp [Ne.symm hd]
        · rw [update_of_ne hi]
    · have hd : d ≠ c := fun e => by simp [e, ha] at had
      simp only [Life.apply, update_of_ne hd] at hq ⊢
      rw [portFree_listeners _ (h.accepted d q hq had)]
      exact h.accepted d q hq had
    · by_cases hd : d = c
      · simp [Life.apply, hd] at hq
      · simp only [Life.apply, update_of_ne hd] at hq
        exact h.registered d q hq had

/-- The events that go with the record, and no failure of a connection that was opened. -/
def Event (act : Nat → Bool) : LifeEvent → Prop
  | .opens c _ => act c = true
  | .waits c _ => act c = false
  | .fails c _ _ => act c = false
  | _ => True

/-- Every such event keeps the table in order. -/
theorem apply {e : LifeEvent} (hinv : LifeInv cfg v) (hg : v.Guard cfg e) (he : Event act e) :
    PortTable act (v.apply e) := by
  cases e with
  | waits c p =>
    obtain ⟨-, -, l, li, hph, hli, hport⟩ := hg
    have ha : act c = false := he
    refine h.change rfl rfl (by simp [ha]) (fun q hq _ => ?_) (by simp [ha])
    cases hq
    rw [hport]
    exact List.ne_nil_of_mem (hinv.listenerOf l li hli)
  | opens c p => exact h.opens hg he
  | sends c =>
    obtain ⟨p, hp, -⟩ := hg
    exact h.setPhase hp rfl rfl rfl
  | listens l li port => exact h.listens hg
  | accepts c l k flow =>
    obtain ⟨p, li, hp, hph, hli, -, rfl⟩ := hg
    have ha : act c = false := Bool.eq_false_iff.mpr fun ha => by
      have := h.registered c p hp ha
      rw [hph] at this
      cases this
    refine h.change rfl rfl (by simp [ha]) (fun q hq _ => ?_) (by simp [ha])
    obtain ⟨p', -, rfl⟩ := map_eq_some_iff.mp hq
    exact List.ne_nil_of_mem (hinv.listenerOf l li hli)
  | connects c =>
    obtain ⟨p, hp, -⟩ := hg
    exact h.setPhase hp rfl rfl rfl
  | fails c ph freed =>
    obtain ⟨p, hp, -⟩ := hg
    have ha : act c = false := he
    cases freed with
    | true => exact h.gone rfl rfl ha
    | false =>
      refine h.change rfl rfl (by simp [ha]) (fun q hq _ => ?_) (by simp [ha])
      rw [hp.1] at hq
      cases hq
      exact h.accepted c p hp.1 ha
  | delivers c app =>
    obtain ⟨p, hp, -⟩ := hg
    exact h.setPhase hp rfl rfl rfl
  | closes c cc =>
    obtain ⟨p, hp, -⟩ := hg
    exact h.setPhase hp rfl rfl rfl
  | expires c p room apps => exact h.expires hg
  | _ => exact h.congr rfl rfl

end PortTable

/-! ## Steps -/

variable {s s' : Slow} {peers : Nat → Option Peer} {op : SlowOp}

/-- What a step makes of an entry. -/
inductive PortChange (op : SlowOp) (old new : Port) : Prop where
  | kept (h : new = old)
  | opened {c : Nat} (hold : old = .unused) (hop : op.opening = some c) (hnew : new = .conn c)
  | listened {ctx : AppContext} {req : ListenOpen} {mem : Option (Nat × (Nat → BacklogSlot))} (hold : ∀ c, old ≠ .conn c)
    (hop : op = .listenOpen ctx req mem)
  | freed {c : Nat} {room : Bool} (hop : op = .timeout c .closed room) (hnew : new = .unused)

theorem PortChange.apply {e : LifeEvent} (hg : v.Guard cfg e) (he : op.May cfg s v e)
    (h : ∀ i, PortChange op (s.ports i) (v.ports i)) (i : BitVec 16) : PortChange op (s.ports i) ((v.apply e).ports i) := by
  cases e with
  | opens c p =>
    obtain ⟨-, -, -, -, hport⟩ := hg
    have hop : op.opening = some c := he
    by_cases hi : i = p.key.localPort
    · subst hi
      refine .opened ?_ hop (update_self ..)
      -- nothing else was done in the step
      cases h p.key.localPort with
      | kept h => rw [← h, hport]
      | opened _ _ hnew => rw [hnew] at hport; cases hport
      | listened _ e => subst e; cases hop
      | freed e _ => subst e; cases hop
    · show PortChange op _ (update v.ports p.key.localPort (.conn c) i)
      rw [update_of_ne hi]
      exact h i
  | listens l li port =>
    obtain ⟨ctx, req, bufs, hop, -, hports, -⟩ := he
    obtain ⟨-, -, -, hg⟩ := hg
    by_cases hi : i = li.port
    · subst hi
      refine .listened (fun c => ?_) hop
      rw [← hports]
      rcases hg with ⟨e, -⟩ | ⟨ls, e, -⟩ <;> simp [e]
    · show PortChange op _ (update v.ports li.port port i)
      rw [update_of_ne hi]
      exact h i
  | expires c p room apps =>
    have hop : op = .timeout c .closed room := he
    show PortChange op _ (portFree v.ports p.key.localPort i)
    unfold portFree
    cases v.ports p.key.localPort with
    | conn d =>
      by_cases hi : i = p.key.localPort
      · exact .freed hop (hi ▸ update_self ..)
      · simp only [update_of_ne hi]
        exact h i
    | _ => exact h i
  | fails c ph freed => cases freed <;> exact h i
  | _ => exact h i

/-- The connection is there and has not failed. -/
def Slow.Live (s : Slow) (c : Nat) (x : Connection) : Prop := s.conns c = some x ∧ x.status ≠ .failed

structure PortsSound (act : Nat → Bool) (s : Slow) : Prop where
  conn : ∀ i c, s.ports i = .conn c ↔ act c = true ∧ ∃ x, s.Live c x ∧ x.localPort = i
  accepted : ∀ c x, s.conns c = some x → act c = false → portFree s.ports x.localPort = s.ports

/-- A connection that was opened gives its port back in the step that ends it, and an
open that fails takes none. -/
structure PortsBack (act : Nat → Bool) (s : Slow) (op : SlowOp) (s' : Slow) : Prop where
  closed : ∀ c x, act c = true → s.Live c x → (∀ y, ¬ s'.Live c y) → s'.ports x.localPort = .unused
  failed : ∀ ctx req mem route, op = .connOpen ctx req mem route →
    (∀ c y, op.opening = some c → ¬ s'.Live c y) → s'.ports = s.ports

theorem Phase.not_of_failed {ph : Phase} (h : ph.registered = true) : ¬ ph.Of .failed := by
  cases ph <;> simp_all [Phase.Of, Phase.registered]

theorem PortTable.live (hs : SlowOf cfg s peers) (h : PortTable act (s.life peers)) (ha : act c = true) (i : BitVec 16) :
    (peers c).map (·.key.localPort) = some i ↔ ∃ x, s.Live c x ∧ x.localPort = i := by
  rw [map_eq_some_iff]
  constructor
  · rintro ⟨p, hp, e⟩
    obtain ⟨x, hx, hxp⟩ := hs.conn hp
    rw [hxp.key] at e
    exact ⟨x, ⟨hx, fun hf => Phase.not_of_failed (h.registered c p hp ha) (hf ▸ hxp.phase)⟩, e⟩
  · rintro ⟨x, ⟨hx, -⟩, e⟩
    obtain ⟨p, hp, hxp⟩ := hs.peer hx
    exact ⟨p, hp, by rw [hxp.key]; exact e⟩

theorem PortTable.sound (hs : SlowOf cfg s peers) (h : PortTable act (s.life peers)) :
    PortsSound act s where
  conn i c := (h.conn i c).trans (and_congr_right fun ha => h.live hs ha i)
  accepted c x hx ha := by
    obtain ⟨p, hp, hxp⟩ := hs.peer hx
    have hne := h.accepted c p hp ha
    rw [hxp.key] at hne
    exact portFree_eq_self hne

theorem PortsSound.back {act' : Nat → Bool} (h : PortsSound act s) (h' : PortsSound act' s')
    (hch : ∀ i, PortChange op (s.ports i) (s'.ports i)) : PortsBack act s op s' where
  closed c x ha hx hgone := by
    have hold : s.ports x.localPort = .conn c := (h.conn _ c).mpr ⟨ha, x, hx, rfl⟩
    cases hch x.localPort with
    | kept e =>
      obtain ⟨-, y, hy, -⟩ := (h'.conn _ c).mp (e.trans hold)
      exact absurd hy (hgone y)
    | opened e => rw [hold] at e; cases e
    | listened e => exact absurd hold (e c)
    | freed _ e => exact e
  failed ctx req mem route hop hgone := by
    funext i
    cases hch i with
    | kept e => exact e
    | opened _ ho e =>
      obtain ⟨-, y, hy, -⟩ := (h'.conn i _).mp e
      exact absurd hy (hgone _ y ho)
    | listened _ e => rw [hop] at e; cases e
    | freed e => rw [hop] at e; cases e

/-! ## Runs -/

/-- The environment can do the step, and no connection that was opened fails in it. -/
def OpenedOk (cfg : SlowConfig) : (Nat → Bool) × SlowProc → SlowOp → Prop
  | (act, .ok s), op => s.Enabled op ∧ ∀ c ∈ op.failing cfg s, act c = false
  | (_, .error _), _ => True

instance OpenedOk.dec (cfg : SlowConfig) : ∀ r op, Decidable (OpenedOk cfg r op)
  | (_, .ok _), _ => inferInstanceAs (Decidable (_ ∧ _))
  | (_, .error _), _ => isTrue trivial

theorem SlowOp.opening_fresh (h : s.Enabled op) (hc : op.opening = some c ∨ op.accepting = some c) :
    s.conns c = none := by
  cases op with
  | connOpen ctx req mem route =>
    obtain ⟨m, hm, rfl⟩ := map_eq_some_iff.mp (hc.resolve_right nofun)
    exact (h m hm).2
  | acceptConn ctx req mem flow =>
    obtain ⟨m, hm, rfl⟩ := map_eq_some_iff.mp (hc.resolve_left nofun)
    exact (h m hm).2
  | _ => rcases hc with hc | hc <;> cases hc

theorem PortTable.record (hs : SlowOf cfg s peers) (h : PortTable act (s.life peers)) (hop : s.Enabled op) :
    PortTable (op.opened act) (s.life peers) := by
  have hsame : ∀ c p, peers c = some p → op.opened act c = act c := by
    intro c p hp
    obtain ⟨x, hx, -⟩ := hs.conn hp
    have hnot : ∀ hc : op.opening = some c ∨ op.accepting = some c, False := fun hc => by
      rw [SlowOp.opening_fresh hop hc] at hx
      cases hx
    rw [SlowOp.opened, if_neg (hnot ∘ .inl), if_neg (hnot ∘ .inr)]
  refine ⟨fun i c => ?_, fun c p hp ha => ?_, fun c p hp ha => ?_⟩
  · rw [h.conn]
    cases hp : peers c with
    | none => simp [Slow.life, hp]
    | some p => rw [hsame c p hp]
  · exact h.accepted c p hp (hsame c p hp ▸ ha)
  · exact h.registered c p hp (hsame c p hp ▸ ha)

theorem PortTable.event {e : LifeEvent} (hok : OpenedOk cfg (act, .ok s) op) (he : op.May cfg s v e) :
    PortTable.Event (op.opened act) e := by
  cases e with
  | opens c p => exact if_pos he
  | waits c p =>
    have hne : op.opening ≠ some c := fun ho => by
      cases op <;> first | cases ho | cases he
    exact (if_neg hne).trans (if_pos he)
  | fails c ph freed =>
    obtain ⟨hc, -⟩ := he
    have hact := hok.2 c hc
    have hno : op.opening ≠ some c ∧ op.accepting ≠ some c := by
      cases op with
      | connOpen ctx req mem route => cases hc
      | acceptConn ctx req mem flow => cases hc
      | _ => simp [SlowOp.opening, SlowOp.accepting]
    exact (if_neg hno.1).trans ((if_neg hno.2).trans hact)
  | _ => trivial

def PortsKept (cfg : SlowConfig) : (Nat → Bool) × SlowProc → Prop
  | (act, .ok s) => ∃ peers, SlowOf cfg s peers ∧ PortTable act (s.life peers)
  | (_, .error _) => True

/-- The ports that a step gives back. -/
def StepBack (cfg : SlowConfig) : (Nat → Bool) × SlowProc → SlowOp → Prop
  | (act, .ok s), op => ∀ s', slowCall cfg s op = .ok s' → PortsBack act s op s'
  | (_, .error _), _ => True

theorem openedStep_kept (q : (Nat → Bool) × SlowProc) (op : SlowOp) (h : PortsKept cfg q) (hok : OpenedOk cfg q op) :
    StepBack cfg q op ∧ ∀ q', openedStep cfg q op = some q' → PortsKept cfg q' := by
  obtain ⟨act, _ | s⟩ := q
  · exact ⟨trivial, nofun⟩
  obtain ⟨peers, hs, hP⟩ := h
  have hstep := slowCall_inv (J := fun v => PortTable (op.opened act) v ∧ ∀ i, PortChange op (s.ports i) (v.ports i)) hs hok.1
    ⟨hP.record hs hok.1, fun _ => .kept rfl⟩ fun v e hinv hv hg he =>
      ⟨hv.1.apply hinv hg (PortTable.event hok he), PortChange.apply hg he hv.2⟩
  constructor
  · intro s' e
    rw [e] at hstep
    obtain ⟨peers', hs', hP', hch⟩ := hstep
    exact (hP.sound hs).back (hP'.sound hs') hch
  · rintro q' ⟨⟩
    cases e : slowCall cfg s op with
    | error _ => trivial
    | ok s' =>
      rw [e] at hstep
      obtain ⟨peers', hs', hP', -⟩ := hstep
      exact ⟨peers', hs', hP'⟩

theorem port_table_exact {hint : BitVec 16} {ops : List SlowOp}
    (hops : Run.All (openedStep cfg) (OpenedOk cfg) (fun _ => false, .ok (slowInit hint)) ops) :
    Run.All (openedStep cfg) (StepBack cfg) (fun _ => false, .ok (slowInit hint)) ops ∧
      ∀ q, Run.exec (openedStep cfg) (fun _ => false, .ok (slowInit hint)) ops = some q →
        Ends (fun _ => True) (PortsSound q.1) q.2 := by
  have hinit : PortsKept cfg (fun _ => false, .ok (slowInit hint)) :=
    ⟨_, slowInit_of hint, ⟨by simp [slowInit, Slow.life], nofun, nofun⟩⟩
  refine ⟨.of_inv openedStep_kept hinit hops, fun q hq => ?_⟩
  have hrun := exec_inv (fun q op q' hI hok => (openedStep_kept q op hI hok).2 q') hinit hops hq
  obtain ⟨act, _ | s⟩ := q
  · trivial
  · obtain ⟨peers, hs, hP⟩ := hrun
    exact hP.sound hs

/-- A connection is opened, and another accepted; the first is closed and freed, and
its memory used again for one whose address is found later. -/
def twoConnections : List SlowOp :=
  [.connOpen ⟨0, 0⟩ ⟨1, 0, 80⟩ (some (7, .zeroed)) (.found 0), .packet (.plain 80 8192 0x12 true) 0 0 (some 3) true,
    .listenOpen ⟨0, 0⟩ ⟨2, 90, 4, false⟩ (some (0, fun _ => ⟨fun _ => 0, 0⟩)), .packet (.plain 81 90 0x02 true) 0 0 (some 4) true,
    .acceptConn ⟨0, 0⟩ ⟨2, 3, 90⟩ (some (8, .zeroed)) (some 4), .tcpPoll fun _ => true,
    .connClose ⟨0, 0⟩ ⟨1, ⟨0, 0, 8192, 80⟩⟩ ⟨0, 0, true, true⟩, .timeout 7 .closed true,
    .connOpen ⟨0, 0⟩ ⟨1, 0, 80⟩ (some (7, .zeroed)) .pending, .arpDone 7 0 0, .tcpPoll fun _ => false]

theorem port_table_exact_two_connections :
    Run.All (openedStep .plain) (StepBack .plain) (fun _ => false, .ok (slowInit 8192)) twoConnections ∧
      ∃ q, Run.exec (openedStep .plain) (fun _ => false, .ok (slowInit 8192)) twoConnections = some q ∧
        Ends (fun _ => True) (PortsSound q.1) q.2 := by
  have hops : Run.All (openedStep .plain) (OpenedOk .plain) (fun _ => false, .ok (slowInit 8192)) twoConnections := by
    decide +kernel
  have h := port_table_exact hops
  exact ⟨h.1, Run.exists_exec (by decide +kernel) h.2⟩

/-- The first ephemeral port is for freed memory. -/
def portDangles (s : Slow) : Prop := s.ports 8192 = .conn 7 ∧ s.conns 7 = none
deriving Decidable

theorem PortsSound.not_dangles (h : PortsSound act s) : ¬ portDangles s := by
  rintro ⟨hport, hnone⟩
  obtain ⟨-, x, ⟨hx, -⟩, -⟩ := (h.conn 8192 7).mp hport
  rw [hnone] at hx
  cases hx

/-- The address of a new connection is not found: the connection is freed, and its
port is never given back. -/
theorem port_table_dangles :
    ¬ ∀ (cfg : SlowConfig) (hint : BitVec 16) (ops : List SlowOp),
      Run.All (slowStep cfg) (SlowOk fun _ _ => True) (.ok (slowInit hint)) ops →
      ∀ q, Run.exec (openedStep cfg) (fun _ => false, .ok (slowInit hint)) ops = some q →
        Ends (fun _ => True) (PortsSound q.1) q.2 := by
  intro h
  have hq := h .plain 8192 [.connOpen ⟨0, 0⟩ ⟨1, 0, 80⟩ (some (7, .zeroed)) .pending, .arpDone 7 (-1) 0,
    .tcpPoll fun _ => true] (by decide +kernel)
  exact Run.not_forall_exec (P := fun q => Ends (fun _ => True) (fun s => ¬ portDangles s) q.2) (by decide +kernel)
    fun q hs => (hq q hs).mono (fun _ _ => trivial) fun _ hs => hs.not_dangles

end TasNic
