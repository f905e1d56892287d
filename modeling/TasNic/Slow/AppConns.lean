import TasNic.Slow.TcpSteps

/-!
# The connections of an application

`appif_conn_opened` frees a connection that has failed if there is room for the message, and leaves it
on the list of its application; `appif_conn_closed` takes it off only if there is room for the message,
and it is freed in any case.
-/

namespace TasNic

open Function Chains Run IdxList Option

/-- A connection in this phase was opened by the application or passed to it. -/
def Phase.listed : Phase → Bool
  | .waiting _ => false
  | .synAck => false
  | _ => true

def Peer.list (p : Peer) : Option Nat := if p.phase.listed then some p.app else none

theorem Peer.list_listed {p : Peer} (h : p.phase.listed = true) : p.list = some p.app := if_pos h

theorem Peer.list_unlisted {p : Peer} (h : p.phase.listed = false) : p.list = none := if_neg (by simp [h])

def AppInv (v : Life) : Prop := Family v.apps.next v.apps.conns fun c => (v.peers c).bind Peer.list

variable {cfg : SlowConfig} {v v' : Life} {c : Nat} {p : Peer} {o : Option Peer}

namespace AppInv

theorem keep (h : AppInv v) (happs : v'.apps = v.apps) (hpeers : v'.peers = update v.peers c o)
    (ho : o.bind Peer.list = (v.peers c).bind Peer.list) : AppInv v' := by
  unfold AppInv
  rw [happs, hpeers, bind_update, ho, update_eq_self]
  exact h

theorem link {app : Nat} (h : AppInv v) (hc : (v.peers c).bind Peer.list = none) (happs : v'.apps = v.apps.link app c)
    (hpeers : v'.peers = update v.peers c o) (ho : o.bind Peer.list = some app) : AppInv v' := by
  unfold AppInv
  rw [happs, hpeers, bind_update, ho]
  exact Family.push h hc app

theorem alive : ∀ c i, (v.peers c).bind Peer.list = some i → v.alive c = true := by
  intro c i hc
  obtain ⟨p, hp, -⟩ := bind_eq_some_iff.mp hc
  simp [Life.alive, hp]

/-- `appif_conn_closed` takes a connection off its list. -/
theorem remove (h : AppInv v) (hinv : LifeInv cfg v) (hp : v.peers c = some p) (hl : p.phase.listed = true) :
    ∃ apps, v.apps.remove v.alive p.app c = .ok apps ∧
      Family apps.next apps.conns (update (fun d => (v.peers d).bind Peer.list) c none) := by
  have hc : (v.peers c).bind Peer.list = some p.app := by rw [hp, bind_some, Peer.list_listed hl]
  obtain ⟨h', nx, e, hf⟩ := Family.unlink h alive hinv.turns hc
  refine ⟨⟨update v.apps.conns p.app h', nx⟩, ?_, hf⟩
  simp [AppLists.remove, e]

/-- The searches end and meet no connection that is freed. -/
theorem search (h : AppInv v) (hinv : LifeInv cfg v) (app : Nat) (f : Nat → Bool) :
    ∃ r, v.apps.search v.alive app f = .ok r := by
  obtain ⟨r, e, -⟩ := Family.find h alive hinv.turns f app
  exact ⟨r, by simp [AppLists.search, e]⟩

/-- An event that frees no connection that is on a list. -/
def Event : LifeEvent → Prop
  | .fails _ ph freed => ph.listed = true ∧ freed = false
  | .expires _ _ room _ => room = true
  | _ => True

theorem apply {e : LifeEvent} (h : AppInv v) (hinv : LifeInv cfg v) (hg : v.Guard cfg e) (he : Event e) :
    AppInv (v.apply e) := by
  have hset : ∀ {c p} (ph : Phase) {w : Life}, v.peers c = some p → ph.listed = p.phase.listed → w.apps = v.apps →
      w.peers = update v.peers c ((v.peers c).map ({ · with phase := ph })) → AppInv w := by
    intro c p ph w hp hph happs hpeers
    exact h.keep happs hpeers (by rw [hp, map_some, bind_some, bind_some, Peer.list, Peer.list, hph])
  cases e with
  | waits c p =>
    obtain ⟨hp, -, l, li, hl, -⟩ := hg
    exact h.keep rfl rfl (by rw [hp, bind_some, Peer.list_unlisted (by rw [hl]; rfl)]; rfl)
  | opens c p =>
    obtain ⟨hp, -, hph, -⟩ := hg
    refine h.link (by rw [hp]; rfl) rfl rfl (Peer.list_listed ?_)
    rcases hph with hph | hph <;> rw [hph] <;> rfl
  | sends c =>
    obtain ⟨p, hp, hph⟩ := hg
    exact hset .synSent hp (by rw [hph]; rfl) rfl rfl
  | listens | stores | pops => exact h
  | accepts c l k flow =>
    obtain ⟨p, li, hp, hph, -⟩ := hg
    refine h.keep rfl rfl ?_
    rw [hp, map_some, bind_some, bind_some, Peer.list_unlisted (p := p) (by rw [hph]; rfl)]
    cases flow with
    | true => rfl
    | false => exact Peer.list_unlisted (by simp [hph, Phase.listed])
  | connects c =>
    obtain ⟨p, hp, hph⟩ := hg
    exact hset .opened hp (by rw [hph]; rfl) rfl rfl
  | addFails c => exact h
  | fails c ph freed =>
    obtain ⟨p, ⟨hp, -⟩, rfl⟩ := hg
    obtain ⟨hl, rfl⟩ := he
    exact hset .failed hp (by rw [hl]; rfl) rfl rfl
  | delivers c app =>
    obtain ⟨p, hp, hph, rfl⟩ := hg
    refine h.link ?_ rfl rfl ?_
    · rw [hp, bind_some, Peer.list_unlisted (by rw [hph]; rfl)]
    · rw [hp, map_some, bind_some]
      rfl
  | closes c cc =>
    obtain ⟨p, hp, hph, -⟩ := hg
    exact hset .closed hp (by rw [hph]; rfl) rfl rfl
  | expires c p room apps =>
    obtain ⟨hp, hph, hr⟩ := hg
    cases he
    obtain ⟨apps', e, hf⟩ := h.remove hinv hp (by rw [hph]; rfl)
    simp only [↓reduceIte, e] at hr
    cases hr
    unfold AppInv
    simp only [Life.apply, bind_update, bind_none]
    exact hf
  | ccPolls cc => exact h

/-- No walk along a list goes wrong. -/
theorem stops {e : Stop} (h : AppInv v) (hinv : LifeInv cfg v) (he : v.Stops cfg e) : e ≠ .notInApp ∧ ∀ f, e ≠ .app f := by
  rcases he with hb | ⟨c, p, -, -, he⟩ | he | ⟨c, p, hp, hph, he⟩ | ⟨app, f, he⟩
  · cases e <;> first | exact hb.elim | simp
  · have := CcList.connRemove_error he
    cases e <;> first | exact this.elim | simp
  · have := CcList.poll_error he
    cases e <;> first | exact this.elim | simp
  · obtain ⟨apps, e', -⟩ := h.remove hinv hp (by rw [hph]; rfl)
    rw [e'] at he
    cases he
  · obtain ⟨r, e'⟩ := h.search hinv app f
    rw [e'] at he
    cases he

end AppInv

/-! ## Runs -/

/-- The connection was opened by its application, or accepted and passed to it.
`tcp_accept` gives CONN_SYN_WAIT, `listener_accept` CONN_REG_SYNACK, and
`appif_accept_conn` is called when that turns into CONN_OPEN. -/
def Connection.listed (x : Connection) : Bool := x.status ≠ .synWait && x.status ≠ .regSynack

def AppSound (s : Slow) : Prop :=
  ∀ app, ∃ l, Chain s.apps.next (s.apps.conns app) l ∧ l.Nodup ∧
    ∀ c, c ∈ l ↔ ∃ x, s.conns c = some x ∧ x.ctx.app = app ∧ x.listed = true

/-- There is room for the message that a connection is closed. -/
def SlowOp.closedRoom : SlowOp → Bool
  | .timeout _ .closed room => room
  | _ => true

/-- Connections fail without room for the message, and are closed with room. -/
def AppOk (cfg : SlowConfig) (s : Slow) (op : SlowOp) : Prop :=
  (∀ c ∈ op.failing cfg s, op.room c = false) ∧ op.closedRoom = true
deriving Decidable

theorem AppOk.event {s : Slow} {op : SlowOp} {e : LifeEvent} (h : AppOk cfg s op) (hg : v.Guard cfg e)
    (he : op.May cfg s v e) : AppInv.Event e := by
  cases e with
  | fails c ph freed =>
    obtain ⟨p, ⟨-, hreg⟩, rfl⟩ := hg
    obtain ⟨hc, hf, hne, -⟩ := he
    refine ⟨?_, hf.trans (h.1 c hc)⟩
    cases hph : p.phase <;> simp_all [Phase.listed, Phase.registered]
  | expires c p room apps =>
    subst he
    exact h.2
  | _ => trivial

theorem PeerOf.listed {x : Connection} (h : PeerOf x p) : p.phase.listed = x.listed := by
  have hst := h.phase
  unfold Connection.listed
  cases hph : p.phase with
  | waiting l =>
    rw [hph] at hst
    rcases hst with hst | hst <;> rw [hst] <;> rfl
  | _ =>
    rw [hph] at hst
    rw [show x.status = _ from hst]
    rfl

theorem app_conns_exact {hint : BitVec 16} {ops : List SlowOp}
    (hops : Run.All (slowStep cfg) (SlowOk (AppOk cfg)) (.ok (slowInit hint)) ops) {r : SlowProc}
    (hr : Run.exec (slowStep cfg) (.ok (slowInit hint)) ops = some r) :
    Ends (fun e => e ≠ .notInApp ∧ ∀ f, e ≠ .app f) AppSound r := by
  refine (slowRun_inv (J := AppInv) ⟨fun _ => ⟨[], rfl, by simp [Slow.life]⟩⟩
    (fun s op v e hC hinv h hg he => h.apply hinv hg (hC.event hg he)) hops hr).mono ?_ ?_
  · rintro e ⟨v, hinv, h, he⟩
    exact h.stops hinv he
  · rintro s ⟨peers, hs, h⟩ app
    obtain ⟨l, hl, hm⟩ := h.list app
    refine ⟨l, hl, hl.nodup, fun c => (hm c).trans ⟨fun hc => ?_, ?_⟩⟩
    · obtain ⟨p, hp, hpl⟩ := bind_eq_some_iff.mp hc
      obtain ⟨x, hx, hxp⟩ := hs.conn hp
      rw [Peer.list] at hpl
      split_ifs at hpl with hli
      cases hpl
      exact ⟨x, hx, hxp.app.symm, by rw [← hxp.listed, hli]⟩
    · rintro ⟨x, hx, rfl, hli⟩
      obtain ⟨p, hp, hxp⟩ := hs.peer hx
      rw [show (s.life peers).peers c = some p from hp, bind_some, Peer.list_listed (by rw [hxp.listed, hli]), hxp.app]

/-- A connection is opened, refused without room for the message, and kept; another
is set up, closed and freed. -/
theorem app_conns_exact_two_connections : ∃ r, Run.exec (slowStep .plain) (.ok (slowInit 8192))
    [.connOpen ⟨0, 0⟩ ⟨1, 0, 80⟩ (some (7, .zeroed)) (.found 0), .packet (.plain 80 8192 0x14 false) 0 0 none false,
      .connOpen ⟨0, 0⟩ ⟨2, 0, 80⟩ (some (8, .zeroed)) (.found 0), .packet (.plain 80 8193 0x12 true) 0 0 (some 3) true,
      .connClose ⟨0, 0⟩ ⟨2, ⟨0, 0, 8193, 80⟩⟩ ⟨0, 0, true, true⟩, .timeout 8 .closed true] = some r ∧
    Ends (fun e => e ≠ .notInApp ∧ ∀ f, e ≠ .app f) AppSound r := by
  exact Run.exists_exec (by decide +kernel) fun r hr => app_conns_exact (by decide +kernel) hr

theorem AppSound.head {s : Slow} (h : AppSound s) (app : Nat) : (s.apps.conns app).all s.alive = true := by
  obtain ⟨l, hl, -, hm⟩ := h app
  rw [hl.head_eq]
  cases l with
  | nil => rfl
  | cons c l =>
    obtain ⟨x, hx, -⟩ := (hm c).mp (List.mem_cons_self ..)
    simp [Slow.alive, hx]

/-- The peer refuses a connection, and there is room to say so. The connection is
freed, and is still on the list of its application. -/
theorem app_conns_freed :
    ¬ ∀ (cfg : SlowConfig) (hint : BitVec 16) (ops : List SlowOp),
      Run.All (slowStep cfg) (SlowOk fun _ _ => True) (.ok (slowInit hint)) ops →
      ∀ r, Run.exec (slowStep cfg) (.ok (slowInit hint)) ops = some r →
        Ends (fun e => e ≠ .notInApp ∧ ∀ f, e ≠ .app f) AppSound r := by
  intro h
  have hr := h .plain 8192 [.connOpen ⟨0, 0⟩ ⟨1, 0, 80⟩ (some (7, .zeroed)) (.found 0),
    .packet (.plain 80 8192 0x14 false) 0 0 none true] (by decide +kernel)
  exact Run.not_forall_exec (P := Ends (fun _ => True) fun s => (s.apps.conns 0).all s.alive = true) (by decide +kernel)
    fun r hs => (hr r hs).mono (fun _ _ => trivial) fun _ hs => hs.head 0

end TasNic
