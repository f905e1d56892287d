import TasNic.Slow.TcpSteps

/-!
# The connections of the congestion control

`cc_conns` holds the connections whose flow is registered with the fast path: every event keeps that
(`CcInv.apply`) but two. A connection is put on the list before its flow is registered, and is not taken
off when that fails; and a SYN without a timestamp makes an open connection fail, which frees it and
leaves it on the list.
-/

namespace TasNic

open Function Chains Run IdxList Option

def Phase.flow : Phase → Bool
  | .synAck => true
  | .opened => true
  | _ => false

def ccPlace (flows : Nat → Bool) (c : Nat) : Option Unit := if flows c then some () else none

/-- The list holds the connections with a flow, which are the accepted and the
open ones. -/
structure CcInv (v : Life) : Prop where
  family : Family v.cc.next (fun _ => v.cc.conns) (ccPlace v.flows)
  next : ∀ c, v.cc.nextConn = some c → v.flows c = true
  flows : ∀ c, v.flows c = (v.peers c).any (·.phase.flow)

variable {cfg : SlowConfig} {v : Life} {c : Nat} {p : Peer}

theorem ccPlace_some {flows : Nat → Bool} : ccPlace flows c = some () ↔ flows c = true := by
  simp [ccPlace]

theorem ccPlace_update (flows : Nat → Bool) (c : Nat) (f : Bool) :
    ccPlace (update flows c f) = update (ccPlace flows) c (if f then some () else none) := by
  funext d
  by_cases hd : d = c
  · subst hd
    simp [ccPlace]
  · simp [ccPlace, update_of_ne hd]

theorem unit_update {α : Type} (a b : α) : update (fun _ : Unit => a) () b = fun _ => b := by
  funext i
  exact update_self ..

namespace CcInv

variable (h : CcInv v)

include h

theorem flows_update {o : Option Peer} {f : Bool} (ho : o.any (·.phase.flow) = f) (d : Nat) :
    update v.flows c f d = (update v.peers c o d).any (·.phase.flow) := by
  by_cases hd : d = c
  · subst hd
    rw [update_self, update_self, ho]
  · rw [update_of_ne hd, update_of_ne hd]
    exact h.flows d

theorem keep {v' : Life} {o : Option Peer} (hcc : v'.cc = v.cc) (hfl : v'.flows = v.flows)
    (hpeers : v'.peers = update v.peers c o) (ho : o.any (·.phase.flow) = (v.peers c).any (·.phase.flow)) : CcInv v' := by
  refine ⟨by rw [hcc, hfl]; exact h.family, by rw [hcc, hfl]; exact h.next, fun d => ?_⟩
  have := h.flows_update (c := c) ho d
  rwa [← h.flows c, update_eq_self, ← hfl, ← hpeers] at this

theorem push {v' : Life} {q : Peer} (hp : v.peers c = some p) (hno : p.phase.flow = false)
    (hcc : v'.cc = v.cc.connInit c) (hfl : v'.flows = update v.flows c true) (hpeers : v'.peers = update v.peers c (some q))
    (hq : q.phase.flow = true) : CcInv v' := by
  have hc : v.flows c = false := by rw [h.flows, hp, any_some, hno]
  refine ⟨?_, fun d hd => ?_, fun d => ?_⟩
  · have := h.family.push (c := c) (by simp [ccPlace, hc]) ()
    rw [hcc, hfl, ccPlace_update]
    rw [unit_update] at this
    exact this
  · rw [hcc] at hd
    rw [hfl]
    by_cases e : d = c
    · rw [e, update_self]
    · rw [update_of_ne e]
      exact h.next d hd
  · rw [hfl, hpeers]
    exact h.flows_update (by rw [any_some, hq]) d

theorem alive : ∀ c i, ccPlace v.flows c = some i → v.alive c = true := by
  intro c i hc
  have hfl := h.flows c
  rw [ccPlace_some.mp hc] at hfl
  cases hp : v.peers c with
  | none => simp [hp] at hfl
  | some p => simp [Life.alive, hp]

/-- `cc_conn_remove` takes a connection with a flow off the list. -/
theorem connRemove (hinv : LifeInv cfg v) (hc : v.flows c = true) :
    ∃ cc, v.cc.connRemove v.alive c = .ok cc ∧
      Family cc.next (fun _ => cc.conns) (ccPlace (update v.flows c false)) ∧
      ∀ d, cc.nextConn = some d → update v.flows c false d = true := by
  obtain ⟨h', nx, e, hf⟩ := h.family.unlink h.alive hinv.turns (ccPlace_some.mpr hc)
  refine ⟨⟨h', nx, if v.cc.nextConn = some c then v.cc.next c else v.cc.nextConn⟩, ?_, ?_, fun d hd => ?_⟩
  · simp [CcList.connRemove, e]
  · rw [unit_update] at hf
    rw [ccPlace_update]
    exact hf
  · -- the one where `cc_poll` goes on is not the one taken off
    have hd : d ≠ c ∧ v.flows d = true := by
      simp only at hd
      split_ifs at hd with hn
      · obtain ⟨hd, hne⟩ := h.family.next_mem (ccPlace_some.mpr hc) hd
        exact ⟨hne, ccPlace_some.mp hd⟩
      · exact ⟨fun e => hn (e ▸ hd), h.next d hd⟩
    rw [update_of_ne hd.1]
    exact hd.2

/-- The loop of `cc_poll` stays on the list. -/
theorem pollFrom (cFirst turns : Nat) (isFirst : Bool) (hc : v.flows c = true) :
    ∃ d, v.cc.pollFrom v.alive cFirst turns isFirst (some c) = .ok (some d) ∧ v.flows d = true := by
  induction turns generalizing c isFirst with
  | zero => exact ⟨c, rfl, hc⟩
  | succ turns ih =>
    rw [CcList.pollFrom]
    split
    · exact ⟨c, rfl, hc⟩
    · rw [if_pos (h.alive c () (ccPlace_some.mpr hc))]
      cases hn : v.cc.next c with
      | some d => exact ih false (ccPlace_some.mp (h.family.next_mem (ccPlace_some.mpr hc) hn).1)
      | none =>
        obtain ⟨d, hd⟩ := h.family.head_some (ccPlace_some.mpr hc)
        rw [none_or, hd]
        exact ih false (ccPlace_some.mp (h.family.pop (i := ()) hd).1)

theorem poll : ∃ o, v.cc.poll v.alive = .ok { v.cc with nextConn := o } ∧
    ∀ c, o = some c → v.flows c = true := by
  rw [CcList.poll]
  cases hn : v.cc.nextConn.or v.cc.conns with
  | none => exact ⟨v.cc.nextConn, rfl, h.next⟩
  | some c =>
    have hc : v.flows c = true := by
      rcases or_eq_some_iff.mp hn with hn | ⟨-, hn⟩
      · exact h.next c hn
      · exact ccPlace_some.mp (h.family.pop (i := ()) hn).1
    obtain ⟨d, e, hd⟩ := h.pollFrom c 128 true hc
    refine ⟨some d, ?_, fun d' e => by cases e; exact hd⟩
    simp [e, ok_bind]

/-- An event that does not leave a connection on the list without a flow. -/
def Event : LifeEvent → Prop
  | .accepts _ _ _ flow => flow = true
  | .addFails _ => False
  | .fails _ ph _ => ph.flow = false
  | _ => True

theorem apply {e : LifeEvent} (hinv : LifeInv cfg v) (hg : v.Guard cfg e) (he : Event e) :
    CcInv (v.apply e) := by
  have hset : ∀ {c p} (ph : Phase) {w : Life}, v.peers c = some p → ph.flow = p.phase.flow → w.cc = v.cc →
      w.flows = v.flows → w.peers = update v.peers c ((v.peers c).map ({ · with phase := ph })) → CcInv w := by
    intro c p ph w hp hph hcc hfl hpeers
    exact h.keep hcc hfl hpeers (by rw [hp, map_some, any_some, any_some, hph])
  cases e with
  | waits c p =>
    obtain ⟨hp, -, l, li, hl, -⟩ := hg
    exact h.keep rfl rfl rfl (by rw [hp, any_some, hl]; rfl)
  | opens c p =>
    obtain ⟨hp, -, hph, -⟩ := hg
    refine h.keep rfl rfl rfl ?_
    rw [hp, any_some]
    rcases hph with hph | hph <;> rw [hph] <;> rfl
  | sends c =>
    obtain ⟨p, hp, hph⟩ := hg
    exact hset .synSent hp (by rw [hph]; rfl) rfl rfl rfl
  | listens | stores | pops => exact { h with }
  | accepts c l k flow =>
    obtain ⟨p, li, hp, hph, -⟩ := hg
    cases he
    exact h.push (q := { p with phase := .synAck, key := k }) hp (by rw [hph]; rfl) rfl rfl
      (by simp [Life.apply, hp]) rfl
  | connects c =>
    obtain ⟨p, hp, hph⟩ := hg
    exact h.push (q := { p with phase := .opened }) hp (by rw [hph]; rfl) rfl rfl
      (by simp [Life.apply, Life.setPhase, hp]) rfl
  | addFails c => exact he.elim
  | fails c ph freed =>
    obtain ⟨p, ⟨hp, -⟩, rfl⟩ := hg
    have hno : p.phase.flow = false := he
    cases freed with
    | true => exact h.keep (o := none) rfl rfl rfl (by rw [hp, any_some, hno]; rfl)
    | false => exact hset .failed hp (by rw [hno]; rfl) rfl rfl rfl
  | delivers c app =>
    obtain ⟨p, hp, hph, -⟩ := hg
    exact hset .opened hp (by rw [hph]; rfl) rfl rfl rfl
  | closes c cc =>
    obtain ⟨p, hp, hph, hcc⟩ := hg
    have hc : v.flows c = true := by rw [h.flows, hp, any_some, hph]; rfl
    obtain ⟨cc', e, hfam, hnext⟩ := h.connRemove hinv hc
    rw [e] at hcc
    cases hcc
    refine ⟨hfam, hnext, h.flows_update ?_⟩
    rw [hp, map_some, any_some]
    rfl
  | expires c p room apps =>
    obtain ⟨hp, hph, -⟩ := hg
    exact h.keep (o := none) rfl rfl rfl (by rw [hp, any_some, hph]; rfl)
  | ccPolls cc =>
    obtain ⟨o, e, ho⟩ := h.poll
    have hcc : v.cc.poll v.alive = .ok cc := hg
    rw [e] at hcc
    cases hcc
    exact ⟨h.family, ho, h.flows⟩

/-- No walk along the list goes wrong. -/
theorem stops {e : Stop} (hinv : LifeInv cfg v) (he : v.Stops cfg e) : e ≠ .notInCc ∧ ∀ f, e ≠ .cc f := by
  rcases he with hb | ⟨c, p, hp, hph, he⟩ | he | ⟨c, p, -, -, he⟩ | ⟨app, f, he⟩
  · cases e <;> first | exact hb.elim | simp
  · have hc : v.flows c = true := by rw [h.flows, hp, any_some, hph]; rfl
    obtain ⟨cc, e', -⟩ := h.connRemove hinv hc
    rw [e'] at he
    cases he
  · obtain ⟨o, e', -⟩ := h.poll
    rw [e'] at he
    cases he
  · have := AppLists.remove_error he
    cases e <;> first | exact this.elim | simp
  · have := AppLists.search_error he
    cases e <;> first | exact this.elim | simp

end CcInv

/-! ## Runs -/

def CcSound (s : Slow) : Prop :=
  ∃ l, Chain s.cc.next s.cc.conns l ∧ l.Nodup ∧ (∀ c, c ∈ l ↔ s.flows c = true) ∧ (∀ c ∈ l, s.alive c = true) ∧
    ∀ c, s.cc.nextConn = some c → c ∈ l

/-- The fast path registers the flow if it is asked to, and no open connection
fails. -/
def CcOk (cfg : SlowConfig) (s : Slow) (op : SlowOp) : Prop :=
  op.flow = true ∧ ∀ c ∈ op.failing cfg s, (s.conns c).any (·.status = .opened) = false
deriving Decidable

theorem CcOk.event {s : Slow} {op : SlowOp} {e : LifeEvent} (h : CcOk cfg s op) (he : op.May cfg s v e) : CcInv.Event e := by
  cases e with
  | accepts c l k flow => exact he.trans h.1
  | addFails c => exact absurd (h.1.symm.trans he) (by decide)
  | fails c ph freed =>
    obtain ⟨hc, -, hne, x, hx, hph⟩ := he
    have hst := h.2 c hc
    rw [hx, any_some, decide_eq_false_iff_not] at hst
    cases ph with
    | synAck => exact absurd rfl hne
    | opened => exact absurd hph hst
    | _ => rfl
  | _ => trivial

theorem cc_conns_exact {hint : BitVec 16} {ops : List SlowOp}
    (hops : Run.All (slowStep cfg) (SlowOk (CcOk cfg)) (.ok (slowInit hint)) ops) {r : SlowProc}
    (hr : Run.exec (slowStep cfg) (.ok (slowInit hint)) ops = some r) :
    Ends (fun e => e ≠ .notInCc ∧ ∀ f, e ≠ .cc f) CcSound r := by
  refine (slowRun_inv (J := CcInv) ⟨⟨fun _ => ⟨[], rfl, by simp [ccPlace, slowInit, Slow.life]⟩⟩, nofun, fun _ => rfl⟩
    (fun s op v e hC hinv h hg he => h.apply hinv hg (hC.event he)) hops hr).mono ?_ ?_
  · rintro e ⟨v, hinv, h, he⟩
    exact h.stops hinv he
  · rintro s ⟨peers, hs, h⟩
    obtain ⟨l, hl, hm⟩ := h.family.list ()
    have hm : ∀ c, c ∈ l ↔ s.flows c = true := fun c => (hm c).trans ccPlace_some
    refine ⟨l, hl, hl.nodup, hm, fun c hc => ?_, fun c hc => (hm c).mpr (h.next c hc)⟩
    rw [hs.alive_eq]
    exact h.alive c () (ccPlace_some.mpr ((hm c).mp hc))

/-- An open and an accepted connection, and the first is closed. -/
theorem cc_conns_exact_two_connections : ∃ r, Run.exec (slowStep .plain) (.ok (slowInit 8192))
    [.connOpen ⟨0, 0⟩ ⟨1, 0, 80⟩ (some (7, .zeroed)) (.found 0), .packet (.plain 80 8192 0x12 true) 0 0 (some 3) true,
      .listenOpen ⟨0, 0⟩ ⟨2, 90, 4, false⟩ (some (0, fun _ => ⟨fun _ => 0, 0⟩)), .packet (.plain 81 90 0x02 true) 0 0 (some 4) true,
      .acceptConn ⟨0, 0⟩ ⟨2, 3, 90⟩ (some (8, .zeroed)) (some 4), .ccPoll, .tcpPoll fun _ => true,
      .connClose ⟨0, 0⟩ ⟨1, ⟨0, 0, 8192, 80⟩⟩ ⟨0, 0, true, true⟩] = some r ∧
    Ends (fun e => e ≠ .notInCc ∧ ∀ f, e ≠ .cc f) CcSound r := by
  exact Run.exists_exec (by decide +kernel) fun r hr => cc_conns_exact (by decide +kernel) hr

theorem CcSound.head {s : Slow} (h : CcSound s) : s.cc.conns.all s.alive = true := by
  obtain ⟨l, hl, -, -, ha, -⟩ := h
  rw [hl.head_eq]
  cases l with
  | nil => rfl
  | cons c l => exact ha c (List.mem_cons_self ..)

/-- The SYN-ACK for a connection comes, and the fast path has no room for its flow.
The connection is freed, and is still on the list. -/
theorem cc_conns_freed :
    ¬ ∀ (cfg : SlowConfig) (hint : BitVec 16) (ops : List SlowOp),
      Run.All (slowStep cfg) (SlowOk fun _ _ => True) (.ok (slowInit hint)) ops →
      ∀ r, Run.exec (slowStep cfg) (.ok (slowInit hint)) ops = some r →
        Ends (fun e => e ≠ .notInCc ∧ ∀ f, e ≠ .cc f) CcSound r := by
  intro h
  have hr := h .plain 8192 [.connOpen ⟨0, 0⟩ ⟨1, 0, 80⟩ (some (7, .zeroed)) (.found 0),
    .packet (.plain 80 8192 0x12 true) 0 0 none true] (by decide +kernel)
  exact Run.not_forall_exec (P := Ends (fun _ => True) fun s => s.cc.conns.all s.alive = true) (by decide +kernel)
    fun r hs => (hr r hs).mono (fun _ _ => trivial) fun _ hs => hs.head

end TasNic
