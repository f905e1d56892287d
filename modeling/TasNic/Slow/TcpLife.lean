import TasNic.Slow.Life
import TasNic.Lib.Run
import Mathlib.Logic.Relation

/-!
# The slow path follows the life of its connections

`SlowOf cfg s peers`: the connections of the slow path in state `s` are in the phases that `peers` says,
with lists, timers and queues of completions accordingly. `Follows cfg P v s'`: events that meet `P` lead
from `v` to the state `s'`. The functions on connections and listeners do only such events, and stop only
for reasons that have nothing to do with the lists through `ht_next`.
-/

namespace TasNic

open Function Chains Run Relation List Option Slow

/-! ## The relation -/

/-- The status of a connection in a phase. One that waits may have tried to
register a flow. -/
def Phase.Of : Phase → ConnStatus → Prop
  | .waiting _, st => st = .synWait ∨ st = .regSynack
  | .resolving, st => st = .arpPending
  | .synSent, st => st = .synSent
  | .synAck, st => st = .regSynack
  | .opened, st => st = .opened
  | .closed, st => st = .closed
  | .failed, st => st = .failed

structure PeerOf (x : Connection) (p : Peer) : Prop where
  phase : p.phase.Of x.status
  key : p.key = x.key
  app : p.app = x.ctx.app

/-- A block of memory and what it is in the life of connections. -/
inductive BlockOf (c : Nat) : Option Connection → Option Peer → Prop where
  | none : BlockOf c none none
  | some {x : Connection} {p : Peer} (h : PeerOf x p) (hc : c < addresses) : BlockOf c (some x) (some p)

def Slow.heads (s : Slow) : Place → Option Nat
  | .bucket h => s.hashtable h
  | .wait l => s.waitConns l

/-- The state with the phases of its connections. -/
def Slow.life (s : Slow) (peers : Nat → Option Peer) : Life := ⟨peers, s.ports, s.listeners, s.cc, s.flows, s.apps⟩

/-- The queue `q` of completions and the connections `w` whose address is being
resolved hold connections that wait, once. -/
structure QueuesOf (q w : List Nat) (conns : Nat → Option Connection) (peers : Nat → Option Peer) : Prop where
  nodup : q.Nodup
  arpNodup : w.Nodup
  queued : ∀ c ∈ q, ∃ x p, conns c = some x ∧ peers c = some p ∧
    (p.phase = .resolving ∨ p.phase = .synAck ∧ x.compStatus = 0)
  waiting : ∀ c ∈ w, c ∉ q ∧ ∃ p, peers c = some p ∧ p.phase = .resolving

/-- The timeouts of the handshake are positive, and after all doublings in the range
of the timeout manager, one and a half times over. -/
structure SlowConfig.HandshakeOk (cfg : SlowConfig) : Prop where
  pos : cfg.tcpHandshakeTo ≠ 0
  range : cfg.tcpHandshakeTo.toNat <<< cfg.tcpHandshakeRetries.toNat < 0x4000000

/-- The timeout of the handshake has been doubled once for each retry. -/
structure Connection.BackedOff (cfg : SlowConfig) (x : Connection) : Prop where
  attempts : x.toAttempts ≤ cfg.tcpHandshakeRetries
  timeout : x.timeout.toNat = cfg.tcpHandshakeTo.toNat <<< x.toAttempts.toNat

/-- The calls of the timeout manager, the newest first, leave `timers` armed. A timer is armed only when it is
not, for a time in the range of the manager, and only armed timers are disarmed or expire. -/
inductive TimerLog (cfg : SlowConfig) : List TimerCall → (Nat → Option TimerType) → Prop where
  | nil : TimerLog cfg [] fun _ => none
  | arm {calls : List TimerCall} {timers : Nat → Option TimerType} {c : Nat} {t : TimerType} {timeout : BitVec 32}
      (h : TimerLog cfg calls timers) (hc : timers c = none) (hb : c < addresses)
      (hr : cfg.HandshakeOk → ∀ rnd, (t.us timeout rnd).toNat < 0x8000000) :
      TimerLog cfg (.arm c t timeout :: calls) (update timers c (some t))
  | clear {calls : List TimerCall} {timers : Nat → Option TimerType} {c : Nat} {call : TimerCall}
      (h : TimerLog cfg calls timers) (hc : timers c ≠ none) (hcall : call = .disarm c ∨ call = .expire c) :
      TimerLog cfg (call :: calls) (update timers c none)

/-- The timer `t` of a connection. -/
def TimerOf (cfg : SlowConfig) (t : Option TimerType) (o : Option Connection) (q : Option Peer) : Prop :=
  t = q.bind (·.phase.timer) ∧
    ∀ x, o = some x → x.toArmed = t.isSome ∧ (t = some .handshake → cfg.HandshakeOk → x.BackedOff cfg)

/-- Everything but which timers are armed. -/
structure SlowLife (cfg : SlowConfig) (s : Slow) (peers : Nat → Option Peer) : Prop where
  block : ∀ c, BlockOf c (s.conns c) (peers c)
  family : Family s.htNext s.heads fun c => (peers c).bind (·.place cfg)
  queues : QueuesOf s.connAsyncQ s.arpWait s.conns peers
  inv : LifeInv cfg (s.life peers)
  log : TimerLog cfg s.timerCalls s.timers

structure SlowOf (cfg : SlowConfig) (s : Slow) (peers : Nat → Option Peer) : Prop extends SlowLife cfg s peers where
  timers : ∀ c, TimerOf cfg (s.timers c) (s.conns c) (peers c)

variable {cfg : SlowConfig} {s s' : Slow} {peers peers' : Nat → Option Peer} {c l : Nat} {x x' : Connection} {p p' : Peer}

theorem Slow.conn_eq (h : s.conns c = some x) : s.conn c = .ok x := by
  rw [conn, h]

theorem Slow.setConn_conns (s : Slow) (c : Nat) (x : Connection) : (s.setConn c x).conns c = some x := update_self ..

theorem Slow.heads_hashtable (s : Slow) (h : Nat) (o : Option Nat) :
    ({ s with hashtable := update s.hashtable h o } : Slow).heads = update s.heads (.bucket h) o := by
  funext i
  cases i with
  | bucket h' =>
    by_cases e : h' = h
    · subst e
      simp [heads]
    · rw [update_of_ne (by simp [e])]
      simp [heads, e]
  | wait l => rfl

theorem Slow.heads_waitConns (s : Slow) (l : Nat) (o : Option Nat) :
    ({ s with waitConns := update s.waitConns l o } : Slow).heads = update s.heads (.wait l) o := by
  funext i
  cases i with
  | bucket h => rfl
  | wait l' =>
    by_cases e : l' = l
    · subst e
      simp [heads]
    · rw [update_of_ne (by simp [e])]
      simp [heads, e]

namespace SlowLife

variable (h : SlowLife cfg s peers)

include h

theorem peer (hx : s.conns c = some x) : ∃ p, peers c = some p ∧ PeerOf x p := by
  have := h.block c
  rw [hx] at this
  cases hp : peers c with
  | none =>
    rw [hp] at this
    cases this
  | some p =>
    rw [hp] at this
    cases this with
    | some hxp _ => exact ⟨p, rfl, hxp⟩

theorem conn (hp : peers c = some p) : ∃ x, s.conns c = some x ∧ PeerOf x p := by
  have := h.block c
  rw [hp] at this
  cases hx : s.conns c with
  | none =>
    rw [hx] at this
    cases this
  | some x =>
    rw [hx] at this
    cases this with
    | some hxp _ => exact ⟨x, rfl, hxp⟩

theorem peerOf (hx : s.conns c = some x) (hp : peers c = some p) : PeerOf x p := by
  obtain ⟨p', hp', hxp⟩ := h.peer hx
  rw [hp] at hp'
  cases hp'
  exact hxp

theorem below (hx : s.conns c = some x) : c < addresses := by
  have := h.block c
  obtain ⟨p, hp, -⟩ := h.peer hx
  rw [hx, hp] at this
  cases this with
  | some _ hc => exact hc

theorem gone (hx : s.conns c = none) : peers c = none := by
  cases hp : peers c with
  | none => rfl
  | some p =>
    obtain ⟨x, hx', -⟩ := h.conn hp
    rw [hx] at hx'
    cases hx'

theorem alive_eq : s.alive = (s.life peers).alive := by
  funext c
  simp only [alive, Life.alive, life]
  cases hx : s.conns c with
  | none =>
    rw [h.gone hx]
    rfl
  | some x =>
    obtain ⟨p, hp, -⟩ := h.peer hx
    rw [hp]
    rfl

theorem alive_place : ∀ c i, (peers c).bind (·.place cfg) = some i → s.alive c = true := by
  intro c i hc
  rw [h.alive_eq]
  simp only [Life.alive, life]
  cases hp : peers c with
  | none => simp [hp] at hc
  | some p => rfl

theorem turns :
    ∀ l : List Nat, l.Nodup → (∀ c ∈ l, s.alive c = true) → l.length < addresses + 1 := by
  rw [h.alive_eq]
  exact h.inv.turns

theorem block_update {o : Option Connection} {o' : Option Peer} (hc : BlockOf c o o') (d : Nat) :
    BlockOf d (update s.conns c o d) (update peers c o' d) := by
  by_cases hd : d = c
  · subst hd
    rw [update_self, update_self]
    exact hc
  · rw [update_of_ne hd, update_of_ne hd]
    exact h.block d

end SlowLife

variable {t : Option TimerType} {o : Option Connection} {q : Option Peer} {ph : Phase} {li : Listener}
  {flow : Option (BitVec 32)}

theorem TimerOf.other (hq : t = q.bind (·.phase.timer)) (ht : t ≠ some .handshake)
    (ho : ∀ x, o = some x → x.toArmed = t.isSome) : TimerOf cfg t o q :=
  ⟨hq, fun x hx => ⟨ho x hx, fun h => absurd h ht⟩⟩

theorem TimerOf.handshake (hq : some .handshake = q.bind (·.phase.timer)) (ha : x.toArmed = true)
    (hx : cfg.HandshakeOk → x.BackedOff cfg) : TimerOf cfg (some .handshake) (some x) q := by
  refine ⟨hq, fun y hy => ?_⟩
  cases hy
  exact ⟨ha, fun _ => hx⟩

theorem TimerOf.update {timers : Nat → Option TimerType} {conns : Nat → Option Connection}
    (h : ∀ d, d ≠ c → TimerOf cfg (timers d) (conns d) (peers d)) (hc : TimerOf cfg t o q) (d : Nat) :
    TimerOf cfg (Function.update timers c t d) (Function.update conns c o d) (Function.update peers c q d) := by
  by_cases hd : d = c
  · subst hd
    rw [update_self, update_self, update_self]
    exact hc
  · rw [update_of_ne hd, update_of_ne hd, update_of_ne hd]
    exact h d hd

namespace QueuesOf

variable {q w : List Nat} {conns : Nat → Option Connection}

variable (h : QueuesOf q w conns peers)

include h

theorem not_mem (hp : ∀ p, peers c = some p → p.phase ≠ .resolving ∧ p.phase ≠ .synAck) :
    c ∉ q ∧ c ∉ w := by
  constructor
  · intro hc
    obtain ⟨x, p, -, hp', hph⟩ := h.queued c hc
    rcases hph with hph | ⟨hph, -⟩
    · exact (hp p hp').1 hph
    · exact (hp p hp').2 hph
  · intro hc
    obtain ⟨-, p, hp', hph⟩ := h.waiting c hc
    exact (hp p hp').1 hph

theorem not_mem_of (hp : peers c = some p) (hph : p.phase ≠ .resolving ∧ p.phase ≠ .synAck) : c ∉ q ∧ c ∉ w :=
  not_mem h fun p' hp' => by
    cases hp.symm.trans hp'
    exact hph

theorem keep (hc : c ∉ q ∧ c ∉ w) (o : Option Connection) (o' : Option Peer) :
    QueuesOf q w (update conns c o) (update peers c o') where
  nodup := h.nodup
  arpNodup := h.arpNodup
  queued d hd := by
    rw [update_of_ne (ne_of_mem_of_not_mem hd hc.1), update_of_ne (ne_of_mem_of_not_mem hd hc.1)]
    exact h.queued d hd
  waiting d hd := by
    rw [update_of_ne (ne_of_mem_of_not_mem hd hc.2)]
    exact h.waiting d hd

omit h in
theorem pop (h : QueuesOf (c :: q) w conns peers) : QueuesOf q w conns peers ∧ c ∉ q ∧ c ∉ w := by
  obtain ⟨hc, hnd⟩ := nodup_cons.mp h.nodup
  refine ⟨⟨hnd, h.arpNodup, fun d hd => h.queued d (mem_cons_of_mem _ hd), fun d hd => ?_⟩, hc, fun hw => ?_⟩
  · exact ⟨fun hm => (h.waiting d hd).1 (mem_cons_of_mem _ hm), (h.waiting d hd).2⟩
  · exact (h.waiting c hw).1 (mem_cons_self ..)

theorem push (hc : c ∉ q ∧ c ∉ w) (hx : conns c = some x) (hp : peers c = some p)
    (hph : p.phase = .resolving ∨ p.phase = .synAck ∧ x.compStatus = 0) : QueuesOf (q ++ [c]) w conns peers where
  nodup := nodup_append.mpr ⟨h.nodup, nodup_singleton c, fun d hd e he => by
    rw [mem_singleton.mp he]
    exact ne_of_mem_of_not_mem hd hc.1⟩
  arpNodup := h.arpNodup
  queued d hd := by
    rcases mem_append.mp hd with hd | hd
    · exact h.queued d hd
    · rw [mem_singleton.mp hd]
      exact ⟨x, p, hx, hp, hph⟩
  waiting d hd := by
    refine ⟨fun hm => ?_, (h.waiting d hd).2⟩
    rcases mem_append.mp hm with hm | hm
    · exact (h.waiting d hd).1 hm
    · exact hc.2 (mem_singleton.mp hm ▸ hd)

theorem arpPush (hc : c ∉ q ∧ c ∉ w) (hp : peers c = some p)
    (hph : p.phase = .resolving) : QueuesOf q (w ++ [c]) conns peers where
  nodup := h.nodup
  arpNodup := nodup_append.mpr ⟨h.arpNodup, nodup_singleton c, fun d hd e he => by
    rw [mem_singleton.mp he]
    exact ne_of_mem_of_not_mem hd hc.2⟩
  queued := h.queued
  waiting d hd := by
    rcases mem_append.mp hd with hd | hd
    · exact h.waiting d hd
    · rw [mem_singleton.mp hd]
      exact ⟨hc.1, p, hp, hph⟩

theorem arpErase (c : Nat) : QueuesOf q (w.erase c) conns peers :=
  { h with arpNodup := h.arpNodup.erase c, waiting := fun d hd => h.waiting d (mem_of_mem_erase hd) }

end QueuesOf

/-! ## Sequences of events -/

/-- Events that meet `P` lead from `v` to a state of the slow path. -/
def Follows (cfg : SlowConfig) (P : Life → LifeEvent → Prop) (v : Life) (s' : Slow) : Prop :=
  ∃ peers', ReflTransGen (Life.Moves cfg P) v (s'.life peers') ∧ SlowOf cfg s' peers'

/-- Reasons to stop that have nothing to do with the lists of connections. -/
def Stop.Benign (cfg : SlowConfig) : Stop → Prop
  | .koutFull => True
  | .null => True
  | .loops => True
  | .divides => ¬ cfg.HandshakeOk
  | _ => False

variable {P : Life → LifeEvent → Prop} {e : LifeEvent} {v : Life}

namespace Follows

theorem refl (h : SlowOf cfg s peers) : Follows cfg P (s.life peers) s := ⟨peers, .refl, h⟩

theorem trans (h : Follows cfg P v s)
    (h' : ∀ peers', SlowOf cfg s peers' → Follows cfg P (s.life peers') s') : Follows cfg P v s' := by
  obtain ⟨peers', hm, hs⟩ := h
  obtain ⟨peers'', hm', hs'⟩ := h' peers' hs
  exact ⟨peers'', hm.trans hm', hs'⟩

end Follows

/-! ## Connections -/

theorem Follows.change (e : LifeEvent) (h : SlowLife cfg s peers)
    (ht : ∀ d, d ≠ c → TimerOf cfg (s.timers d) (s.conns d) (peers d)) (hg : (s.life peers).Guard cfg e)
    (hP : P (s.life peers) e) (hv : s'.life (update peers c q) = (s.life peers).apply e)
    (hconns : s'.conns = update s.conns c o) (hblock : BlockOf c o q)
    (hfam : Family s'.htNext s'.heads (update (fun d => (peers d).bind (·.place cfg)) c (q.bind (·.place cfg))))
    (hqueues : QueuesOf s'.connAsyncQ s'.arpWait (update s.conns c o) (update peers c q))
    (htimers : s'.timers = update s.timers c t) (hto : TimerOf cfg t o q)
    (hlog : TimerLog cfg s'.timerCalls s'.timers) : Follows cfg P (s.life peers) s' := by
  refine ⟨update peers c q, .single ⟨e, hg, hP, hv⟩, ⟨?_, ?_, ?_, hv ▸ Life.apply_inv h.inv hg, hlog⟩, ?_⟩
  · rw [hconns]
    exact h.block_update hblock
  · rw [bind_update]
    exact hfam
  · rw [hconns]
    exact hqueues
  · rw [htimers, hconns]
    exact TimerOf.update ht hto

theorem Slow.setPhase_life (s : Slow) (hp : peers c = some p) (ph : Phase) :
    s.life (update peers c (some { p with phase := ph })) = (s.life peers).setPhase c ph := by
  simp [Life.setPhase, life, hp]

theorem Peer.place_phase (h : p.phase.registered = true) (h' : ph.registered = true) :
    ({ p with phase := ph } : Peer).place cfg = p.place cfg := by
  rw [Peer.place_registered h, Peer.place_registered (p := { p with phase := ph }) h']

theorem SlowLife.family_phase (h : SlowLife cfg s peers) (hp : peers c = some p) (hr : p.phase.registered = true)
    (hr' : ph.registered = true) :
    Family s.htNext s.heads (update (fun d => (peers d).bind (·.place cfg)) c
      ((some { p with phase := ph }).bind (·.place cfg))) := by
  rw [bind_some, Peer.place_phase hr hr', update_eq_self_iff.mpr (by rw [hp, bind_some])]
  exact h.family

theorem SlowOf.timer_eq (h : SlowOf cfg s peers) (hx : s.conns c = some x) (hp : peers c = some p) :
    s.timers c = p.phase.timer ∧ x.toArmed = p.phase.timer.isSome := by
  have ht : s.timers c = p.phase.timer := by rw [(h.timers c).1, hp, bind_some]
  exact ⟨ht, by rw [((h.timers c).2 x hx).1, ht]⟩

/-- A timeout that was doubled as often as there were retries is not zero, and the
timeout manager can take it with half of it added. -/
theorem Connection.BackedOff.range (h : x.BackedOff cfg) (hok : cfg.HandshakeOk) :
    x.timeout ≠ 0 ∧ x.timeout.toNat < 0x4000000 ∧ x.toAttempts.toNat < 0x4000000 := by
  have hpos : 0 < cfg.tcpHandshakeTo.toNat := by
    have := hok.pos
    bv_omega
  have hto := h.timeout
  have hmax := hok.range
  rw [Nat.shiftLeft_eq] at hto hmax
  have hle := Nat.mul_le_mul_left cfg.tcpHandshakeTo.toNat (Nat.pow_le_pow_right Nat.two_pos h.attempts)
  have hge := Nat.le_mul_of_pos_left (2 ^ x.toAttempts.toNat) hpos
  have hself := Nat.lt_two_pow_self (n := x.toAttempts.toNat)
  refine ⟨fun h0 => ?_, by omega, by omega⟩
  have hz : x.timeout.toNat = 0 := congrArg BitVec.toNat h0
  omega

theorem Connection.BackedOff.drawn (h : x.BackedOff cfg) (hok : cfg.HandshakeOk) (rnd : BitVec 32) :
    (TimerType.handshake.us x.timeout rnd).toNat < 0x8000000 := by
  obtain ⟨h0, hlt, -⟩ := h.range hok
  have hmod : (rnd % x.timeout).toNat < x.timeout.toNat := by
    rw [BitVec.toNat_umod]
    exact Nat.mod_lt _ (by bv_omega)
  have hdiv : (x.timeout / 2).toNat = x.timeout.toNat / 2 := BitVec.toNat_udiv
  rw [TimerType.us, BitVec.toNat_add, hdiv]
  exact (Nat.mod_le ..).trans_lt (by omega)

theorem connTimeoutArm_ends (hx : s.conns c = some x) (ha : x.toArmed = false) (hto : cfg.HandshakeOk → x.timeout ≠ 0) :
    Ends (Stop.Benign cfg)
      (fun s' => s' = (s.setConn c { x with toArmed := true }).callTimer (.arm c .handshake x.timeout)) (connTimeoutArm c s) := by
  rw [connTimeoutArm, conn_eq hx, ok_bind, ha, if_neg Bool.false_ne_true]
  split
  · rename_i h0
    exact fun hok => hto hok h0
  · rfl

/-- Only the connection `c` is changed, and not the queue of completions. -/
structure Frame (c : Nat) (s s' : Slow) : Prop where
  queue : s'.connAsyncQ = s.connAsyncQ
  conns : ∀ d, d ≠ c → s'.conns d = s.conns d

theorem connArpDone_ends (hx : s.conns c = some x) (ha : x.toArmed = false) :
    Ends (Stop.Benign cfg) (fun s' => ∃ out, s' = { s with
      conns := update s.conns c (some { x.arpDone cfg with toArmed := true })
      timers := update s.timers c (some .handshake)
      timerCalls := .arm c .handshake (x.arpDone cfg).timeout :: s.timerCalls, out := out }) (connArpDone cfg c s) := by
  rw [connArpDone, conn_eq hx, ok_bind]
  refine (connTimeoutArm_ends (x := x.arpDone cfg) (setConn_conns ..) ha (·.pos)).bind fun s₁ e => ?_
  subst e
  exact ⟨_, by simp only [setConn, callTimer, TimerCall.after, sendControl, emit, update_idem]; rfl⟩

theorem Connection.arpDone_backedOff (x : Connection) : ({ x.arpDone cfg with toArmed := true } : Connection).BackedOff cfg where
  attempts := Nat.zero_le _
  timeout := rfl

theorem SlowLife.armed (h : SlowLife cfg s peers) (hc : s.timers c = none) (hb : c < addresses)
    (hx : cfg.HandshakeOk → x.BackedOff cfg) :
    TimerLog cfg (.arm c .handshake x.timeout :: s.timerCalls) (update s.timers c (some .handshake)) :=
  h.log.arm hc hb fun hok => (hx hok).drawn hok

theorem connArpDone_follows (h : SlowOf cfg s peers) (hx : s.conns c = some x) (hp : peers c = some p)
    (hph : p.phase = .resolving) (hq : c ∉ s.connAsyncQ ∧ c ∉ s.arpWait) (hP : ∀ v, P v (.sends c)) :
    Ends (Stop.Benign cfg) (fun s' => Follows cfg P (s.life peers) s' ∧ Frame c s s') (connArpDone cfg c s) := by
  have hxp := h.peerOf hx hp
  have harm := h.timer_eq hx hp
  rw [hph] at harm
  refine (connArpDone_ends hx harm.2).imp ?_
  rintro _ ⟨out, rfl⟩
  refine ⟨?_, rfl, fun d hd => update_of_ne hd ..⟩
  exact Follows.change (.sends c) h.toSlowLife (fun d _ => h.timers d) ⟨p, hp, hph⟩ (hP _)
    (setPhase_life s hp .synSent) rfl (.some ⟨rfl, hxp.key, hxp.app⟩ (h.below hx))
    (h.family_phase hp (by rw [hph]; rfl) rfl) (h.queues.keep hq ..) rfl (.handshake rfl rfl fun _ => x.arpDone_backedOff)
    (h.armed (x := { x.arpDone cfg with toArmed := true }) harm.1 (h.below hx) fun _ => x.arpDone_backedOff)

/-- `conn_unregister`, for a connection in the hash table. The table of ports does
not matter. -/
theorem connUnregister_eq (h : SlowLife cfg s peers) (hx : s.conns c = some x) (hp : (s.life peers).Registered c p) :
    ∃ ht nx, (∀ ports, connUnregister cfg c { s with ports := ports } =
        .ok { s with ports := ports, htNext := nx, hashtable := ht }) ∧
      Family nx ({ s with hashtable := ht } : Slow).heads
        (update (fun d => (peers d).bind (·.place cfg)) c none) := by
  have hxp := h.peerOf hx hp.1
  have hpl : (peers c).bind (·.place cfg) = some (.bucket (htIndex cfg.crc x.key)) := by
    rw [show peers c = some p from hp.1, bind_some, Peer.place_registered hp.2, hxp.key]
  obtain ⟨h', nx, e, hf⟩ := h.family.unlink h.alive_place h.turns hpl
  refine ⟨update s.hashtable (htIndex cfg.crc x.key) h', nx, fun ports => ?_, ?_⟩
  · have hc : ({ s with ports := ports } : Slow).conn c = .ok x := conn_eq hx
    have e' : unlink ({ s with ports := ports } : Slow).alive s.htNext (addresses + 1)
        (s.hashtable (htIndex cfg.crc x.key)) c = .ok (some (h', nx)) := e
    simp [connUnregister, hc, ok_bind, e']
  · rw [heads_hashtable]
    exact hf

theorem connTimeoutDisarm_eq (hx : s.conns c = some x) (ha : x.toArmed = true) :
    connTimeoutDisarm c s = .ok ((s.setConn c { x with toArmed := false }).callTimer (.disarm c)) := by
  rw [connTimeoutDisarm, conn_eq hx, ok_bind, if_pos ha]

theorem connTimeoutClear_eq (hx : s.conns c = some x) (ha : x.toArmed = (s.timers c).isSome)
    (hlog : TimerLog cfg s.timerCalls s.timers) : ∃ calls, connTimeoutClear c s = .ok { s.setConn c { x with toArmed := false } with
      timers := update s.timers c none, timerCalls := calls } ∧ TimerLog cfg calls (update s.timers c none) := by
  rw [connTimeoutClear, conn_eq hx, ok_bind]
  split
  · rename_i harm
    exact ⟨_, connTimeoutDisarm_eq hx harm, hlog.clear (isSome_iff_ne_none.mp (ha ▸ harm)) (.inl rfl)⟩
  · rename_i harm
    have ht : s.timers c = none := not_isSome_iff_eq_none.mp (ha ▸ harm)
    have hx' : ({ x with toArmed := false } : Connection) = x := by
      rw [← Bool.eq_false_iff.mpr harm]
    rw [hx', setConn, update_eq_self_iff.mpr hx.symm, update_eq_self_iff.mpr ht.symm]
    exact ⟨_, rfl, hlog⟩

/-- A connection in the hash table that is in no queue, and whose timer may be
out of step with its phase. -/
structure Loose (cfg : SlowConfig) (s : Slow) (peers : Nat → Option Peer) (c : Nat) (x : Connection) (p : Peer) : Prop
    extends SlowLife cfg s peers where
  timers : ∀ d, d ≠ c → TimerOf cfg (s.timers d) (s.conns d) (peers d)
  conn : s.conns c = some x
  reg : (s.life peers).Registered c p
  armed : x.toArmed = (s.timers c).isSome
  unqueued : c ∉ s.connAsyncQ ∧ c ∉ s.arpWait

theorem SlowOf.loose (h : SlowOf cfg s peers) (hx : s.conns c = some x) (hp : (s.life peers).Registered c p)
    (hq : c ∉ s.connAsyncQ ∧ c ∉ s.arpWait) : Loose cfg s peers c x p :=
  ⟨h.toSlowLife, fun d _ => h.timers d, hx, hp, ((h.timers c).2 x hx).1, hq⟩

theorem Loose.write (h : Loose cfg s peers c x p) {t : Nat → Option TimerType} {calls : List TimerCall} (hx' : PeerOf x' p)
    (ht : ∀ d, d ≠ c → t d = s.timers d) (ha : x'.toArmed = (t c).isSome) (hlog : TimerLog cfg calls t) :
    Loose cfg { s with conns := update s.conns c (some x'), timers := t, timerCalls := calls } peers c x' p := by
  have hpeers : update peers c (some p) = peers := update_eq_self_iff.mpr h.reg.1.symm
  refine ⟨⟨fun d => ?_, h.family, ?_, h.inv, hlog⟩, fun d hd => ?_, update_self .., h.reg, ha, h.unqueued⟩
  · have := h.block_update (.some hx' (h.below h.conn)) d
    rwa [hpeers] at this
  · have := h.queues.keep h.unqueued (some x') (some p)
    rwa [hpeers] at this
  · simp only [ht d hd, update_of_ne hd]
    exact h.timers d hd

theorem Loose.disarmed (h : Loose cfg s peers c x p) (harm : x.toArmed = true) {call : TimerCall}
    (hcall : call = .disarm c ∨ call = .expire c) : TimerLog cfg (call :: s.timerCalls) (update s.timers c none) :=
  h.log.clear (isSome_iff_ne_none.mp (h.armed ▸ harm)) hcall

theorem Loose.disarm (h : Loose cfg s peers c x p) {y : Connection} {calls : List TimerCall} (hy : PeerOf y p)
    (ha : y.toArmed = false) (hlog : TimerLog cfg calls (update s.timers c none)) :
    Loose cfg { s with conns := update s.conns c (some y), timers := update s.timers c none, timerCalls := calls } peers c y p :=
  h.write hy (fun _ hd => update_of_ne hd ..) (by rw [ha, update_self]; rfl) hlog

theorem connFailed_follows (h : Loose cfg s peers c x p) {status : Int} (hst : status ≠ 0) {room : Bool}
    (hP : ∀ v, P v (.fails c p.phase room)) :
    Ends (Stop.Benign cfg) (fun s' => Follows cfg P (s.life peers) s' ∧ Frame c s s') (connFailed cfg room c status s) := by
  have hxp := h.peerOf h.conn h.reg.1
  obtain ⟨htab, nx, e, hf⟩ := connUnregister_eq h.toSlowLife h.conn h.reg
  obtain ⟨calls, hclear, hlog⟩ := connTimeoutClear_eq (s := { s with htNext := nx, hashtable := htab }) h.conn h.armed h.log
  rw [connFailed, e s.ports, ok_bind, hclear, ok_bind]
  simp only [conn, setConn, update_self, ok_bind, appifConnOpened, tcpDestroy, if_neg hst, ↓reduceIte]
  cases room with
  | true =>
    refine ⟨?_, rfl, fun d hd => by simp [emit, free, update_of_ne hd]⟩
    exact Follows.change (.fails c p.phase true) h.toSlowLife h.timers ⟨p, h.reg, rfl⟩ (hP _) rfl
      (by simp [emit, free]) .none hf (h.queues.keep h.unqueued ..) rfl (.other rfl (by simp) (by simp)) hlog
  | false =>
    refine ⟨?_, rfl, fun d hd => by simp [update_of_ne hd]⟩
    exact Follows.change (.fails c p.phase false) h.toSlowLife h.timers ⟨p, h.reg, rfl⟩ (hP _)
      (setPhase_life s h.reg.1 .failed) (update_idem ..) (.some ⟨rfl, hxp.key, hxp.app⟩ (h.below h.conn)) hf
      (h.queues.keep h.unqueued ..) rfl (.other rfl (by simp) fun y hy => by cases hy; rfl) hlog

/-- A packet makes the connection fail. -/
def Connection.failsOn (x : Connection) (b : Nat → Byte) (opts : TcpOpts) (flow : Option (BitVec 32)) : Bool :=
  if x.status = .synSent then
    RawPkt.flags b &&& (tcpSyn ||| tcpAck) ≠ tcpSyn ||| tcpAck || opts.ts.isNone || flow.isNone
  else x.status = .opened && RawPkt.flags b = tcpSyn && opts.ts.isNone

theorem Follows.after (hm : ReflTransGen (Life.Moves cfg P) v (s.life peers)) (h : Follows cfg P (s.life peers) s') :
    Follows cfg P v s' := by
  obtain ⟨peers', hms, hs⟩ := h
  exact ⟨peers', hm.trans hms, hs⟩

theorem appifConnOpened_ends (hx : s.conns c = some x) (room : Bool) :
    Ends (Stop.Benign cfg) (fun s' => ∃ out, s' = { s with out := out }) (appifConnOpened room c 0 s) := by
  rw [appifConnOpened, conn_eq hx, ok_bind]
  cases room with
  | true => exact ⟨_, rfl⟩
  | false => exact ⟨s.out, rfl⟩

theorem Loose.ccInit (h : Loose cfg s peers c x p) (hg : (s.life peers).Guard cfg (.addFails c)) :
    Loose cfg (s.ccInit c) peers c x p :=
  { h with inv := Life.apply_inv h.inv hg }

theorem Phase.of_synSent (h : ph.Of .synSent) : ph = .synSent := by
  cases ph <;> simp_all [Phase.Of]

theorem Phase.of_opened (h : ph.Of .opened) : ph = .opened := by
  cases ph <;> simp_all [Phase.Of]

theorem SlowOf.out (h : SlowOf cfg s peers) (out : List SlowOut) : SlowOf cfg { s with out := out } peers :=
  { h with }

theorem Follows.emit (h : SlowOf cfg s peers) (o : SlowOut) : Follows cfg P (s.life peers) (s.emit o) :=
  ⟨peers, .refl, h.out _⟩

section

variable {b : Nat → Byte} {opts : TcpOpts} {flow : Option (BitVec 32)} {room : Bool}

theorem connSynSentPacket_ends (h : Loose cfg s peers c x p) (hph : p.phase = .synSent) (harm : x.toArmed = true)
    (hP : ∀ v, P v (.connects c)) (hadd : flow = none → ∀ v, P v (.addFails c)) :
    Ends (Stop.Benign cfg) (fun r => r.1 = 0 ∧ Follows cfg P (s.life peers) r.2 ∨ r.1 ≠ 0 ∧ x.failsOn b opts flow = true ∧
      ∃ x', ReflTransGen (Life.Moves cfg P) (s.life peers) (r.2.life peers) ∧ Loose cfg r.2 peers c x' p)
      (connSynSentPacket c b opts flow room s) := by
  have hxp := h.peerOf h.conn h.reg.1
  have hst : x.status = .synSent := by
    have := hxp.phase
    rwa [hph] at this
  have hlog := h.disarmed harm (.inl rfl)
  have h₁ := h.disarm (y := { x with toArmed := false }) { hxp with } rfl hlog
  rw [connSynSentPacket, connTimeoutDisarm_eq h.conn harm, ok_bind]
  have hneg : (-1 : Int) ≠ 0 := by decide
  split
  · rename_i hfl
    refine .inr ⟨hneg, ?_, _, .refl, h₁⟩
    simp [Connection.failsOn, hst, hfl]
  · cases hts : opts.ts with
    | none =>
      refine .inr ⟨hneg, ?_, _, .refl, h₁⟩
      simp [Connection.failsOn, hst, hts]
    | some ts =>
      have hx' : PeerOf (({ x with toArmed := false } : Connection).synAcked b ts) p := { hxp with }
      simp only [conn, setConn, callTimer, TimerCall.after, update_self, ok_bind, update_idem]
      cases flow with
      | none =>
        have hg : (s.life peers).Guard cfg (.addFails c) := ⟨p, h.reg.1, hph⟩
        refine .inr ⟨hneg, by simp [Connection.failsOn, hst], _, .single ?_, (h.disarm hx' rfl hlog).ccInit hg⟩
        exact ⟨.addFails c, hg, hadd rfl _, rfl⟩
      | some f =>
        refine (appifConnOpened_ends (update_self ..) room).bind fun s₁ hs => .inl ⟨rfl, ?_⟩
        obtain ⟨out, rfl⟩ := hs
        exact Follows.change (.connects c) h.toSlowLife h.timers ⟨p, h.reg.1, hph⟩ (hP _)
          (setPhase_life _ h.reg.1 .opened) (update_idem ..) (.some ⟨rfl, hxp.key, hxp.app⟩ (h.below h.conn))
          (h.family_phase h.reg.1 h.reg.2 rfl) (h.queues.keep h.unqueued ..) rfl
          (.other rfl (by simp) fun y hy => by cases hy; rfl) hlog

theorem connPacket_follows (h : SlowOf cfg s peers) (hx : s.conns c = some x) (hp : (s.life peers).Registered c p)
    (hP : ∀ v, P v (.connects c)) (hadd : flow = none → ∀ v, P v (.addFails c))
    (hfail : x.failsOn b opts flow = true → ∀ v, P v (.fails c p.phase room)) (fnCore : BitVec 32) (flowGroup : BitVec 16) :
    Ends (Stop.Benign cfg) (Follows cfg P (s.life peers)) (connPacket cfg c b opts fnCore flowGroup flow room s) := by
  have hxp := h.peerOf hx hp.1
  rw [connPacket, conn_eq hx, ok_bind]
  split_ifs with hsent hsyn hsyn' hfin
  · have hph : p.phase = .synSent := Phase.of_synSent (hsent ▸ hxp.phase)
    have hq := h.queues.not_mem_of hp.1 (by simp [hph])
    have hx' : PeerOf { x with fnCore := fnCore, flowGroup := flowGroup } p := { hxp with }
    have hl := (h.loose hx hp hq).write hx' (fun _ _ => rfl) ((h.timers c).2 x hx).1 h.log
    have harm : x.toArmed = true := by rw [(h.timer_eq hx hp.1).2, hph]; rfl
    refine (connSynSentPacket_ends hl hph harm hP hadd).bind fun ⟨ret, s₁⟩ hr => ?_
    dsimp only at hr ⊢
    rcases hr with ⟨hr, hf⟩ | ⟨hr, hx, x', hm, hl'⟩
    · rw [if_neg (by simp [hr])]
      exact hf
    · rw [if_pos hr]
      exact (connFailed_follows hl' hr (hfail hx)).imp fun _ hf => hf.1.after hm
  · cases hts : opts.ts with
    | none =>
      have hph : p.phase = .opened := Phase.of_opened (hsyn.1 ▸ hxp.phase)
      have hq := h.queues.not_mem_of hp.1 (by simp [hph])
      have hP : ∀ v, P v (.fails c p.phase room) := hfail (by simp [Connection.failsOn, hsyn, hts])
      exact (connFailed_follows (h.loose hx hp hq) (by decide) hP).imp fun _ hf => hf.1
    | some ts => exact Follows.emit h _
  · exact Follows.refl h
  · exact Follows.emit h _
  · exact Follows.refl h

end

/-! ## Listeners -/

theorem parseOptionsFrom_ends (b : Nat → Byte) (optsLen turns off : Nat) (opts : TcpOpts) :
    Ends (Stop.Benign cfg) (fun _ => True) (parseOptionsFrom b optsLen turns off opts) := by
  induction turns generalizing off opts with
  | zero => trivial
  | succ turns ih =>
    simp only [parseOptionsFrom]
    split_ifs <;> first | trivial | exact ih ..

theorem parseOptions_ends (b : Nat → Byte) (len : BitVec 16) : Ends (Stop.Benign cfg) (fun _ => True) (parseOptions b len) := by
  rw [parseOptions]
  split_ifs
  · trivial
  · exact parseOptionsFrom_ends ..

theorem Peer.place_wait (h : p.place cfg = some (.wait l)) : p.phase = .waiting l := by
  unfold Peer.place at h
  cases hp : p.phase <;> simp_all

theorem SlowLife.waits (h : SlowLife cfg s peers) (hw : s.waitConns l = some c) :
    ∃ x p, s.conns c = some x ∧ peers c = some p ∧ p.phase = .waiting l := by
  have hpl := (h.family.pop (i := Place.wait l) hw).1
  cases hp : peers c with
  | none => simp [hp] at hpl
  | some p =>
    obtain ⟨x, hx, -⟩ := h.conn hp
    rw [hp, bind_some] at hpl
    exact ⟨x, p, hx, rfl, Peer.place_wait hpl⟩

theorem SlowOf.backlog (h : SlowOf cfg s peers) (hg : (s.life peers).Guard cfg e)
    (hv : (s.setListener l li).life peers = (s.life peers).apply e) : SlowOf cfg (s.setListener l li) peers :=
  { h with inv := hv ▸ Life.apply_inv h.inv hg }

theorem Slow.setListener_life (s : Slow) (peers : Nat → Option Peer) (hli : s.listeners l = some li)
    (f : Listener → Listener) :
    (s.setListener l (f li)).life peers = (s.life peers).setBacklog l f := by
  simp [Life.setBacklog, life, setListener, hli]

theorem listenerAccept_follows (h : SlowOf cfg s peers) (hli : s.listeners l = some li) (hw : s.waitConns l ≠ none)
    (hu : li.backlogUsed ≠ 0) (hpop : ∀ v, P v (.pops l)) (hacc : ∀ c v, P v (.accepts c l (li.oldestKey cfg) flow.isSome)) :
    Ends (Stop.Benign cfg) (Follows cfg P (s.life peers)) (listenerAccept cfg l flow s) := by
  obtain ⟨c, hw⟩ := ne_none_iff_exists'.mp hw
  obtain ⟨x, p, hx, hp, hph⟩ := h.waits hw
  have hxp := h.peerOf hx hp
  have hq := h.queues.not_mem_of hp (by simp [hph])
  simp only [listenerAccept, hli, hw, if_neg hu]
  refine (parseOptions_ends ..).bind fun o _ => ?_
  have hdrop : Follows cfg P (s.life peers) (s.setListener l li.pop) := by
    have hv := setListener_life s peers hli Listener.pop
    exact ⟨peers, .single ⟨.pops l, ⟨li, hli, hu⟩, hpop _, hv⟩, h.backlog (e := .pops l) ⟨li, hli, hu⟩ hv⟩
  cases o with
  | none => exact hdrop
  | some opts =>
    cases hts : opts.ts with
    | none =>
      simp only [hts]
      exact hdrop
    | some ts =>
      simp only [hts, conn_eq hx, ok_bind]
      have hg : ∀ flow, (s.life peers).Guard cfg (.accepts c l (li.oldestKey cfg) flow) := fun _ =>
        ⟨p, li, hp, hph, hli, hu, rfl⟩
      have ht := h.timer_eq hx hp
      rw [hph] at ht
      have hplace : (peers c).bind (·.place cfg) = some (.wait l) := by
        rw [hp, bind_some, Peer.place, hph]
      cases flow with
      | none =>
        -- the connection goes on waiting, with the addresses of the packet
        refine Follows.change (c := c) (q := some { p with key := li.oldestKey cfg }) (t := none)
          (.accepts c l (li.oldestKey cfg) false) h.toSlowLife (fun d _ => h.timers d) (hg _) (hacc c _) ?_ rfl
          (.some ⟨?_, rfl, hxp.app⟩ (h.below hx)) ?_ (h.queues.keep hq ..) (update_eq_self_iff.mpr ht.1.symm).symm
          (.other ?_ (by simp) fun y hy => ?_) h.log
        · simp [Life.apply, life, Life.setBacklog, setListener, ccInit, setConn, hp, hli]
        · simp only [hph]
          exact .inr rfl
        · rw [update_eq_self_iff.mpr]
          · exact h.family
          · rw [hplace, bind_some, Peer.place, hph]
        · simp [hph, Phase.timer]
        · cases hy
          exact ht.2
      | some f =>
        simp only [addFlow, ccInit, setConn, connRegister, conn, update_self, update_idem, ok_bind,
          connAsyncEnq, if_neg hq.1]
        have hpop := (h.family.pop (i := Place.wait l) hw).2
        have hpush := hpop.push (update_self ..) (Place.bucket (htIndex cfg.crc (x.accept cfg li ts).key))
        refine Follows.change (c := c) (q := some { p with phase := .synAck, key := li.oldestKey cfg }) (t := none)
          (.accepts c l (li.oldestKey cfg) true) h.toSlowLife (fun d _ => h.timers d) (hg _) (hacc c _) ?_ rfl
          (.some ⟨rfl, rfl, hxp.app⟩ (h.below hx)) ?_ ?_ (update_eq_self_iff.mpr ht.1.symm).symm
          (.other rfl (by simp) fun y hy => ?_) h.log
        · simp [Life.apply, life, Life.setBacklog, setListener, hp, hli]
        · rw [← heads_waitConns, ← heads_hashtable, update_idem] at hpush
          exact hpush
        · exact (h.queues.keep hq ..).push hq (update_self ..) (update_self ..) (.inr ⟨rfl, rfl⟩)
        · cases hy
          exact ht.2

theorem appifListenNewconn_eq (room : Bool) (li : Listener) (ip : BitVec 32) (port : BitVec 16) (s : Slow) :
    ∃ out, appifListenNewconn room li ip port s = { s with out := out } := by
  rw [appifListenNewconn]
  split
  · exact ⟨_, rfl⟩
  · exact ⟨s.out, rfl⟩

/-- `listener_packet`, for a packet of no connection in the hash table. -/
theorem listenerPacket_follows (h : SlowOf cfg s peers) {b : Nat → Byte} (hdest : RawPkt.ipDest b = cfg.ip)
    (hlook : listenerLookup s.ports (RawPkt.key b) = some l)
    (hnone : ∀ c p, (s.life peers).Registered c p → p.key ≠ RawPkt.key b) {fnCore : BitVec 32} {flowGroup : BitVec 16}
    (hP : ∀ v, P v (.stores l b fnCore flowGroup)) (hpop : ∀ v, P v (.pops l))
    (hacc : ∀ c k v, P v (.accepts c l k flow.isSome)) (opts : TcpOpts) (room : Bool) :
    Ends (Stop.Benign cfg) (Follows cfg P (s.life peers)) (listenerPacket cfg l b opts fnCore flowGroup flow room s) := by
  obtain ⟨li, hli, -⟩ := h.inv.portOf l _ (listenerLookup_mem hlook)
  have hli : s.listeners l = some li := hli
  simp only [listenerPacket, hli]
  split_ifs with hfl hlen hholds hfull hw
  · exact Follows.emit h _
  · exact Follows.refl h
  · exact Follows.refl h
  · exact Follows.refl h
  all_goals
    have hg : (s.life peers).Guard cfg (.stores l b fnCore flowGroup) :=
      ⟨li, hli, Bool.eq_false_iff.mpr hholds, hfull, not_not.mp hfl, hdest, hlook, hnone⟩
    have hv := setListener_life s peers hli (·.store b (synLen b) fnCore flowGroup)
    obtain ⟨out, e⟩ := appifListenNewconn_eq room li (RawPkt.ipSrc b) (RawPkt.tcpSrc b)
      (s.setListener l (li.store b (synLen b) fnCore flowGroup))
    have hs := (h.backlog hg hv).out out
    rw [e] at hw ⊢
    have hm : (s.life peers).Moves cfg P
        (({ s.setListener l (li.store b (synLen b) fnCore flowGroup) with out := out } : Slow).life peers) := ⟨_, hg, hP _, hv⟩
  · exact ⟨peers, .single hm, hs⟩
  · refine (listenerAccept_follows hs (update_self ..) hw (li.store_used hfull (h.inv.backlog l li hli)).2 hpop
      (hacc · _)).imp fun s' hf => ?_
    exact hf.after (.single hm)

theorem connRegSynack_follows (h : SlowOf cfg s peers) (hx : s.conns c = some x) (hp : peers c = some p)
    (hph : p.phase = .synAck) (hq : c ∉ s.connAsyncQ ∧ c ∉ s.arpWait) (hP : ∀ v, P v (.delivers c p.app)) (room : Bool) :
    Ends (Stop.Benign cfg) (fun s' => Follows cfg P (s.life peers) s' ∧ Frame c s s') (connRegSynack room c s) := by
  have hxp := h.peerOf hx hp
  have ht := h.timer_eq hx hp
  rw [hph] at ht
  rw [connRegSynack, conn_eq hx, ok_bind, appifAcceptConn]
  simp only [conn, setConn, sendControl, emit, update_self, ok_bind]
  cases room with
  | false => trivial
  | true =>
    refine ⟨?_, rfl, fun d hd => update_of_ne hd ..⟩
    refine Follows.change (c := c) (q := some { p with phase := .opened }) (t := none) (.delivers c p.app) h.toSlowLife
      (fun d _ => h.timers d) ⟨p, hp, hph, rfl⟩ (hP _) ?_ rfl (.some ⟨rfl, hxp.key, hxp.app⟩ (h.below hx))
      (h.family_phase hp (by rw [hph]; rfl) rfl) (h.queues.keep hq ..) (update_eq_self_iff.mpr ht.1.symm).symm
      (.other rfl (by simp) fun y hy => ?_) h.log
    · simp [Life.apply, Life.setPhase, life, hp, hxp.app]
    · cases hy
      exact ht.2

theorem SlowOf.fresh (h : SlowOf cfg s peers) (hc : s.conns c = none) :
    peers c = none ∧ (c ∉ s.connAsyncQ ∧ c ∉ s.arpWait) ∧ s.timers c = none := by
  have hp := h.gone hc
  refine ⟨hp, h.queues.not_mem fun p hp' => ?_, ?_⟩
  · rw [hp] at hp'
    cases hp'
  · rw [(h.timers c).1, hp]
    rfl

theorem tcpAccept_follows (h : SlowOf cfg s peers) {mem : ConnMem} (hm : ∀ m ∈ mem, m.1 < addresses ∧ s.conns m.1 = none)
    (hP : ∀ m ∈ mem, ∀ p v, P v (.waits m.1 p)) (hpop : ∀ l v, P v (.pops l))
    (hacc : ∀ c l k v, P v (.accepts c l k flow.isSome)) (ctx : AppContext) (req : AcceptConn) (l : Option Nat) :
    Ends (Stop.Benign cfg) (fun r => Follows cfg P (s.life peers) r.2) (tcpAccept cfg ctx req l mem flow s) := by
  cases mem with
  | none => exact Follows.refl h
  | some m =>
    obtain ⟨c, junk⟩ := m
    obtain ⟨hc, hfree⟩ := hm _ rfl
    obtain ⟨hp, hq, ht⟩ := h.fresh hfree
    rw [tcpAccept]
    split
    · trivial
    · rename_i l' li hl
      obtain ⟨l'', -, hl⟩ := bind_eq_some_iff.mp hl
      obtain ⟨li', hli, e⟩ := map_eq_some_iff.mp hl
      cases e
      simp only [connAlloc, setConn, update_idem]
      have hpush := h.family.push (c := c) (by rw [hp]; rfl) (Place.wait l')
      rw [← heads_waitConns] at hpush
      have hw : Follows cfg P (s.life peers) { s with
          conns := update s.conns c (some (junk.waiting ctx req li)), htNext := update s.htNext c (s.waitConns l')
          waitConns := update s.waitConns l' (some c) } :=
        Follows.change (q := some ⟨.waiting l', (junk.waiting ctx req li).key, ctx.app⟩) (t := none) (.waits c _)
          h.toSlowLife (fun d _ => h.timers d) ⟨hp, hc, l', li, rfl, hli, rfl⟩ (hP _ rfl ..) rfl rfl
          (.some ⟨.inl rfl, rfl, rfl⟩ hc) hpush (h.queues.keep hq ..) (update_eq_self_iff.mpr ht.symm).symm
          (.other rfl (by simp) fun y hy => by cases hy; rfl) h.log
      split
      · exact hw
      · rename_i hu
        obtain ⟨peers', hms, hs⟩ := hw
        refine (listenerAccept_follows hs hli ?_ hu (hpop l') (hacc · l' _)).bind fun s' hf => hf.after hms
        simp

end TasNic
