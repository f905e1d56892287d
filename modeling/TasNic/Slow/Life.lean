import TasNic.Slow.Tcp

/-!
# The life of a connection

What the calls of the slow path do to its connections, as events. `Life` is the state that the events
change. A connection has a phase in place of its status, so that one on the list of a listener and one in
the hash table differ.
-/

namespace TasNic

open Function Chains Option

theorem update_cases {α β : Type} [DecidableEq α] {f : α → β} {a x : α} {v y : β} (h : update f a v x = y) :
    x = a ∧ v = y ∨ x ≠ a ∧ f x = y := by
  rw [update_apply] at h
  split_ifs at h with e
  · exact .inl ⟨e, h⟩
  · exact .inr ⟨e, h⟩

inductive Phase where
  | waiting (l : Nat)
  | resolving
  | synSent
  | synAck
  | opened
  | closed
  | failed
deriving DecidableEq

namespace Phase

def registered : Phase → Bool
  | waiting _ => false
  | failed => false
  | _ => true

def timer : Phase → Option TimerType
  | synSent => some .handshake
  | closed => some .closed
  | _ => none

end Phase

/-- A connection with its phase, its addresses and its application. -/
structure Peer where
  phase : Phase
  key : FlowKey
  app : Nat

/-- A list that is linked through `ht_next`. -/
inductive Place where
  | bucket (h : Nat)
  | wait (l : Nat)
deriving DecidableEq

def Peer.place (cfg : SlowConfig) (p : Peer) : Option Place :=
  match p.phase with
  | .waiting l => some (.wait l)
  | .failed => none
  | _ => some (.bucket (htIndex cfg.crc p.key))

variable {cfg : SlowConfig}

theorem Peer.place_registered {p : Peer} (h : p.phase.registered = true) :
    p.place cfg = some (.bucket (htIndex cfg.crc p.key)) := by
  unfold Peer.place
  cases hp : p.phase <;> simp_all [Phase.registered]

theorem Peer.place_bucket {p : Peer} {h : Nat} (hp : p.place cfg = some (.bucket h)) :
    p.phase.registered = true ∧ htIndex cfg.crc p.key = h := by
  unfold Peer.place at hp
  cases hph : p.phase <;> simp_all [Phase.registered]

theorem bind_update {ι : Type} (f : Peer → Option ι) (peers : Nat → Option Peer) (c : Nat) (o : Option Peer) :
    (fun d => (update peers c o d).bind f) = update (fun d => (peers d).bind f) c (o.bind f) := by
  funext d
  by_cases hd : d = c
  · subst hd
    rw [update_self, update_self]
  · rw [update_of_ne hd, update_of_ne hd]

def Port.listeners : Port → List Nat
  | .listen l => [l]
  | .lmulti ls => ls
  | _ => []

theorem listenerLookup_mem {ports : BitVec 16 → Port} {k : FlowKey} {l : Nat} (h : listenerLookup ports k = some l) :
    l ∈ (ports k.localPort).listeners := by
  unfold listenerLookup at h
  cases hp : ports k.localPort with
  | unused => simp [hp] at h
  | conn c => simp [hp] at h
  | listen l' => simp_all [Port.listeners]
  | lmulti ls =>
    rw [hp] at h
    exact List.mem_of_getElem? h

structure Life where
  peers : Nat → Option Peer
  ports : BitVec 16 → Port
  listeners : Nat → Option Listener
  cc : CcList
  flows : Nat → Bool
  apps : AppLists

/-- The connection that the oldest stored packet of a listener is for. -/
def Listener.oldestKey (cfg : SlowConfig) (li : Listener) : FlowKey :=
  ⟨cfg.ip, RawPkt.ipSrc li.oldest.buf, li.port, RawPkt.tcpSrc li.oldest.buf⟩

theorem Listener.pop_used (li : Listener) (hu : li.backlogUsed ≠ 0) (hle : li.backlogUsed ≤ li.backlogLen) :
    li.pop.backlogUsed ≤ li.pop.backlogLen := by
  simp only [Listener.pop]
  bv_omega

theorem Listener.store_used (li : Listener) {b : Nat → Byte} {len : BitVec 16} {fnCore : BitVec 32} {flowGroup : BitVec 16}
    (hne : li.backlogLen ≠ li.backlogUsed) (hle : li.backlogUsed ≤ li.backlogLen) :
    (li.store b len fnCore flowGroup).backlogUsed ≤ (li.store b len fnCore flowGroup).backlogLen ∧
      (li.store b len fnCore flowGroup).backlogUsed ≠ 0 := by
  simp only [Listener.store]
  bv_omega

inductive LifeEvent where
  /-- A connection waits for a listener. -/
  | waits (c : Nat) (p : Peer)
  /-- A connection is opened. -/
  | opens (c : Nat) (p : Peer)
  /-- The address is resolved, and the SYN is sent. -/
  | sends (c : Nat)
  /-- A listener is added to a port. -/
  | listens (l : Nat) (li : Listener) (port : Port)
  /-- A SYN is stored in the backlog. -/
  | stores (l : Nat) (b : Nat → Byte) (fnCore : BitVec 32) (flowGroup : BitVec 16)
  /-- The oldest SYN is dropped. -/
  | pops (l : Nat)
  /-- A connection that waits takes the oldest SYN. If the flow cannot be registered,
  it goes on waiting. -/
  | accepts (c l : Nat) (k : FlowKey) (flow : Bool)
  /-- The SYN-ACK has come, and the flow is registered. -/
  | connects (c : Nat)
  /-- The SYN-ACK has come, and the flow cannot be registered. -/
  | addFails (c : Nat)
  | fails (c : Nat) (phase : Phase) (freed : Bool)
  /-- An accepted connection is passed to its application. -/
  | delivers (c app : Nat)
  | closes (c : Nat) (cc : CcList)
  /-- The timer of a closed connection expires; `room` is for the message. -/
  | expires (c : Nat) (p : Peer) (room : Bool) (apps : AppLists)
  | ccPolls (cc : CcList)

namespace Life

variable (v : Life)

def alive (c : Nat) : Bool := (v.peers c).isSome

def setPeer (c : Nat) (p : Peer) : Life := { v with peers := update v.peers c (some p) }

def setPhase (c : Nat) (ph : Phase) : Life :=
  { v with peers := update v.peers c ((v.peers c).map ({ · with phase := ph })) }

def setBacklog (l : Nat) (f : Listener → Listener) : Life :=
  { v with listeners := update v.listeners l ((v.listeners l).map f) }

/-- The connection `c` is in the hash table. -/
def Registered (c : Nat) (p : Peer) : Prop := v.peers c = some p ∧ p.phase.registered = true

def apply : LifeEvent → Life
  | .waits c p => v.setPeer c p
  | .opens c p =>
    { v.setPeer c p with ports := update v.ports p.key.localPort (.conn c), apps := v.apps.link p.app c }
  | .sends c => v.setPhase c .synSent
  | .listens l li port =>
    { v with listeners := update v.listeners l (some li), ports := update v.ports li.port port }
  | .stores l b fnCore flowGroup => v.setBacklog l (·.store b (synLen b) fnCore flowGroup)
  | .pops l => v.setBacklog l Listener.pop
  | .accepts c l k flow =>
    { v.setBacklog l Listener.pop with
      peers := update v.peers c ((v.peers c).map fun p =>
        { p with phase := if flow then .synAck else p.phase, key := k })
      cc := v.cc.connInit c
      flows := if flow then update v.flows c true else v.flows }
  | .connects c => { v.setPhase c .opened with cc := v.cc.connInit c, flows := update v.flows c true }
  | .addFails c => { v with cc := v.cc.connInit c }
  | .fails c _ freed =>
    if freed then { v with peers := update v.peers c none } else v.setPhase c .failed
  | .delivers c app => { v.setPhase c .opened with apps := v.apps.link app c }
  | .closes c cc => { v.setPhase c .closed with cc := cc, flows := update v.flows c false }
  | .expires c p _ apps =>
    { v with
      peers := update v.peers c none
      ports := portFree v.ports p.key.localPort
      apps := apps }
  | .ccPolls cc => { v with cc := cc }

def Guard (cfg : SlowConfig) : LifeEvent → Prop
  | .waits c p =>
    v.peers c = none ∧ c < addresses ∧ ∃ l li, p.phase = .waiting l ∧ v.listeners l = some li ∧ p.key.localPort = li.port
  | .opens c p =>
    v.peers c = none ∧ c < addresses ∧ (p.phase = .resolving ∨ p.phase = .synSent) ∧ p.key.localIp = cfg.ip ∧
      v.ports p.key.localPort = .unused
  | .sends c => ∃ p, v.peers c = some p ∧ p.phase = .resolving
  | .listens l li port =>
    v.listeners l = none ∧ li.backlogUsed = 0 ∧ li.backlogPos = 0 ∧
      (v.ports li.port = .unused ∧ (port = .listen l ∨ port = .lmulti [l]) ∨
        ∃ ls, v.ports li.port = .lmulti ls ∧ port = .lmulti (ls ++ [l]))
  | .stores l b _ _ => ∃ li, v.listeners l = some li ∧ li.holds (RawPkt.key b) = false ∧
      li.backlogLen ≠ li.backlogUsed ∧ RawPkt.flags b &&& ~~~(tcpEce ||| tcpCwr) = tcpSyn ∧ RawPkt.ipDest b = cfg.ip ∧
      listenerLookup v.ports (RawPkt.key b) = some l ∧ ∀ c p, v.Registered c p → p.key ≠ RawPkt.key b
  | .pops l => ∃ li, v.listeners l = some li ∧ li.backlogUsed ≠ 0
  | .accepts c l k _ => ∃ p li, v.peers c = some p ∧ p.phase = .waiting l ∧ v.listeners l = some li ∧
      li.backlogUsed ≠ 0 ∧ k = li.oldestKey cfg
  | .connects c => ∃ p, v.peers c = some p ∧ p.phase = .synSent
  | .addFails c => ∃ p, v.peers c = some p ∧ p.phase = .synSent
  | .fails c ph _ => ∃ p, v.Registered c p ∧ p.phase = ph
  | .delivers c app => ∃ p, v.peers c = some p ∧ p.phase = .synAck ∧ p.app = app
  | .closes c cc => ∃ p, v.peers c = some p ∧ p.phase = .opened ∧ v.cc.connRemove v.alive c = .ok cc
  | .expires c p room apps => v.peers c = some p ∧ p.phase = .closed ∧
      if room then v.apps.remove v.alive p.app c = .ok apps else apps = v.apps
  | .ccPolls cc => v.cc.poll v.alive = .ok cc

end Life

/-- An event that meets `P` leads from one state to the next. -/
def Life.Moves (cfg : SlowConfig) (P : Life → LifeEvent → Prop) (v v' : Life) : Prop :=
  ∃ e, v.Guard cfg e ∧ P v e ∧ v' = v.apply e

/-! ## Ports and listeners -/

/-- A connection in the hash table has its own port, or that of a listener; the
table of ports and the listeners agree, and no backlog is overfull. -/
structure PortInv (cfg : SlowConfig) (v : Life) : Prop where
  regIp : ∀ c p, v.Registered c p → p.key.localIp = cfg.ip
  regPort : ∀ c p, v.Registered c p →
    v.ports p.key.localPort = .conn c ∨ (v.ports p.key.localPort).listeners ≠ []
  portOf : ∀ l q, l ∈ (v.ports q).listeners → ∃ li, v.listeners l = some li ∧ li.port = q
  listenerOf : ∀ l li, v.listeners l = some li → l ∈ (v.ports li.port).listeners
  backlog : ∀ l li, v.listeners l = some li → li.backlogUsed ≤ li.backlogLen

namespace PortInv

variable {cfg : SlowConfig} {v v' : Life}

theorem keep (h : PortInv cfg v) (hports : v'.ports = v.ports)
    (hreg : ∀ c p, v'.Registered c p → ∃ p', v.Registered c p' ∧ p'.key = p.key)
    (hlis : ∀ l, (v'.listeners l).map (·.port) = (v.listeners l).map (·.port))
    (hback : ∀ l li, v'.listeners l = some li → li.backlogUsed ≤ li.backlogLen) : PortInv cfg v' where
  regIp c p hp := by
    obtain ⟨p', hp', e⟩ := hreg c p hp
    rw [← e]
    exact h.regIp c p' hp'
  regPort c p hp := by
    obtain ⟨p', hp', e⟩ := hreg c p hp
    rw [← e, hports]
    exact h.regPort c p' hp'
  portOf l q hl := by
    rw [hports] at hl
    obtain ⟨li, hli, rfl⟩ := h.portOf l q hl
    have := hlis l
    rw [hli, map_some] at this
    exact map_eq_some_iff.mp this
  listenerOf l li hli := by
    have := hlis l
    rw [hli, map_some] at this
    obtain ⟨li', hli', e⟩ := map_eq_some_iff.mp this.symm
    rw [hports, ← e]
    exact h.listenerOf l li' hli'
  backlog := hback

theorem setBacklog_port (v : Life) (l : Nat) {f : Listener → Listener} (hf : ∀ li, (f li).port = li.port) (l' : Nat) :
    ((v.setBacklog l f).listeners l').map (·.port) = (v.listeners l').map (·.port) := by
  simp only [Life.setBacklog]
  by_cases hl : l' = l
  · subst hl
    rw [update_self, map_map]
    congr 1
    funext li
    exact hf li
  · rw [update_of_ne hl]

theorem setBacklog_cases {l l' : Nat} {li li' : Listener} {f : Listener → Listener} (hli : v.listeners l = some li)
    (hl : (v.setBacklog l f).listeners l' = some li') : (l' = l ∧ li' = f li) ∨ v.listeners l' = some li' := by
  rcases update_cases hl with ⟨rfl, e⟩ | ⟨-, hl⟩
  · rw [hli, map_some] at e
    exact .inl ⟨rfl, (some.inj e).symm⟩
  · exact .inr hl

theorem setBacklog_backlog (h : PortInv cfg v) {l : Nat} {li : Listener} {f : Listener → Listener}
    (hli : v.listeners l = some li) (hf : (f li).backlogUsed ≤ (f li).backlogLen) :
    ∀ l' li', (v.setBacklog l f).listeners l' = some li' → li'.backlogUsed ≤ li'.backlogLen := by
  intro l' li' hl
  rcases setBacklog_cases hli hl with ⟨-, rfl⟩ | hl
  · exact hf
  · exact h.backlog l' li' hl

variable {c : Nat} {p : Peer}

theorem registered_update {v : Life} {peers : Nat → Option Peer} (he : v.peers = peers) {o : Option Peer} {w : Life}
    (hw : w.peers = update peers c o) {d : Nat} (h : w.Registered d p) :
    (d = c ∧ o = some p ∧ p.phase.registered = true) ∨ (d ≠ c ∧ v.Registered d p) := by
  obtain ⟨hp, hr⟩ := h
  rw [hw, ← he] at hp
  rcases update_cases hp with ⟨hd, hp⟩ | ⟨hd, hp⟩
  · exact .inl ⟨hd, hp, hr⟩
  · exact .inr ⟨hd, hp, hr⟩

theorem portOf_update (h : PortInv cfg v) {i q : BitVec 16} {o : Port} {l : Nat} (ho : o.listeners = [])
    (hl : l ∈ (update v.ports i o q).listeners) : ∃ li, v.listeners l = some li ∧ li.port = q := by
  rcases update_cases (Eq.refl (update v.ports i o q)) with ⟨-, e⟩ | ⟨-, e⟩ <;> rw [← e] at hl
  · rw [ho] at hl
    cases hl
  · exact h.portOf l q hl

theorem opens (h : PortInv cfg v) (hg : v.Guard cfg (.opens c p)) :
    PortInv cfg (v.apply (.opens c p)) := by
  obtain ⟨-, -, -, hip, hport⟩ := hg
  -- nothing else is on the port
  have hother : ∀ d q, v.Registered d q → q.key.localPort ≠ p.key.localPort := by
    intro d q hq e
    have := h.regPort d q hq
    rw [e, hport] at this
    simp [Port.listeners] at this
  have hlis : ∀ l li, v.listeners l = some li → li.port ≠ p.key.localPort := by
    intro l li hli e
    have := h.listenerOf l li hli
    rw [e, hport] at this
    cases this
  constructor
  · intro d q hq
    rcases registered_update (v := v) rfl rfl hq with ⟨rfl, e, -⟩ | ⟨-, hq⟩
    · cases e
      exact hip
    · exact h.regIp d q hq
  · intro d q hq
    simp only [Life.apply]
    rcases registered_update (v := v) rfl rfl hq with ⟨rfl, e, -⟩ | ⟨-, hq⟩
    · cases e
      exact .inl (update_self ..)
    · rw [update_of_ne (hother d q hq)]
      exact h.regPort d q hq
  · exact fun l q hl => h.portOf_update rfl hl
  · intro l li hli
    simp only [Life.apply]
    rw [update_of_ne (hlis l li hli)]
    exact h.listenerOf l li hli
  · exact h.backlog

theorem listens (h : PortInv cfg v) {l : Nat} {li : Listener} {port : Port} (hg : v.Guard cfg (.listens l li port)) :
    PortInv cfg (v.apply (.listens l li port)) := by
  obtain ⟨hl, hused, -, hport⟩ := hg
  have hmem : ∀ l', l' ∈ port.listeners ↔ l' = l ∨ l' ∈ (v.ports li.port).listeners := by
    rcases hport with ⟨e, rfl | rfl⟩ | ⟨ls, e, rfl⟩
    · simp [e, Port.listeners]
    · simp [e, Port.listeners]
    · simp [e, Port.listeners, or_comm]
  constructor
  · exact h.regIp
  · intro d q hq
    simp only [Life.apply]
    by_cases hq' : q.key.localPort = li.port
    · rw [hq', update_self]
      exact .inr (List.ne_nil_of_mem ((hmem l).mpr (.inl rfl)))
    · rw [update_of_ne hq']
      exact h.regPort d q hq
  · intro l' q hl'
    have hold : l' ∈ (v.ports q).listeners → ∃ li', update v.listeners l (some li) l' = some li' ∧ li'.port = q := by
      intro hl'
      obtain ⟨li', hli', e⟩ := h.portOf l' _ hl'
      have hne : l' ≠ l := fun he => by
        rw [he, hl] at hli'
        cases hli'
      exact ⟨li', by rw [update_of_ne hne, hli'], e⟩
    simp only [Life.apply] at hl' ⊢
    by_cases hq : q = li.port
    · subst hq
      rw [update_self] at hl'
      rcases (hmem l').mp hl' with rfl | hl'
      · exact ⟨li, update_self .., rfl⟩
      · exact hold hl'
    · rw [update_of_ne hq] at hl'
      exact hold hl'
  · intro l' li' hli'
    simp only [Life.apply]
    rcases update_cases hli' with ⟨rfl, e⟩ | ⟨-, hli'⟩
    · cases e
      rw [update_self]
      exact (hmem l').mpr (.inl rfl)
    · have hold := h.listenerOf l' li' hli'
      by_cases hp : li'.port = li.port
      · rw [hp, update_self]
        exact (hmem l').mpr (.inr (hp ▸ hold))
      · rw [update_of_ne hp]
        exact hold
  · intro l' li' hli'
    rcases update_cases hli' with ⟨-, hli'⟩ | ⟨-, hli'⟩
    · cases hli'
      bv_omega
    · exact h.backlog l' li' hli'

theorem expires (h : PortInv cfg v) {room : Bool} {apps : AppLists} (hg : v.Guard cfg (.expires c p room apps)) :
    PortInv cfg (v.apply (.expires c p room apps)) := by
  obtain ⟨hp, hph, -⟩ := hg
  have hreg : v.Registered c p := ⟨hp, by rw [hph]; rfl⟩
  have hpeer : ∀ d q, (v.apply (.expires c p room apps)).Registered d q → d ≠ c ∧ v.Registered d q := by
    intro d q hq
    rcases registered_update (v := v) rfl rfl hq with ⟨-, e, -⟩ | hq
    · cases e
    · exact hq
  cases hport : v.ports p.key.localPort with
  | conn d =>
    -- the port was for this connection only
    have hd : d = c := by
      rcases h.regPort c p hreg with e | e
      · rw [hport] at e
        exact Port.conn.inj e
      · rw [hport] at e
        exact absurd rfl e
    subst hd
    have hports : (v.apply (.expires d p room apps)).ports = update v.ports p.key.localPort .unused := by
      simp [Life.apply, portFree, hport]
    constructor
    · exact fun e q hq => h.regIp e q (hpeer e q hq).2
    · intro e q hq
      obtain ⟨hne, hq⟩ := hpeer e q hq
      rw [hports]
      by_cases hk : q.key.localPort = p.key.localPort
      · have := h.regPort e q hq
        rw [hk, hport] at this
        rcases this with he | he
        · exact absurd (Port.conn.inj he).symm hne
        · exact absurd rfl he
      · rw [update_of_ne hk]
        exact h.regPort e q hq
    · rw [hports]
      exact fun l q hl => h.portOf_update rfl hl
    · intro l li hli
      have hold := h.listenerOf l li hli
      rw [hports]
      by_cases hk : li.port = p.key.localPort
      · rw [hk, hport] at hold
        cases hold
      · rw [update_of_ne hk]
        exact hold
    · exact h.backlog
  | unused | listen | lmulti =>
    exact h.keep (by simp [Life.apply, portFree, hport]) (fun d q hq => ⟨q, (hpeer d q hq).2, rfl⟩) (fun _ => rfl) h.backlog

theorem accepts (h : PortInv cfg v) {l : Nat} {k : FlowKey} {flow : Bool} (hg : v.Guard cfg (.accepts c l k flow)) :
    PortInv cfg (v.apply (.accepts c l k flow)) := by
  obtain ⟨p, li, hp, hph, hli, hused, rfl⟩ := hg
  have hport : ∀ l', ((v.apply (.accepts c l (li.oldestKey cfg) flow)).listeners l').map (·.port) =
      (v.listeners l').map (·.port) := setBacklog_port v l fun _ => rfl
  have hl := h.listenerOf l li hli
  have hreg : ∀ d q, (v.apply (.accepts c l (li.oldestKey cfg) flow)).Registered d q →
      (d = c ∧ q.key = li.oldestKey cfg) ∨ v.Registered d q := by
    intro d q hq
    rcases registered_update (v := v) rfl rfl hq with ⟨rfl, e, -⟩ | ⟨-, hq⟩
    · rw [hp] at e
      cases e
      exact .inl ⟨rfl, rfl⟩
    · exact .inr hq
  constructor
  · intro d q hq
    rcases hreg d q hq with ⟨-, e⟩ | hq
    · rw [e]
      rfl
    · exact h.regIp d q hq
  · intro d q hq
    rcases hreg d q hq with ⟨-, e⟩ | hq
    · rw [e]
      exact .inr (List.ne_nil_of_mem hl)
    · exact h.regPort d q hq
  · intro l' q hl'
    obtain ⟨li', hli', rfl⟩ := h.portOf l' q hl'
    have := hport l'
    rw [hli', map_some] at this
    exact map_eq_some_iff.mp this
  · intro l' li' hli'
    have := hport l'
    rw [hli', map_some] at this
    obtain ⟨li'', hli'', e⟩ := map_eq_some_iff.mp this.symm
    rw [← e]
    exact h.listenerOf l' li'' hli''
  · exact h.setBacklog_backlog hli (li.pop_used hused (h.backlog l li hli))

end PortInv

def LifeEvent.ofTables : LifeEvent → Bool
  | .opens .. | .listens .. | .stores .. | .pops _ | .accepts .. | .expires .. => true
  | _ => false

/-- The other events leave the ports and the listeners, and put nothing into the hash table. -/
theorem Life.apply_other {v : Life} {e : LifeEvent} (hg : v.Guard cfg e) (he : e.ofTables = false) :
    (v.apply e).ports = v.ports ∧ (v.apply e).listeners = v.listeners ∧
      ∀ c p, (v.apply e).Registered c p → ∃ p', v.Registered c p' ∧ p'.key = p.key := by
  have hset : ∀ {c p} {w : Life} (ph : Phase), v.peers c = some p → p.phase.registered = true →
      w.peers = update v.peers c ((v.peers c).map ({ · with phase := ph })) →
      ∀ d q, w.Registered d q → ∃ p', v.Registered d p' ∧ p'.key = q.key := by
    intro c p w ph hp hr hw d q hq
    rcases PortInv.registered_update rfl hw hq with ⟨rfl, e, -⟩ | ⟨-, hq⟩
    · rw [hp] at e
      cases e
      exact ⟨p, ⟨hp, hr⟩, rfl⟩
    · exact ⟨q, hq, rfl⟩
  cases e with
  | opens | listens | stores | pops | accepts | expires => cases he
  | waits c p =>
    obtain ⟨-, -, l, li, hl, -⟩ := hg
    refine ⟨rfl, rfl, fun d q hq => ?_⟩
    rcases PortInv.registered_update (v := v) rfl rfl hq with ⟨-, e, hr⟩ | ⟨-, hq⟩
    · cases e
      rw [hl] at hr
      cases hr
    · exact ⟨q, hq, rfl⟩
  | sends c =>
    obtain ⟨p, hp, hph⟩ := hg
    exact ⟨rfl, rfl, hset .synSent hp (by rw [hph]; rfl) rfl⟩
  | connects c =>
    obtain ⟨p, hp, hph⟩ := hg
    exact ⟨rfl, rfl, hset .opened hp (by rw [hph]; rfl) rfl⟩
  | fails c ph freed =>
    obtain ⟨p, ⟨hp, hr⟩, -⟩ := hg
    cases freed with
    | true =>
      refine ⟨rfl, rfl, fun d q hq => ?_⟩
      rcases PortInv.registered_update (v := v) rfl rfl hq with ⟨-, e, -⟩ | ⟨-, hq⟩
      · cases e
      · exact ⟨q, hq, rfl⟩
    | false => exact ⟨rfl, rfl, hset .failed hp hr rfl⟩
  | delivers c app =>
    obtain ⟨p, hp, hph, -⟩ := hg
    exact ⟨rfl, rfl, hset .opened hp (by rw [hph]; rfl) rfl⟩
  | closes c cc =>
    obtain ⟨p, hp, hph, -⟩ := hg
    exact ⟨rfl, rfl, hset .closed hp (by rw [hph]; rfl) rfl⟩
  | addFails | ccPolls => exact ⟨rfl, rfl, fun c p hp => ⟨p, hp, rfl⟩⟩

/-- Every event keeps the tables in order. -/
theorem Life.apply_ports {v : Life} {e : LifeEvent} (h : PortInv cfg v) (hg : v.Guard cfg e) :
    PortInv cfg (v.apply e) := by
  cases e with
  | opens c p => exact h.opens hg
  | listens l li port => exact h.listens hg
  | stores l b fnCore flowGroup =>
    obtain ⟨li, hli, -, hne, -⟩ := hg
    exact h.keep rfl (fun c p hp => ⟨p, hp, rfl⟩) (PortInv.setBacklog_port v l fun _ => rfl)
      (h.setBacklog_backlog hli (li.store_used hne (h.backlog l li hli)).1)
  | pops l =>
    obtain ⟨li, hli, hused⟩ := hg
    exact h.keep rfl (fun c p hp => ⟨p, hp, rfl⟩) (PortInv.setBacklog_port v l fun _ => rfl)
      (h.setBacklog_backlog hli (li.pop_used hused (h.backlog l li hli)))
  | accepts c l k flow => exact h.accepts hg
  | expires c p room apps => exact h.expires hg
  | waits | sends | connects | addFails | fails | delivers | closes | ccPolls =>
    obtain ⟨hports, hlis, hreg⟩ := apply_other hg rfl
    exact h.keep hports hreg (fun l => by rw [hlis]) (by rw [hlis]; exact h.backlog)

/-- Connections have addresses, and wait for listeners that exist. -/
structure LifeInv (cfg : SlowConfig) (v : Life) : Prop extends PortInv cfg v where
  below : ∀ c p, v.peers c = some p → c < addresses
  waits : ∀ c p l, v.peers c = some p → p.phase = .waiting l → (v.listeners l).isSome

/-- The walks along lists of connections are short enough. -/
theorem LifeInv.turns {v : Life} (h : LifeInv cfg v) :
    ∀ l : List Nat, l.Nodup → (∀ c ∈ l, v.alive c = true) → l.length < addresses + 1 := by
  intro l hl ha
  refine length_lt_of_below hl fun c hc => ?_
  obtain ⟨p, hp⟩ := isSome_iff_exists.mp (ha c hc)
  exact h.below c p hp

namespace Life

variable {cfg : SlowConfig} {v : Life} {e : LifeEvent}

theorem setBacklog_isSome (v : Life) (l l' : Nat) (f : Listener → Listener) :
    ((v.setBacklog l f).listeners l').isSome = (v.listeners l').isSome := by
  simp only [setBacklog]
  by_cases e : l' = l
  · subst e
    simp
  · rw [update_of_ne e]

theorem apply_listeners {l : Nat} (h : (v.listeners l).isSome) : ((v.apply e).listeners l).isSome := by
  cases e with
  | listens l' li port =>
    simp only [apply]
    by_cases e : l = l'
    · subst e
      simp
    · rwa [update_of_ne e]
  | stores l' b fnCore flowGroup => simpa only [apply, setBacklog_isSome] using h
  | pops l' => simpa only [apply, setBacklog_isSome] using h
  | accepts c l' k flow =>
    have := setBacklog_isSome v l' l Listener.pop
    exact this.trans h
  | fails c ph freed =>
    cases freed <;> exact h
  | _ => exact h

theorem waiting_update {c d l : Nat} {p q : Peer} {ph : Phase} (hp : v.peers c = some p) (hne : ph ≠ .waiting l)
    (hq : update v.peers c ((v.peers c).map ({ · with phase := ph })) d = some q) (hw : q.phase = .waiting l) :
    v.peers d = some q := by
  rcases update_cases hq with ⟨-, hq⟩ | ⟨-, hq⟩
  · rw [hp] at hq
    cases hq
    exact absurd hw hne
  · exact hq

theorem apply_waiting (hg : v.Guard cfg e) {d l : Nat} {q : Peer} (hq : (v.apply e).peers d = some q)
    (hw : q.phase = .waiting l) : (∃ q', v.peers d = some q' ∧ q'.phase = .waiting l) ∨ (v.listeners l).isSome := by
  have hset : ∀ {c p} (ph : Phase), v.peers c = some p → ph ≠ .waiting l →
      update v.peers c ((v.peers c).map ({ · with phase := ph })) d = some q →
      (∃ q', v.peers d = some q' ∧ q'.phase = .waiting l) ∨ (v.listeners l).isSome :=
    fun _ hp hne hq => .inl ⟨q, waiting_update hp hne hq hw, hw⟩
  cases e with
  | waits c p =>
    obtain ⟨-, -, l', li, hl', hli, -⟩ := hg
    rcases update_cases hq with ⟨-, hq⟩ | ⟨-, hq⟩
    · cases hq
      rw [hl'] at hw
      cases hw
      exact .inr (by rw [hli]; rfl)
    · exact .inl ⟨q, hq, hw⟩
  | opens c p =>
    obtain ⟨-, -, hph, -⟩ := hg
    rcases update_cases hq with ⟨-, hq⟩ | ⟨-, hq⟩
    · cases hq
      rcases hph with h | h <;> rw [h] at hw <;> cases hw
    · exact .inl ⟨q, hq, hw⟩
  | sends c =>
    obtain ⟨p, hp, -⟩ := hg
    exact hset .synSent hp nofun hq
  | accepts c l' k flow =>
    obtain ⟨p, li, hp, hph, hli, -⟩ := hg
    rcases update_cases hq with ⟨rfl, e⟩ | ⟨-, hq⟩
    · rw [hp] at e
      cases e
      cases flow with
      | true => cases hw
      | false => exact .inl ⟨p, hp, hw⟩
    · exact .inl ⟨q, hq, hw⟩
  | connects c =>
    obtain ⟨p, hp, -⟩ := hg
    exact hset .opened hp nofun hq
  | fails c ph freed =>
    obtain ⟨p, ⟨hp, -⟩, -⟩ := hg
    cases freed with
    | true =>
      rcases update_cases hq with ⟨-, hq⟩ | ⟨-, hq⟩
      · cases hq
      · exact .inl ⟨q, hq, hw⟩
    | false => exact hset .failed hp nofun hq
  | delivers c app =>
    obtain ⟨p, hp, -⟩ := hg
    exact hset .opened hp nofun hq
  | closes c cc =>
    obtain ⟨p, hp, -⟩ := hg
    exact hset .closed hp nofun hq
  | expires c p room apps =>
    rcases update_cases hq with ⟨-, hq⟩ | ⟨-, hq⟩
    · cases hq
    · exact .inl ⟨q, hq, hw⟩
  | _ => exact .inl ⟨q, hq, hw⟩

theorem apply_below (h : ∀ c p, v.peers c = some p → c < addresses) (hg : v.Guard cfg e) :
    ∀ c p, (v.apply e).peers c = some p → c < addresses := by
  have hup : ∀ {c} (o : Option Peer), (o ≠ none → c < addresses) → ∀ d q, update v.peers c o d = some q → d < addresses := by
    intro c o hc d q hq
    rcases update_cases hq with ⟨rfl, e⟩ | ⟨-, hq⟩
    · exact hc (by simp [e])
    · exact h d q hq
  have hmap : ∀ {c p} (f : Peer → Peer), v.peers c = some p → ∀ d q, update v.peers c ((v.peers c).map f) d = some q →
      d < addresses := fun f hp => hup _ fun _ => h _ _ hp
  cases e with
  | waits c p => exact hup _ fun _ => hg.2.1
  | opens c p => exact hup _ fun _ => hg.2.1
  | sends c => exact hmap _ hg.choose_spec.1
  | accepts c l k flow => exact hmap _ hg.choose_spec.choose_spec.1
  | connects c => exact hmap _ hg.choose_spec.1
  | fails c ph freed =>
    cases freed with
    | true => exact hup none nofun
    | false => exact hmap _ hg.choose_spec.1.1
  | delivers c app => exact hmap _ hg.choose_spec.1
  | closes c cc => exact hmap _ hg.choose_spec.1
  | expires c p room apps => exact hup none nofun
  | _ => exact h

/-- Every event keeps the invariant. -/
theorem apply_inv (h : LifeInv cfg v) (hg : v.Guard cfg e) : LifeInv cfg (v.apply e) := by
  refine ⟨apply_ports h.toPortInv hg, apply_below h.below hg, fun c p l hp hw => apply_listeners ?_⟩
  rcases apply_waiting hg hp hw with ⟨q, hq, hqw⟩ | hl
  · exact h.waits c q l hq hqw
  · exact hl

end Life

end TasNic
