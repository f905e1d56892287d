import TasNic.Slow.TcpSteps
import TasNic.Slow.Backlog

/-!
# Lookup of connections

Two connections in the hash table differ in local port, remote address or remote port: `tcp_open` takes a
port that is not in use, and a listener stores no second SYN of a connection that is in the table or in
its backlog. That is enough as long as the listener for a SYN stays the same while one is stored: with
several listeners on a port it is chosen by a hash modulo their number.
-/

namespace TasNic

open Function Chains Run IdxList List Option

/-- Connections in the table and stored SYNs are for different connections, and a
stored SYN is with the listener that it selects. -/
structure LookupInv (cfg : SlowConfig) (v : Life) : Prop where
  unique : ∀ c d p q, v.Registered c p → v.Registered d q → p.key = q.key → c = d
  fresh : ∀ l li, v.listeners l = some li → ∀ k ∈ li.stored, ∀ c p, v.Registered c p → p.key ≠ k
  select : ∀ l li, v.listeners l = some li → ∀ k ∈ li.stored, k.localIp = cfg.ip ∧ listenerLookup v.ports k = some l
  nodup : ∀ l li, v.listeners l = some li → li.stored.Nodup
  ring : ∀ l li, v.listeners l = some li → li.Ring

variable {cfg : SlowConfig} {v v' : Life} {c l : Nat} {p q : Peer} {li : Listener}

namespace LookupInv

variable (h : LookupInv cfg v)

include h

/-- Connections leave the table or stay in it with their addresses, and lookups of
listeners stay. -/
theorem keep (hreg : ∀ c p, v'.Registered c p → ∃ p', v.Registered c p' ∧ p'.key = p.key)
    (hlis : v'.listeners = v.listeners)
    (hlook : ∀ k l, listenerLookup v.ports k = some l → listenerLookup v'.ports k = some l) : LookupInv cfg v' where
  unique c d p q hp hq e := by
    obtain ⟨p', hp', ep⟩ := hreg c p hp
    obtain ⟨q', hq', eq⟩ := hreg d q hq
    exact h.unique c d p' q' hp' hq' (by rw [ep, eq, e])
  fresh l li hli k hk c p hp := by
    obtain ⟨p', hp', e⟩ := hreg c p hp
    rw [← e]
    exact h.fresh l li (hlis ▸ hli) k hk c p' hp'
  select l li hli k hk :=
    ⟨(h.select l li (hlis ▸ hli) k hk).1, hlook k l (h.select l li (hlis ▸ hli) k hk).2⟩
  nodup l li hli := h.nodup l li (hlis ▸ hli)
  ring l li hli := h.ring l li (hlis ▸ hli)

theorem backlog {f : Listener → Listener} (hli : v.listeners l = some li) (hring : (f li).Ring)
    (hnd : (f li).stored.Nodup) (hsel : ∀ k ∈ (f li).stored, k.localIp = cfg.ip ∧ listenerLookup v.ports k = some l ∧
      ∀ c p, v.Registered c p → p.key ≠ k) : LookupInv cfg (v.setBacklog l f) := by
  constructor
  · exact h.unique
  · intro l' li' hl' k hk
    rcases PortInv.setBacklog_cases hli hl' with ⟨rfl, rfl⟩ | hl'
    · exact (hsel k hk).2.2
    · exact h.fresh l' li' hl' k hk
  · intro l' li' hl' k hk
    rcases PortInv.setBacklog_cases hli hl' with ⟨rfl, rfl⟩ | hl'
    · exact ⟨(hsel k hk).1, (hsel k hk).2.1⟩
    · exact h.select l' li' hl' k hk
  · intro l' li' hl'
    rcases PortInv.setBacklog_cases hli hl' with ⟨rfl, rfl⟩ | hl'
    · exact hnd
    · exact h.nodup l' li' hl'
  · intro l' li' hl'
    rcases PortInv.setBacklog_cases hli hl' with ⟨rfl, rfl⟩ | hl'
    · exact hring
    · exact h.ring l' li' hl'

theorem register (hpeers : v'.peers = update v.peers c (some q)) (hlis : v'.listeners = v.listeners)
    (hlook : ∀ k l, listenerLookup v.ports k = some l → k ≠ q.key → listenerLookup v'.ports k = some l)
    (hreg : ∀ d p, v.Registered d p → p.key ≠ q.key)
    (hsto : ∀ l li, v.listeners l = some li → q.key ∉ li.stored) : LookupInv cfg v' := by
  have hcase : ∀ d p, v'.Registered d p → (d = c ∧ p = q) ∨ v.Registered d p := by
    intro d p hp
    rcases PortInv.registered_update (v := v) rfl hpeers hp with ⟨rfl, e, -⟩ | ⟨-, hp⟩
    · exact .inl ⟨rfl, (some.inj e).symm⟩
    · exact .inr hp
  constructor
  · intro d e p p' hp hp' hk
    rcases hcase d p hp with ⟨rfl, rfl⟩ | hp <;> rcases hcase e p' hp' with ⟨rfl, rfl⟩ | hp'
    · rfl
    · exact absurd hk.symm (hreg e p' hp')
    · exact absurd hk (hreg d p hp)
    · exact h.unique d e p p' hp hp' hk
  · intro l li hli k hk d p hp
    rw [hlis] at hli
    rcases hcase d p hp with ⟨rfl, rfl⟩ | hp
    · exact fun e => hsto l li hli (e ▸ hk)
    · exact h.fresh l li hli k hk d p hp
  · intro l li hli k hk
    rw [hlis] at hli
    obtain ⟨hip, hl⟩ := h.select l li hli k hk
    exact ⟨hip, hlook k l hl fun e => hsto l li hli (e ▸ hk)⟩
  · intro l li hli
    exact h.nodup l li (hlis ▸ hli)
  · intro l li hli
    exact h.ring l li (hlis ▸ hli)

/-- An event that stores a SYN with all its headers, or adds a listener that no
stored SYN selects in place of its own. -/
def Event (v : Life) : LifeEvent → Prop
  | .stores _ b _ _ => pktTcpSize ≤ (synLen b).toNat
  | .listens _ li port => li.backlogLen.toNat ≤ 0x80000000 ∧
      ∀ l' ∈ (v.ports li.port).listeners, ∀ li', v.listeners l' = some li' → ∀ k ∈ li'.stored,
        listenerLookup (update v.ports li.port port) k = some l'
  | _ => True

theorem stores {b : Nat → Byte} {fnCore : BitVec 32} {flowGroup : BitVec 16}
    (hg : v.Guard cfg (.stores l b fnCore flowGroup)) (hb : pktTcpSize ≤ (synLen b).toNat) :
    LookupInv cfg (v.apply (.stores l b fnCore flowGroup)) := by
  obtain ⟨li, hli, hholds, hne, -, hdest, hlook, hnone⟩ := hg
  have hring := h.ring l li hli
  have hnew : RawPkt.key b ∉ li.stored := by
    rw [← Listener.holds_iff hring, hholds]
    exact Bool.false_ne_true
  have hst := Listener.stored_store (b := b) fnCore flowGroup hring hne hb
  refine h.backlog hli (hring.store hne) ?_ fun k hk => ?_
  · rw [hst]
    exact nodup_append.mpr ⟨h.nodup l li hli, nodup_singleton _, fun a ha d hd e => by
      rw [mem_singleton.mp hd] at e
      exact hnew (e ▸ ha)⟩
  · rw [hst] at hk
    rcases mem_append.mp hk with hk | hk
    · exact ⟨(h.select l li hli k hk).1, (h.select l li hli k hk).2, h.fresh l li hli k hk⟩
    · rw [mem_singleton.mp hk]
      exact ⟨hdest, hlook, hnone⟩

theorem pops (hg : v.Guard cfg (.pops l)) : LookupInv cfg (v.setBacklog l Listener.pop) := by
  obtain ⟨li, hli, hu⟩ := hg
  have hring := h.ring l li hli
  have hst := Listener.stored_pop hring hu
  refine h.backlog hli (hring.pop hu) ?_ fun k hk => ?_
  · have := h.nodup l li hli
    rw [hst] at this
    exact (nodup_cons.mp this).2
  · have hk : k ∈ li.stored := by
      rw [hst]
      exact mem_cons_of_mem _ hk
    exact ⟨(h.select l li hli k hk).1, (h.select l li hli k hk).2, h.fresh l li hli k hk⟩

/-- The oldest SYN is for the connection whose addresses `listener_accept` writes. -/
theorem oldestKey_eq (hinv : LifeInv cfg v) (hli : v.listeners l = some li)
    (hu : li.backlogUsed ≠ 0) : li.oldestKey cfg = RawPkt.key li.oldest.buf ∧ RawPkt.key li.oldest.buf ∈ li.stored := by
  have hmem : RawPkt.key li.oldest.buf ∈ li.stored := by
    rw [Listener.stored_pop (h.ring l li hli) hu]
    exact mem_cons_self ..
  obtain ⟨hip, hl⟩ := h.select l li hli _ hmem
  obtain ⟨li', hli', hport⟩ := hinv.portOf l _ (listenerLookup_mem hl)
  rw [hli] at hli'
  cases hli'
  refine ⟨?_, hmem⟩
  rw [Listener.oldestKey, hport, ← hip]
  rfl

theorem accepts {k : FlowKey} {flow : Bool} (hinv : LifeInv cfg v)
    (hg : v.Guard cfg (.accepts c l k flow)) : LookupInv cfg (v.apply (.accepts c l k flow)) := by
  obtain ⟨p, li, hp, hph, hli, hu, rfl⟩ := hg
  obtain ⟨hkey, hmem⟩ := h.oldestKey_eq hinv hli hu
  have hpop := h.pops ⟨li, hli, hu⟩
  cases flow with
  | false =>
    refine hpop.keep (fun d q hq => ?_) rfl fun _ _ e => e
    rcases PortInv.registered_update (v := v) rfl rfl hq with ⟨-, e, hr⟩ | ⟨-, hq⟩
    · rw [hp] at e
      cases e
      simp [hph, Phase.registered] at hr
    · exact ⟨q, hq, rfl⟩
  | true =>
    refine hpop.register (c := c) (q := { p with phase := .synAck, key := li.oldestKey cfg }) ?_ rfl (fun _ _ e _ => e)
      (fun d q hq => ?_) fun l' li' hl' hk => ?_
    · simp [Life.apply, Life.setBacklog, hp]
    · rw [hkey]
      exact h.fresh l li hli _ hmem d q hq
    · -- the same SYN with two listeners would select both
      rw [hkey] at hk
      obtain ⟨-, hsel'⟩ := hpop.select l' li' hl' _ hk
      obtain ⟨-, hsel⟩ := h.select l li hli _ hmem
      have e : l' = l := some.inj (hsel'.symm.trans hsel)
      subst e
      have hl : (v.setBacklog l' Listener.pop).listeners l' = some li.pop := by
        simp [Life.setBacklog, hli]
      rw [hl] at hl'
      cases hl'
      have hnd := h.nodup l' li hli
      rw [Listener.stored_pop (h.ring l' li hli) hu] at hnd
      exact (nodup_cons.mp hnd).1 hk

omit h in
theorem listenerLookup_congr {m n : BitVec 16 → Port} {k : FlowKey} (h : n k.localPort = m k.localPort) :
    listenerLookup n k = listenerLookup m k := by
  unfold listenerLookup
  rw [h]

theorem opens (hinv : LifeInv cfg v) (hg : v.Guard cfg (.opens c p)) :
    LookupInv cfg (v.apply (.opens c p)) := by
  obtain ⟨hpc, -, -, -, hport⟩ := hg
  -- the port is not in use: no connection in the table has it, and no stored SYN
  have hlook : ∀ k l, listenerLookup v.ports k = some l → k.localPort ≠ p.key.localPort := by
    intro k l hl e
    have := listenerLookup_mem hl
    rw [e, hport] at this
    cases this
  refine h.register (c := c) (q := p) rfl rfl (fun k l hl _ => ?_) (fun d q hq e => ?_) fun l li hli hk => ?_
  · exact (listenerLookup_congr (m := v.ports) (update_of_ne (hlook k l hl) ..)).trans hl
  · have := hinv.regPort d q hq
    rw [e, hport] at this
    simp [Port.listeners] at this
  · exact hlook p.key l (h.select l li hli _ hk).2 rfl

theorem listens {port : Port} (hg : v.Guard cfg (.listens l li port))
    (he : Event v (.listens l li port)) : LookupInv cfg (v.apply (.listens l li port)) := by
  obtain ⟨hl, hu, hpos, -⟩ := hg
  obtain ⟨hlen, hsel⟩ := he
  have hnil : li.stored = [] := by simp [Listener.stored, Circ.take, hu]
  have hcase : ∀ l' li', (v.apply (.listens l li port)).listeners l' = some li' → li' = li ∨ v.listeners l' = some li' := by
    intro l' li' hl'
    rcases update_cases hl' with ⟨-, hl'⟩ | ⟨-, hl'⟩
    · exact .inl (some.inj hl').symm
    · exact .inr hl'
  constructor
  · exact h.unique
  · intro l' li' hl' k hk
    rcases hcase l' li' hl' with rfl | hl'
    · simp [hnil] at hk
    · exact h.fresh l' li' hl' k hk
  · intro l' li' hl' k hk
    rcases hcase l' li' hl' with rfl | hl'
    · simp [hnil] at hk
    · obtain ⟨hip, hlk⟩ := h.select l' li' hl' k hk
      refine ⟨hip, ?_⟩
      by_cases e : k.localPort = li.port
      · exact hsel l' (e ▸ listenerLookup_mem hlk) li' hl' k hk
      · rw [← hlk]
        exact listenerLookup_congr (update_of_ne e ..)
  · intro l' li' hl'
    rcases hcase l' li' hl' with rfl | hl'
    · rw [hnil]
      exact nodup_nil
    · exact h.nodup l' li' hl'
  · intro l' li' hl'
    rcases hcase l' li' hl' with rfl | hl'
    · exact ⟨hlen, by bv_omega, fun hor => by
        bv_omega⟩
    · exact h.ring l' li' hl'

theorem apply {e : LifeEvent} (hinv : LifeInv cfg v) (hg : v.Guard cfg e) (he : Event v e) :
    LookupInv cfg (v.apply e) := by
  cases e with
  | opens c p => exact h.opens hinv hg
  | listens l li port => exact h.listens hg he
  | stores l b fnCore flowGroup => exact h.stores hg he
  | pops l => exact h.pops hg
  | accepts c l k flow => exact h.accepts hinv hg
  | expires c p room apps =>
    refine h.keep (fun d q hq => ?_) rfl fun k l hl => ?_
    · rcases PortInv.registered_update (v := v) rfl rfl hq with ⟨-, e, -⟩ | ⟨-, hq⟩
      · cases e
      · exact ⟨q, hq, rfl⟩
    · have hport := portFree_listeners p.key.localPort (ne_nil_of_mem (listenerLookup_mem hl))
      exact (listenerLookup_congr hport).trans hl
  | waits | sends | connects | addFails | fails | delivers | closes | ccPolls =>
    obtain ⟨hports, hlis, hreg⟩ := Life.apply_other hg rfl
    exact h.keep hreg hlis (by rw [hports]; exact fun _ _ e => e)

end LookupInv

/-! ## Runs -/

def InTable (s : Slow) (c : Nat) : Prop := ∃ h l, Chain s.htNext (s.hashtable h) l ∧ c ∈ l

/-- The chains are in order, no two connections in them have the same port and
peer, and `conn_lookup` finds the one that a packet is for. -/
structure LookupSound (cfg : SlowConfig) (s : Slow) : Prop where
  chains : ∀ h, ∃ l, Chain s.htNext (s.hashtable h) l ∧ ∀ c ∈ l, s.alive c = true
  unique : ∀ c d x y, InTable s c → InTable s d → s.conns c = some x → s.conns d = some y →
    x.localPort = y.localPort → x.remoteIp = y.remoteIp → x.remotePort = y.remotePort → c = d
  lookup : ∀ k, k.localIp = cfg.ip → ∃ r, connLookup cfg k s = .ok r ∧
    ∀ c, r = some c ↔ InTable s c ∧ (s.conns c).any (connMatches k) = true

/-- A SYN has all its headers; a backlog is not too long, and with the new listener
every stored SYN selects the listener that it is with. -/
def LookupOk (s : Slow) : SlowOp → Prop
  | .packet pkt _ _ _ _ => RawPkt.flags pkt.buf &&& ~~~(tcpEce ||| tcpCwr) = tcpSyn → pktTcpSize ≤ (synLen pkt.buf).toNat
  | .listenOpen ctx req mem => req.backlog.toNat ≤ 0x80000000 ∧
      ∀ l ∈ (s.ports req.localPort).listeners, ∀ li ∈ s.listeners l, ∀ k ∈ li.stored,
        listenerLookup (kinListenOpen ctx req mem s).ports k = some l
  | _ => True

instance LookupOk.dec (s : Slow) (op) : Decidable (LookupOk s op) := by
  induction op using SlowOp.casesOn <;> dsimp only [LookupOk] <;> infer_instance

theorem LookupOk.event {s : Slow} {op : SlowOp} {e : LifeEvent} (h : LookupOk s op) (hg : v.Guard cfg e)
    (he : op.May cfg s v e) : LookupInv.Event v e := by
  cases e with
  | stores l b fnCore flowGroup =>
    obtain ⟨pkt, fnCore', flowGroup', flow, room, rfl, rfl⟩ := he
    obtain ⟨li, -, -, -, hsyn, -⟩ := hg
    exact h hsyn
  | listens l li port =>
    obtain ⟨ctx, req, bufs, rfl, rfl, hports, hlis, hnew⟩ := he
    refine ⟨h.1, fun l' hl' li' hli' k hk => ?_⟩
    rw [hports] at hl' ⊢
    rw [hlis] at hli'
    rw [← hnew]
    exact h.2 l' hl' li' hli' k hk
  | _ => trivial

section

variable {s : Slow} {peers : Nat → Option Peer}

theorem SlowLife.inTable (h : SlowLife cfg s peers) : InTable s c ↔ ∃ p, (s.life peers).Registered c p := by
  constructor
  · rintro ⟨b, l, hl, hc⟩
    obtain ⟨l', hl', hm⟩ := h.family.list (.bucket b)
    obtain rfl := Chain.unique hl hl'
    obtain ⟨p, hp, hpl⟩ := bind_eq_some_iff.mp ((hm c).mp hc)
    exact ⟨p, hp, (Peer.place_bucket hpl).1⟩
  · rintro ⟨p, hp, hr⟩
    obtain ⟨l, hl, hm⟩ := h.family.list (.bucket (htIndex cfg.crc p.key))
    refine ⟨_, l, hl, (hm c).mpr ?_⟩
    rw [show peers c = some p from hp, bind_some, Peer.place_registered hr]

theorem SlowLife.key_of_matches (h : SlowLife cfg s peers) {x : Connection} {k : FlowKey} (hx : s.conns c = some x)
    (hp : (s.life peers).Registered c p) (hip : k.localIp = cfg.ip) (hm : connMatches k x = true) : p.key = k := by
  have hxp := h.peerOf hx hp.1
  have hl := h.inv.regIp c p hp
  rw [hxp.key] at hl ⊢
  simp only [connMatches, Bool.and_eq_true, decide_eq_true_eq] at hm
  obtain ⟨⟨h₁, h₂⟩, h₃⟩ := hm
  cases k
  simp_all [Connection.key]

theorem LookupInv.sound (hs : SlowOf cfg s peers) (h : LookupInv cfg (s.life peers)) : LookupSound cfg s where
  chains b := by
    obtain ⟨l, hl, hm⟩ := hs.family.list (.bucket b)
    exact ⟨l, hl, fun c hc => hs.alive_place c _ ((hm c).mp hc)⟩
  unique c d x y hc hd hx hy h₁ h₂ h₃ := by
    obtain ⟨p, hp⟩ := hs.inTable.mp hc
    obtain ⟨q, hq⟩ := hs.inTable.mp hd
    have hip := hs.inv.regIp d q hq
    have hqy := (hs.peerOf hy hq.1).key
    refine h.unique c d p q hp hq ?_
    rw [hqy] at hip ⊢
    exact hs.key_of_matches hx hp hip (by simp [connMatches, Connection.key, h₁, h₂, h₃])
  lookup k hip := by
    obtain ⟨r, hr, hsome, hnone⟩ := connLookup_eq hs.toSlowLife k
    refine ⟨r, hr, fun c => ⟨fun e => ?_, fun hcm => ?_⟩⟩
    · obtain ⟨x, p, hx, hp, hm⟩ := hsome c e
      exact ⟨hs.inTable.mpr ⟨p, hp⟩, by rw [hx, any_some, hm]⟩
    · obtain ⟨hc, hm⟩ := hcm
      obtain ⟨p, hp⟩ := hs.inTable.mp hc
      obtain ⟨x, hx, -⟩ := hs.conn hp.1
      rw [hx, any_some] at hm
      have hk := hs.key_of_matches hx hp hip hm
      cases r with
      | none => exact absurd hk (hnone rfl c p hp)
      | some d =>
        obtain ⟨y, q, hy, hq, hm'⟩ := hsome d rfl
        rw [h.unique d c q p hq hp (by rw [hk, hs.key_of_matches hy hq hip hm'])]

end

/-- The process does not stop in a walk along a chain. -/
theorem Life.Stops.not_ht {e : Stop} (h : v.Stops cfg e) : e ≠ .notInHt ∧ ∀ f, e ≠ .ht f := by
  rcases h.kinds with h | h | h <;> cases e <;> first | exact h.elim | simp

theorem conn_lookup_exact {hint : BitVec 16} {ops : List SlowOp}
    (hops : Run.All (slowStep cfg) (SlowOk LookupOk) (.ok (slowInit hint)) ops) {r : SlowProc}
    (hr : Run.exec (slowStep cfg) (.ok (slowInit hint)) ops = some r) :
    Ends (fun e => e ≠ .notInHt ∧ ∀ f, e ≠ .ht f) (LookupSound cfg) r := by
  refine (slowRun_inv (J := LookupInv cfg) ⟨nofun, nofun, nofun, nofun, nofun⟩
    (fun s op v e hC hinv h hg he => h.apply hinv hg (hC.event hg he)) hops hr).mono ?_ ?_
  · rintro e ⟨v, -, -, he⟩
    exact he.not_ht
  · rintro s ⟨peers, hs, h⟩
    exact h.sound hs

/-- Two listeners on a port; a SYN is stored, sent again, and accepted. -/
theorem conn_lookup_exact_two_listeners : ∃ r, Run.exec (slowStep .plain) (.ok (slowInit 8192))
    [.listenOpen ⟨0, 0⟩ ⟨1, 90, 4, true⟩ (some (0, fun _ => ⟨fun _ => 0, 0⟩)),
      .listenOpen ⟨0, 0⟩ ⟨2, 90, 4, true⟩ (some (1, fun _ => ⟨fun _ => 0, 0⟩)),
      .packet (.plain 81 90 0x02 true) 0 0 (some 4) true, .packet (.plain 81 90 0x02 true) 0 0 (some 4) true,
      .acceptConn ⟨0, 0⟩ ⟨1, 3, 90⟩ (some (8, .zeroed)) (some 4), .acceptConn ⟨0, 0⟩ ⟨2, 4, 90⟩ (some (9, .zeroed)) (some 5),
      .packet (.plain 81 90 0x02 true) 0 0 (some 4) true] = some r ∧
    Ends (fun e => e ≠ .notInHt ∧ ∀ f, e ≠ .ht f) (LookupSound .plain) r := by
  exact Run.exists_exec (by decide +kernel) fun r hr => conn_lookup_exact (by decide +kernel) hr

/-- The connections 9 and 8 are in the first chain, for one port and peer. -/
def sameTwice (s : Slow) : Prop :=
  s.hashtable 0 = some 9 ∧ s.htNext 9 = some 8 ∧ s.htNext 8 = none ∧
    ((s.conns 9).map (·.key)).isSome ∧ (s.conns 9).map (·.key) = (s.conns 8).map (·.key)
deriving Decidable

theorem LookupSound.not_twice {s : Slow} (h : LookupSound cfg s) : ¬ sameTwice s := by
  rintro ⟨hh, h9, h8, hs, he⟩
  have hchain : Chain s.htNext (s.hashtable 0) [9, 8] := ⟨hh, h9, h8⟩
  obtain ⟨x, hx⟩ := isSome_iff_exists.mp (isSome_map ▸ hs)
  obtain ⟨y, hy⟩ : ∃ y, s.conns 8 = some y := by
    rw [hx, map_some] at he
    obtain ⟨y, hy, -⟩ := map_eq_some_iff.mp he.symm
    exact ⟨y, hy⟩
  rw [hx, hy, map_some, map_some] at he
  have hk : x.key = y.key := some.inj he
  have := h.unique 9 8 x y ⟨0, _, hchain, by simp⟩ ⟨0, _, hchain, by simp⟩ hx hy (congrArg FlowKey.localPort hk)
    (congrArg FlowKey.remoteIp hk) (congrArg FlowKey.remotePort hk)
  omega

/-- A SYN is stored with the only listener of a port. A second listener is added, and
the SYN is sent again: it is stored with that one, and both are accepted. -/
theorem conn_lookup_twice :
    ¬ ∀ (cfg : SlowConfig) (hint : BitVec 16) (ops : List SlowOp),
      Run.All (slowStep cfg) (SlowOk fun _ _ => True) (.ok (slowInit hint)) ops →
      ∀ r, Run.exec (slowStep cfg) (.ok (slowInit hint)) ops = some r →
        Ends (fun e => e ≠ .notInHt ∧ ∀ f, e ≠ .ht f) (LookupSound cfg) r := by
  intro h
  have hr := h .plain 8192 [.listenOpen ⟨0, 0⟩ ⟨1, 90, 4, true⟩ (some (0, fun _ => ⟨fun _ => 0, 0⟩)),
    .packet (.plain 82 90 0x02 true) 0 0 (some 4) true,
    .listenOpen ⟨0, 0⟩ ⟨2, 90, 4, true⟩ (some (1, fun _ => ⟨fun _ => 0, 0⟩)),
    .packet (.plain 82 90 0x02 true) 0 0 (some 4) true,
    .acceptConn ⟨0, 0⟩ ⟨1, 3, 90⟩ (some (8, .zeroed)) (some 4),
    .acceptConn ⟨0, 0⟩ ⟨2, 4, 90⟩ (some (9, .zeroed)) (some 5)] (by decide +kernel)
  exact Run.not_forall_exec (P := Ends (fun _ => True) fun s => ¬ sameTwice s) (by decide +kernel)
    fun r hs => (hr r hs).mono (fun _ _ => trivial) fun _ hs => hs.not_twice

end TasNic
