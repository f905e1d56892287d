import Mathlib.Logic.Relation
import Mathlib.Data.List.Perm.Subperm

/-!
# Routes (`slow/routing.c`)

The table of routes is the local network, with no next hop, and the routes of the configuration.
`routing_resolve` looks up a destination, then its next hop, and so on until a route has no next hop.
`routing_init` does not check that this comes to an end, or to the local network.
-/

namespace TasNic

open Relation List

structure ConfigRoute where
  ip : BitVec 32
  ipPrefix : BitVec 8
  nextHopIp : BitVec 32

/-- The part of `config` about addresses and routes. -/
structure RouteConfig where
  ip : BitVec 32
  ipPrefix : BitVec 8
  routes : List ConfigRoute

structure RoutingTableEntry where
  destIp : BitVec 32
  destMask : BitVec 32
  nextHop : BitVec 32
deriving DecidableEq

/-- `prefix_len_mask`. The shift counts modulo 64, as the processor does. -/
def prefixLenMask (len : BitVec 8) : BitVec 32 := (~~~((1#64 <<< ((32 - len).toNat % 64)) - 1)).setWidth 32

/-- The network route of `routing_init`. -/
def networkRoute (cfg : RouteConfig) : RoutingTableEntry :=
  ⟨cfg.ip &&& prefixLenMask cfg.ipPrefix, prefixLenMask cfg.ipPrefix, 0⟩

/-- A turn of the second loop of `routing_init`. -/
def routeEntry (cr : ConfigRoute) : Option RoutingTableEntry :=
  let mask := prefixLenMask cr.ipPrefix
  if mask &&& cr.ip ≠ cr.ip then none else some ⟨cr.ip, mask, cr.nextHopIp⟩

/-- `routing_init`, for the table it leaves; `none` if it fails. -/
def routingInit (cfg : RouteConfig) : Option (List RoutingTableEntry) :=
  (cfg.routes.mapM routeEntry).map (networkRoute cfg :: ·)

def resolve (table : List RoutingTableEntry) (ip : BitVec 32) : Option RoutingTableEntry :=
  table.find? fun e => e.destIp = ip &&& e.destMask

/-- How `routing_resolve` ends: it returns -1, or what `arp_request` returns for an address. -/
inductive Routed where
  | failed
  | arpRequest (ip : BitVec 32)
deriving DecidableEq

/-- `routing_resolve`; `none` if it has not ended after this many lookups. -/
def routingResolve (table : List RoutingTableEntry) : Nat → BitVec 32 → Option Routed
  | 0, _ => none
  | lookups + 1, ip => match resolve table ip with
    | none => some .failed
    | some rte => if rte.nextHop = 0 then some (.arpRequest ip) else routingResolve table lookups rte.nextHop

def RouteConfig.onNetwork (cfg : RouteConfig) (ip : BitVec 32) : Prop :=
  cfg.ip &&& prefixLenMask cfg.ipPrefix = ip &&& prefixLenMask cfg.ipPrefix
deriving Decidable

/-- The next hop of the first route is looked up in the second. -/
def Leads (table : List RoutingTableEntry) (r r' : RoutingTableEntry) : Prop :=
  r.nextHop ≠ 0 ∧ resolve table r.nextHop = some r'

/-- No chain of next hops comes back to a route. -/
def NoLoop (table : List RoutingTableEntry) : Prop := ∀ r ∈ table, ¬ TransGen (Leads table) r r

/-- Addresses outside the local network have routes with a next hop. -/
def NextHops (cfg : RouteConfig) (table : List RoutingTableEntry) : Prop :=
  ∀ ip r, ¬ cfg.onNetwork ip → resolve table ip = some r → r.nextHop ≠ 0

/-- `routing_resolve` ends within as many lookups as there are routes. It fails, or it asks for
an address of the local network. -/
def ResolvesLocally (cfg : RouteConfig) (table : List RoutingTableEntry) (ip : BitVec 32) : Prop :=
  ∃ r, routingResolve table table.length ip = some r ∧ ∀ a, r = .arpRequest a → cfg.onNetwork a

section Walk

variable {cfg : RouteConfig} {table : List RoutingTableEntry} {ip : BitVec 32} {r r' : RoutingTableEntry}

theorem resolve_mem (h : resolve table ip = some r) : r ∈ table := List.mem_of_find?_eq_some h

theorem routingInit_cons (h : routingInit cfg = some table) : ∃ routes, table = networkRoute cfg :: routes := by
  obtain ⟨routes, -, rfl⟩ := Option.map_eq_some_iff.mp h
  exact ⟨routes, rfl⟩

theorem length_lt_of_nextHops {V : List RoutingTableEntry} (h : routingInit cfg = some table) (hnodup : V.Nodup)
    (hV : ∀ r ∈ V, r ∈ table ∧ r.nextHop ≠ 0) : V.length < table.length := by
  obtain ⟨routes, rfl⟩ := routingInit_cons h
  have hsub : V ⊆ routes := by
    intro r hr
    obtain ⟨hmem, hne⟩ := hV r hr
    rcases mem_cons.mp hmem with rfl | hmem
    · exact absurd rfl hne
    · exact hmem
  have := (subperm_of_subset hnodup hsub).length_le
  rw [length_cons]
  omega

/-- The routes `V` were gone through to come to `ip`, all of them different: there are lookups enough
for the rest. -/
theorem routingResolve_ends (h : routingInit cfg = some table) (hloop : NoLoop table) {lookups : Nat}
    {V : List RoutingTableEntry} (hnodup : V.Nodup) (hV : ∀ r ∈ V, r ∈ table ∧ r.nextHop ≠ 0)
    (hleads : ∀ r ∈ V, ∀ r', resolve table ip = some r' → TransGen (Leads table) r r')
    (hlen : table.length ≤ lookups + V.length) : ∃ r, routingResolve table lookups ip = some r := by
  induction lookups generalizing ip V with
  | zero =>
    have := length_lt_of_nextHops h hnodup hV
    omega
  | succ lookups ih =>
    simp only [routingResolve]
    split
    · exact ⟨_, rfl⟩
    rename_i rte hrte
    split
    · exact ⟨_, rfl⟩
    rename_i hne
    have hnew : rte ∉ V := fun hmem => hloop rte (resolve_mem hrte) (hleads rte hmem rte hrte)
    refine ih (nodup_cons.mpr ⟨hnew, hnodup⟩) ?_ ?_ ?_
    · intro r hr
      rcases mem_cons.mp hr with rfl | hr
      · exact ⟨resolve_mem hrte, hne⟩
      · exact hV r hr
    · intro r hr r' hr'
      have hstep : Leads table rte r' := ⟨hne, hr'⟩
      rcases mem_cons.mp hr with rfl | hr
      · exact .single hstep
      · exact (hleads r hr rte hrte).tail hstep
    · rw [length_cons]
      omega

/-- From a route on a loop there is no end. -/
theorem routingResolve_loop (h : TransGen (Leads table) r r) (lookups : Nat) :
    routingResolve table lookups r.nextHop = none := by
  induction lookups generalizing r with
  | zero => rfl
  | succ lookups ih =>
    obtain ⟨r', hstep, hback⟩ := TransGen.head'_iff.mp h
    -- the next route is on the loop as well, and so has a next hop
    have hloop' : TransGen (Leads table) r' r' := TransGen.tail' hback hstep
    obtain ⟨r'', hstep', -⟩ := TransGen.head'_iff.mp hloop'
    simp only [routingResolve, hstep.2]
    rw [if_neg hstep'.1]
    exact ih hloop'

theorem routingResolve_asks {lookups : Nat} {a : BitVec 32} (h : routingResolve table lookups ip = some (.arpRequest a)) :
    ∃ r, resolve table a = some r ∧ r.nextHop = 0 := by
  induction lookups generalizing ip with
  | zero => cases h
  | succ lookups ih =>
    simp only [routingResolve] at h
    split at h
    · cases h
    rename_i rte hrte
    split at h
    · rename_i hzero
      cases h
      exact ⟨rte, hrte, hzero⟩
    · exact ih h

end Walk

/-- `routing_resolve` ends for all destinations with an address of the local network exactly when the
next hops have no loop and only the local network has none. -/
theorem routing_resolve_ends_iff {cfg : RouteConfig} {table : List RoutingTableEntry} (h : routingInit cfg = some table) :
    (∀ ip, ResolvesLocally cfg table ip) ↔ NoLoop table ∧ NextHops cfg table := by
  constructor
  · intro hall
    refine ⟨fun r _ hloop => ?_, fun ip r hip hr hzero => ?_⟩
    · obtain ⟨r', hr', -⟩ := hall r.nextHop
      rw [routingResolve_loop hloop] at hr'
      cases hr'
    · obtain ⟨r', hr', hlocal⟩ := hall ip
      obtain ⟨routes, rfl⟩ := routingInit_cons h
      rw [length_cons, routingResolve, hr] at hr'
      dsimp only at hr'
      rw [if_pos hzero] at hr'
      exact hip (hlocal ip (Option.some.inj hr').symm)
  · rintro ⟨hloop, hnext⟩ ip
    have hends : ∃ r, routingResolve table table.length ip = some r := routingResolve_ends h hloop (V := []) nodup_nil
      (fun _ hr => absurd hr not_mem_nil) (fun _ hr => absurd hr not_mem_nil) (Nat.le_add_right ..)
    obtain ⟨r, hr⟩ := hends
    refine ⟨r, hr, fun a ha => ?_⟩
    rw [ha] at hr
    obtain ⟨rte, hrte, hzero⟩ := routingResolve_asks hr
    by_contra hout
    exact hnext a rte hout hrte hzero

theorem noLoop_of_gateways {cfg : RouteConfig} {table : List RoutingTableEntry} (h : routingInit cfg = some table)
    (hgw : ∀ r ∈ table, r.nextHop ≠ 0 → cfg.onNetwork r.nextHop) : NoLoop table := by
  obtain ⟨routes, rfl⟩ := routingInit_cons h
  intro r hr hloop
  obtain ⟨r', hstep, hback⟩ := TransGen.head'_iff.mp hloop
  -- the first route is the network's, and it has no next hop
  have hr' : r' = networkRoute cfg := by
    have hnet : resolve (networkRoute cfg :: routes) r.nextHop = some (networkRoute cfg) :=
      List.find?_cons_of_pos (decide_eq_true (hgw r hr hstep.1))
    exact Option.some.inj (hstep.2.symm.trans hnet)
  obtain ⟨r'', hstep', -⟩ := TransGen.head'_iff.mp (TransGen.tail' hback hstep)
  rw [hr'] at hstep'
  exact hstep'.1 rfl

/-- 10.0.0.1/24, and everything else over 10.0.0.254. -/
def gatewayConfig : RouteConfig := ⟨0x0a000001, 24, [⟨0, 0, 0x0a0000fe⟩]⟩

def gatewayTable : List RoutingTableEntry := [⟨0x0a000000, 0xffffff00, 0⟩, ⟨0, 0, 0x0a0000fe⟩]

theorem routing_resolve_ends_iff_gateway : routingInit gatewayConfig = some gatewayTable ∧
    ∀ ip, ResolvesLocally gatewayConfig gatewayTable ip := by
  have h : routingInit gatewayConfig = some gatewayTable := by decide
  refine ⟨h, (routing_resolve_ends_iff h).mpr ⟨noLoop_of_gateways h (by decide), fun ip r hip hr => ?_⟩⟩
  obtain hnet | hdefault := mem_pair.mp (resolve_mem hr)
  · subst hnet
    have hmatch := List.find?_some hr
    exact absurd (of_decide_eq_true hmatch) hip
  · subst hdefault
    decide

/-- 10.0.0.1/24, and everything else over 11.0.0.1, which is not on the network. -/
def loopConfig : RouteConfig := ⟨0x0a000001, 24, [⟨0, 0, 0x0b000001⟩]⟩

def loopTable : List RoutingTableEntry := [⟨0x0a000000, 0xffffff00, 0⟩, ⟨0, 0, 0x0b000001⟩]

/-- 10.0.0.1/24, and everything else without a next hop. -/
def directConfig : RouteConfig := ⟨0x0a000001, 24, [⟨0, 0, 0⟩]⟩

def directTable : List RoutingTableEntry := [⟨0x0a000000, 0xffffff00, 0⟩, ⟨0, 0, 0⟩]

/-- `routing_init` takes both configurations. With the first the lookups never end, with the second
an address outside the network is asked for. -/
theorem routing_resolve_loops :
    (¬ ∀ cfg table, routingInit cfg = some table → ∀ ip, ResolvesLocally cfg table ip) ∧
      (routingInit loopConfig = some loopTable ∧ ∀ lookups, routingResolve loopTable lookups 0x0b000001 = none) ∧
      (routingInit directConfig = some directTable ∧
        routingResolve directTable 2 0x0b000001 = some (.arpRequest 0x0b000001) ∧ ¬ directConfig.onNetwork 0x0b000001) := by
  have hself : TransGen (Leads loopTable) ⟨0, 0, 0x0b000001⟩ ⟨0, 0, 0x0b000001⟩ := .single ⟨by decide, by decide⟩
  have hnone := routingResolve_loop hself
  refine ⟨fun h => ?_, ⟨by decide, hnone⟩, by decide, by decide, by decide⟩
  obtain ⟨r, hr, -⟩ := h loopConfig loopTable (by decide) 0x0b000001
  rw [hnone] at hr
  cases hr

end TasNic
