import TasNic.Slow.Frames
import TasNic.Slow.Life

/-!
# Connections that wait, and SYNs that are stored

A request to accept and a SYN each look for one partner. `accepts_paired`: after
every step a listener has no connection that waits, or no SYN, if a request that
comes to two or more stored SYNs can take the oldest. If it cannot, the SYN is
dropped and the request waits although there are others (`accept_waits`).
-/

namespace TasNic

open Function Run

/-- The oldest SYN has a timestamp, which `listener_accept` asks for. -/
def Listener.acceptable (li : Listener) : Bool :=
  match parseOptions li.oldest.buf li.oldest.len with
  | .ok (some opts) => opts.ts.isSome
  | _ => false

/-- No connection waits for a listener that has a SYN. -/
def NoneWaits (s : Slow) : Prop := ∀ l li, s.listeners l = some li → s.waitConns l = none ∨ li.backlogUsed = 0

/-- A request that comes to two or more SYNs can take the oldest of them. -/
def PairsOk (s : Slow) : SlowOp → Prop
  | .acceptConn ctx req mem flow => mem.isSome → ∀ li ∈ (s.acceptListener ctx req).bind s.listeners,
      li.backlogUsed ≤ 1 ∨ flow.isSome ∧ li.acceptable
  | _ => True

instance PairsOk.dec (s : Slow) (op) : Decidable (PairsOk s op) := by
  induction op using SlowOp.casesOn <;> dsimp only [PairsOk] <;> infer_instance

variable {cfg : SlowConfig} {s s' : Slow} {l c : Nat} {li : Listener} {flow : Option (BitVec 32)}

theorem Listener.pop_empty (h : li.backlogUsed ≤ 1) (h0 : li.backlogUsed ≠ 0) : li.pop.backlogUsed = 0 := by
  simp only [Listener.pop]
  bv_omega

theorem Pairing.waitConns (h : Pairing cfg l flow li c s s') : s'.waitConns = s.waitConns ∧
    ¬ (flow.isSome ∧ li.acceptable) ∨ s'.waitConns = update s.waitConns l (s.htNext c) := by
  cases h with
  | dropped hparse _ hwait =>
    refine .inl ⟨hwait, fun hok => ?_⟩
    have hacc := hok.2
    unfold Listener.acceptable at hacc
    split at hacc
    · rename_i opts ho
      rw [hparse opts ho] at hacc
      cases hacc
    · cases hacc
  | refused opts ts x _ _ _ hflow _ hwait => exact .inl ⟨hwait, fun hok => by simp [hflow] at hok⟩
  | accepted opts ts x f _ _ _ _ _ hwait => exact .inr hwait

namespace NoneWaits

theorem change {s₀ : Slow} (h : NoneWaits s₀) {li' : Listener} {o : Option Nat}
    (hlis : s'.listeners = update s₀.listeners l (some li')) (hwait : s'.waitConns = update s₀.waitConns l o)
    (hl : o = none ∨ li'.backlogUsed = 0) : NoneWaits s' := by
  intro m li hm
  rw [hlis] at hm
  rw [hwait]
  by_cases e : m = l
  · subst e
    rw [update_self] at hm ⊢
    cases hm
    exact hl
  · rw [update_of_ne e] at hm ⊢
    exact h m li hm

theorem congr (h : NoneWaits s) (hlis : s'.listeners = s.listeners) (hwait : s'.waitConns = s.waitConns) :
    NoneWaits s' := by
  intro m li hm
  rw [hlis] at hm
  rw [hwait]
  exact h m li hm

/-- A SYN comes to a listener: a connection that waits has found the backlog empty, so
that the SYN is the only one. -/
theorem listenerPacket {b : Nat → Byte} {opts : TcpOpts} {fnCore : BitVec 32} {flowGroup : BitVec 16} {room : Bool}
    (h : NoneWaits s) (hs : listenerPacket cfg l b opts fnCore flowGroup flow room s = .ok s') : NoneWaits s' := by
  obtain ⟨li, hli, ⟨-, -, hlis, hwait⟩ | ⟨-, s₁, -, -, hw₁, hl₁, ⟨hnone, rfl⟩ | hacc⟩⟩ := listenerPacket_cases hs
  · exact h.congr hlis hwait
  · exact h.change hl₁ (by rw [hw₁, ← hnone, update_eq_self]) (.inl rfl)
  · obtain ⟨li₁, c, hli₁, hc, hu, hlis, hpair⟩ := listenerAccept_pairs hacc
    rw [hl₁, update_self] at hli₁
    cases hli₁
    rw [hw₁] at hc
    -- the backlog was empty
    have hempty : li.backlogUsed = 0 := (h l li hli).resolve_left (by rw [hc]; nofun)
    have hone : (li.store b (synLen b) fnCore flowGroup).backlogUsed ≤ 1 := by
      simp only [Listener.store, hempty]
      decide
    rw [hl₁, update_idem] at hlis
    obtain ⟨hwait, -⟩ | hwait := hpair.waitConns
    · refine h.change hlis (o := some c) ?_ (.inr (Listener.pop_empty hone hu))
      rw [hwait, hw₁, ← hc, update_eq_self]
    · rw [hw₁] at hwait
      exact h.change hlis hwait (.inr (Listener.pop_empty hone hu))

theorem kinAcceptConn {ctx : AppContext} {req : AcceptConn} {mem : ConnMem} (h : NoneWaits s)
    (hok : PairsOk s (.acceptConn ctx req mem flow)) (hs : kinAcceptConn cfg ctx req mem flow s = .ok s') : NoneWaits s' := by
  obtain ⟨-, -, hlis, hwait⟩ | ⟨c, junk, l, li, rfl, hl, hli, ⟨hu, rfl⟩ | hacc⟩ := kinAcceptConn_cases hs
  · exact h.congr hlis hwait
  · exact h.change (update_eq_self_iff.mpr hli.symm).symm rfl (.inr hu)
  · obtain ⟨li₁, d, hli₁, hd, hu, hlis, hpair⟩ := listenerAccept_pairs hacc
    cases hli.symm.trans hli₁
    cases (s.waits_first ctx req l li c junk).symm.trans hd
    have hnone : s.waitConns l = none := (h l li hli).resolve_right hu
    obtain ⟨hwait, hcan⟩ | hwait := hpair.waitConns
    · have hone := (hok rfl li (by rw [hl]; exact hli)).resolve_right hcan
      exact h.change hlis hwait (.inr (Listener.pop_empty hone hu))
    · rw [show (s.waits ctx req l li c junk).htNext c = none from (update_self ..).trans hnone] at hwait
      exact h.change hlis (hwait.trans (update_idem ..)) (.inl rfl)

end NoneWaits

theorem slowCall_noneWaits {op : SlowOp} (h : NoneWaits s) (hok : PairsOk s op) (hs : slowCall cfg s op = .ok s') :
    NoneWaits s' := by
  have hother : op.forListener = false → NoneWaits s' := by
    intro hop
    obtain ⟨hlis, hwait⟩ := ends_ok (slowCall_listeners hop) hs
    exact h.congr hlis hwait
  cases op with
  | listenOpen ctx req mem =>
    cases hs
    obtain ⟨-, ⟨hlis, hwait⟩ | ⟨l, bufs, -, hlis, hwait⟩⟩ := kinListenOpen_cases ctx req mem s
    · exact h.congr hlis hwait
    · exact h.change hlis hwait (.inl rfl)
  | acceptConn ctx req mem flow => exact h.kinAcceptConn hok hs
  | packet pkt fnCore flowGroup flow room =>
    obtain ⟨-, ⟨-, hlis, hwait⟩ | ⟨c, opts, hc⟩⟩ | ⟨l, opts, -, hl⟩ := tcpPacket_cases hs
    · exact h.congr hlis hwait
    · obtain ⟨-, hlis, hwait⟩ := ends_ok connPacket_leaves hc
      exact h.congr hlis hwait
    · exact h.listenerPacket hl
  | connOpen | connMove | connClose | arpDone | tcpPoll | timeout | ccPoll => exact hother rfl

/-- After every step either no connection waits for a listener or its backlog is
empty. -/
theorem accepts_paired {hint : BitVec 16} {ops : List SlowOp}
    (hops : All (slowStep cfg) (SlowOk PairsOk) (.ok (slowInit hint)) ops)
    (hs : exec (slowStep cfg) (.ok (slowInit hint)) ops = some (.ok s)) : NoneWaits s := by
  suffices hr : Ends (fun _ : Stop => True) NoneWaits (.ok s) from hr
  refine exec_inv (fun r op r' hI hok hstep => ?_) ?_ hops hs
  · cases r with
    | error e => cases hstep
    | ok s₀ =>
      cases hstep
      cases hs' : slowCall cfg s₀ op with
      | error e => trivial
      | ok s₁ => exact slowCall_noneWaits hI hok.2 hs'
  · exact fun l li hli => .inl rfl

/-- Two SYNs come to a listener, the first with or without a timestamp, and then a request
to accept. -/
def twoSyns (ts : Bool) : List SlowOp :=
  [.listenOpen ⟨0, 0⟩ ⟨1, 90, 4, false⟩ (some (0, fun _ => ⟨fun _ => 0, 0⟩)),
    .packet (.plain 81 90 0x02 ts) 0 0 (some 4) true, .packet (.plain 82 90 0x02 true) 0 0 (some 4) true,
    .acceptConn ⟨0, 0⟩ ⟨1, 3, 90⟩ (some (8, .zeroed)) (some 4)]

theorem accepts_paired_two_syns : ∃ s, exec (slowStep .plain) (.ok (slowInit 8192)) (twoSyns true) = some (.ok s) ∧
    NoneWaits s := by
  obtain ⟨r, hr, hok⟩ : ∃ r, exec (slowStep .plain) (.ok (slowInit 8192)) (twoSyns true) = some r ∧ r.toBool := by
    decide +kernel
  cases r with
  | error e => cases hok
  | ok s => exact ⟨s, hr, accepts_paired (by decide +kernel) hr⟩

/-- The connection 8 waits for the listener 0, which has a SYN. -/
def waitsInVain (s : Slow) : Prop := s.waitConns 0 = some 8 ∧ (s.listeners 0).any (·.backlogUsed ≠ 0)
deriving Decidable

theorem NoneWaits.not_inVain (h : NoneWaits s) : ¬ waitsInVain s := by
  rintro ⟨hw, hu⟩
  obtain ⟨li, hli, hne⟩ := (Option.any_eq_true _ _).mp hu
  rcases h 0 li hli with hnone | hzero
  · rw [hw] at hnone
    cases hnone
  · simp [hzero] at hne

/-- The older of two SYNs has no timestamp: it is dropped, and the request goes on
waiting with the other one stored. -/
theorem accept_waits :
    ¬ ∀ (cfg : SlowConfig) (hint : BitVec 16) (ops : List SlowOp),
      All (slowStep cfg) (SlowOk fun _ _ => True) (.ok (slowInit hint)) ops →
      ∀ s, exec (slowStep cfg) (.ok (slowInit hint)) ops = some (.ok s) → NoneWaits s := by
  intro h
  have hr := h .plain 8192 (twoSyns false) (by decide +kernel)
  suffices hvain : ∀ r, exec (slowStep .plain) (.ok (slowInit 8192)) (twoSyns false) = some r →
      Ends (fun _ => True) (fun s => ¬ waitsInVain s) r from not_forall_exec (by decide +kernel) hvain
  intro r hs
  cases r with
  | error e => trivial
  | ok s => exact (hr s hs).not_inVain

end TasNic
