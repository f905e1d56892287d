import Mathlib.Algebra.Order.Ring.Int
import TasNic.Sockets.EpollRuns

/-!
# The count of an epoll's sockets

`num_tas` of an epoll is counted by `tas_epoll_ctl` before it finds out whether it can do what it is asked
for, and a socket that is closed takes its registrations with it without being counted. As long as neither
happens (`CountSafe`), `num_tas` is the number of sockets registered, a call of `tas_epoll_ctl` that fails
changes nothing, and `tas_epoll_wait` asks Linux alone exactly when no socket is registered. Duplicated
descriptors change reference counts only; the close of the last one is `sockclose` or `epollDestroy`.
-/

namespace TasNic.Sockets

open Function

namespace EpollMem

/-- The test of `tas_epoll_wait` for going straight to Linux. -/
def bypassesTas (m : EpollMem) (e : Nat) : Bool := m.numTas e == 0

/-- The registrations of an epoll. -/
def registered (m : EpollMem) (e : Nat) : Finset Nat := (Finset.range m.blocks).filter fun r => m.used r = true ∧ m.ep r = e

/-- The sockets on an epoll. -/
def socketsOn (m : EpollMem) (e : Nat) : Finset Nat := (m.registered e).image m.sock

/-- No socket is added that is on the epoll already or for which there is no memory, none
deleted that is not on it, and none closed that is on an epoll. -/
def CountSafe (m : EpollMem) : EpollOp → Prop
  | .ctl e .add s events _ block =>
      events &&& ~~~ epollEt &&& ~~~ (epollIn ||| epollOut ||| epollErr ||| epollHup ||| epollRdhup) ≠ 0 ∨
        (block.isSome = true ∧ s ∉ m.socketsOn e)
  | .ctl e .del s _ _ _ => s ∈ m.socketsOn e
  | .sockclose s => ∀ r < m.blocks, m.used r = true → m.sock r ≠ s
  | _ => True

instance CountSafe.dec (m : EpollMem) (op) : Decidable (m.CountSafe op) := by
  induction op using EpollOp.casesOn with
  | ctl _ op => induction op using CtlOp.casesOn <;> dsimp only [CountSafe] <;> infer_instance
  | _ => dsimp only [CountSafe]; infer_instance

/-- The registrations of an epoll are counted, and are for different sockets. -/
def Counts (m : EpollMem) (e : Nat) : Prop :=
  m.blocks < 2 ^ 32 ∧ (m.epolls e = true →
    m.numTas e = BitVec.ofNat 32 (m.registered e).card ∧ Set.InjOn m.sock (m.registered e))

variable {m m' : EpollMem} {L L' : Nat × Bool → List Nat} {S : Nat → List Nat} {d e s r : Nat}

/-- What the count does not depend on. -/
theorem Counts.congr (h : m.Counts d) (hb : m'.blocks = m.blocks) (hu : m'.used = m.used) (he : m'.ep = m.ep)
    (hk : m'.sock = m.sock) (hn : m'.numTas = m.numTas) (hl : m'.epolls = m.epolls) : m'.Counts d := by
  rw [Counts, registered, hb, hu, he, hk, hn, hl]
  exact h

@[simp] theorem mem_registered : r ∈ m.registered e ↔ r < m.blocks ∧ m.used r = true ∧ m.ep r = e := by
  rw [registered, Finset.mem_filter, Finset.mem_range]

theorem Inv.mem_registered (h : m.Inv L S []) : r ∈ m.registered e ↔ m.used r = true ∧ m.ep r = e :=
  EpollMem.mem_registered.trans (and_iff_right_of_imp fun hr => h.block r hr.1)

theorem Counts.esActivate (h : m.Counts d) (r : Nat) : (m.esActivate r).Counts d := by
  rw [EpollMem.esActivate]
  split_ifs
  · exact h
  · exact h.congr rfl rfl rfl rfl rfl rfl

theorem Counts.epollSetLoop {newevs : BitVec 32} {turns : Nat} {o : Option Nat} (h : m.Counts d)
    (hs : epollSetLoop newevs turns m o = some m') : m'.Counts d := by
  induction turns generalizing m o with
  | zero => cases hs
  | succ turns ih =>
    cases o with
    | none =>
      cases hs
      exact h
    | some r =>
      refine ih ?_ hs
      split_ifs
      · exact h
      · exact h.esActivate r

theorem Counts.addRegistration {op : CtlOp} {events events' : BitVec 32} {data data' : BitVec 64} (h : m.Counts d)
    (hop : m.Enabled (.ctl e op s events data (some r))) (hoff : s ∉ m.socketsOn e) :
    (EpollMem.addRegistration { m with numTas := update m.numTas e (m.numTas e + 1) } e s events' data' r).Counts d := by
  obtain ⟨he, -, hb⟩ := hop
  simp only [Option.all_some, Bool.and_eq_true, decide_eq_true_eq, Bool.not_eq_true'] at hb
  have hadd : (added { m with numTas := update m.numTas e (m.numTas e + 1) } e s events' data' r).Counts d := by
    refine ⟨h.1, fun hd => ?_⟩
    have hsock : ∀ x ∈ m.registered d, update m.sock r s x = m.sock x := fun x hx =>
      update_of_ne (by rintro rfl; exact absurd (mem_registered.mp hx).2.1 (by simp [hb.2])) ..
    by_cases hde : d = e
    · subst hde
      have hr : r ∉ m.registered d := by simp [hb.2]
      rw [show EpollMem.registered _ d = insert r (m.registered d) by
        ext x
        by_cases hx : x = r <;> simp [added, hx, hb], Finset.card_insert_of_notMem hr, BitVec.ofNat_add, ← (h.2 hd).1,
        Finset.coe_insert, Set.injOn_insert hr]
      refine ⟨update_self .., (h.2 hd).2.congr fun x hx => (hsock x hx).symm, ?_⟩
      rintro ⟨x, hx, hxs⟩
      exact hoff (Finset.mem_image.mpr ⟨x, hx, (hsock x hx).symm.trans (hxs.trans (update_self ..))⟩)
    · rw [show EpollMem.registered _ d = m.registered d by
        ext x
        by_cases hx : x = r <;> simp [added, hx, hb, Ne.symm hde]]
      exact ⟨(update_of_ne hde ..).trans (h.2 hd).1, (h.2 hd).2.congr fun x hx => (hsock x hx).symm⟩
  rw [addRegistration_eq]
  split_ifs
  · exact hadd
  · exact hadd.esActivate r

theorem Counts.delRegistration (h : m.Counts d) (hr : r ∈ m.registered e)
    (hs : EpollMem.esRemove { m with numTas := update m.numTas e (m.numTas e - 1) } r = some m') : m'.Counts d := by
  rw [esRemove_eq, Option.map_eq_some_iff] at hs
  obtain ⟨l, -, rfl⟩ := hs
  refine ⟨h.1, fun hd => ?_⟩
  obtain ⟨hn, hinj⟩ := h.2 hd
  rw [show EpollMem.registered _ d = (m.registered d).erase r by
    ext x
    by_cases hx : x = r <;> simp [hx]]
  refine ⟨?_, hinj.mono (Finset.coe_subset.mpr (Finset.erase_subset ..))⟩
  by_cases hde : d = e
  · subst hde
    have hpos := Finset.card_pos.mpr ⟨r, hr⟩
    rw [Finset.card_erase_of_mem hr]
    refine (update_self ..).trans ?_
    rw [hn]
    bv_omega
  · have hr' : r ∉ m.registered d := fun hm => hde ((mem_registered.mp hm).2.2.symm.trans (mem_registered.mp hr).2.2)
    rw [Finset.erase_eq_of_notMem hr', ← hn]
    exact update_of_ne hde ..

/-- Registrations on other epolls are freed. -/
theorem Counts.freed {P : Nat → Prop} (h : m.Counts d) (hf : Freed P m m') (hd : ¬ P d) : m'.Counts d := by
  have hreg : m'.registered d = m.registered d := by
    rw [registered, registered, hf.eq]
    refine Finset.filter_congr fun r _ => and_congr_left ?_
    rintro rfl
    rw [hf.others r hd]
  rw [Counts, hreg, hf.eq]
  exact h

/-- `tas_epoll_ctl`: a call that fails changes nothing. -/
theorem Inv.ctl_counts {op : CtlOp} {events : BitVec 32} {data : BitVec 64} {block : Option Nat} {err : Option Errno}
    (h : m.Inv L S []) (hsafe : m.CountSafe (.ctl e op s events data block))
    (hs : m.tasEpollCtl e op s events data block = some (m', err)) :
    (err ≠ none → m' = m) ∧ (m.Counts d → m.Enabled (.ctl e op s events data block) → m'.Counts d) := by
  have hfound : ∀ r, (S s).find? (fun es => m.ep es == e) = some r → r ∈ m.registered e ∧ m.sock r = s := by
    intro r hr
    obtain ⟨hu, hso⟩ := h.mem_sock.mp (List.mem_of_find?_eq_some hr)
    exact ⟨h.mem_registered.mpr ⟨hu, by simpa using List.find?_some hr⟩, hso⟩
  have hnone : (S s).find? (fun es => m.ep es == e) = none → s ∉ m.socketsOn e := by
    intro hn hon
    obtain ⟨r, hr, hso⟩ := Finset.mem_image.mp hon
    obtain ⟨hu, he⟩ := h.mem_registered.mp hr
    exact absurd he (by simpa using List.find?_eq_none.mp hn r (h.mem_sock.mpr ⟨hu, hso⟩))
  rw [EpollMem.tasEpollCtl, h.find_eq] at hs
  generalize (S s).find? _ = es at hfound hnone hs
  cases op with
  | add =>
    dsimp only at hs
    split_ifs at hs with hun
    · cases hs
      exact ⟨fun _ => rfl, fun hc _ => hc⟩
    · obtain ⟨hblock, hoff⟩ := hsafe.resolve_left hun
      cases es with
      | some r => exact absurd (Finset.mem_image.mpr ⟨r, hfound r rfl⟩) hoff
      | none => cases block with
        | none => cases hblock
        | some r =>
          cases hs
          exact ⟨fun h => absurd rfl h, fun hc hop => hc.addRegistration hop hoff⟩
  | mod =>
    dsimp only at hs
    split_ifs at hs with hun
    · cases hs
      exact ⟨fun _ => rfl, fun hc _ => hc⟩
    · cases es with
      | none =>
        cases hs
        exact ⟨fun _ => rfl, fun hc _ => hc⟩
      | some r =>
        cases hs
        refine ⟨fun h => absurd rfl h, fun hc _ => ?_⟩
        have hm : Counts { m with mask := update m.mask r ((events &&& ~~~ epollEt) ||| epollErr) } d :=
          hc.congr rfl rfl rfl rfl rfl rfl
        split_ifs
        · exact hm
        · exact hm.esActivate r
  | del =>
    cases es with
    | none => exact absurd hsafe (hnone rfl)
    | some r =>
      obtain ⟨m₁, hrem, he⟩ := Option.map_eq_some_iff.mp hs
      cases he
      exact ⟨fun h => absurd rfl h, fun hc _ => hc.delRegistration (hfound r rfl).1 hrem⟩
  | unknown =>
    cases hs
    exact ⟨fun _ => rfl, fun hc _ => hc⟩

theorem Inv.call_counts {op : EpollOp} (h : m.Inv L S []) (hc : m.Counts d) (hop : m.Enabled op) (hsafe : m.CountSafe op)
    (hs : epollCall m op = some m') : m'.Counts d := by
  cases op with
  | socket s =>
    cases hs
    exact hc.congr rfl rfl rfl rfl rfl rfl
  | sockclose s =>
    -- the socket is on no epoll, so the loop ends at once
    have hnil : S s = [] := List.eq_nil_iff_forall_not_mem.mpr fun r hr => by
      obtain ⟨hu, hso⟩ := h.mem_sock.mp hr
      exact hsafe r (h.block r hu) hu hso
    have heps : m.sol.eps s = none := (h.socks.first_eq s).trans (by rw [hnil]; rfl)
    obtain ⟨m₁, hrun, rfl⟩ := Option.map_eq_some_iff.mp hs
    rw [flextcpEpollSockclose, EpollMem.removeAll, heps] at hrun
    cases hrun
    exact hc.congr rfl rfl rfl rfl rfl rfl
  | epollCreate e =>
    cases hs
    refine ⟨hc.1, fun hd => ?_⟩
    by_cases hde : d = e
    · subst hde
      have hreg : m.registered d = ∅ := Finset.eq_empty_of_forall_notMem fun r hr => by
        obtain ⟨hu, rfl⟩ := h.mem_registered.mp hr
        exact Bool.false_ne_true (hop.symm.trans (h.live r hu).2)
      have hcard : (m.registered d).card = 0 := by rw [hreg]; rfl
      have hinj : Set.InjOn m.sock (m.registered d) := by simp [hreg]
      exact ⟨(update_self ..).trans (congrArg (BitVec.ofNat 32) hcard).symm, hinj⟩
    · obtain ⟨hn, hinj⟩ := hc.2 (by simpa [hde] using hd)
      exact ⟨(update_of_ne hde ..).trans hn, hinj⟩
  | epollDestroy e =>
    obtain ⟨m₁, L', S', hrun, -, -, hfreed⟩ := h.epollDestroy e
    rw [epollCall, hrun] at hs
    cases hs
    by_cases hde : d = e
    · exact ⟨by rw [hfreed.eq]; exact hc.1, fun hd => by simp [hde] at hd⟩
    · have hc₁ := hc.freed hfreed hde
      exact ⟨hc₁.1, fun hd => hc₁.2 (by simpa [hde] using hd)⟩
  | ctl e op s events data block =>
    obtain ⟨⟨m₁, err⟩, hrun, rfl⟩ := Option.map_eq_some_iff.mp hs
    exact (h.ctl_counts hsafe hrun).2 hc hop
  | set s evts =>
    rw [epollCall, flextcpEpollSet] at hs
    split at hs
    · cases hs
      exact hc
    · have hset : Counts { m with epEvents := update m.epEvents s (m.epEvents s ||| evts) } d := hc.congr rfl rfl rfl rfl rfl rfl
      exact hset.epollSetLoop hs
  | clear s evts =>
    cases hs
    exact hc.congr rfl rfl rfl rfl rfl rfl
  | poll e k =>
    obtain ⟨l, act, L', p, rest, -, hrun, -⟩ := h.epPollTas e k
    rw [epollCall, hrun] at hs
    cases hs
    exact hc.congr rfl rfl rfl rfl rfl rfl

/-- `num_tas` is the number of sockets on the epoll, a call of `tas_epoll_ctl` that is safe and fails
changes nothing, and Linux alone is asked exactly when no socket is on the epoll. -/
structure CountExact (m : EpollMem) : Prop where
  count : ∀ e, m.epolls e = true → (m.numTas e).toNat = (m.socketsOn e).card
  failed : ∀ e op s events data block m' err, m.CountSafe (.ctl e op s events data block) →
    m.tasEpollCtl e op s events data block = some (m', some err) → m' = m
  bypass : ∀ e, m.epolls e = true → (m.bypassesTas e = true ↔ m.socketsOn e = ∅)

theorem Inv.countExact (h : m.Inv L S []) (hc : ∀ e, m.Counts e) : m.CountExact := by
  have hcount : ∀ e, m.epolls e = true → (m.numTas e).toNat = (m.socketsOn e).card := by
    intro e he
    obtain ⟨hn, hinj⟩ := (hc e).2 he
    have hle : (m.registered e).card ≤ m.blocks := (Finset.card_filter_le ..).trans (Finset.card_range _).le
    rw [socketsOn, Finset.card_image_of_injOn hinj, hn, BitVec.toNat_ofNat, Nat.mod_eq_of_lt (hle.trans_lt (hc e).1)]
  refine ⟨hcount, fun e op s events data block m' err hsafe hs => (h.ctl_counts (d := e) hsafe hs).1 (by simp), fun e he => ?_⟩
  rw [bypassesTas, beq_iff_eq, ← Finset.card_eq_zero, ← hcount e he]
  exact BitVec.toNat_inj.symm

end EpollMem

/-- In every run of safe calls the counts are exact. -/
theorem epoll_count_exact {blocks : Nat} {ops : List EpollOp} (hb : blocks < 2 ^ 32)
    (hops : Run.All epollCall (fun m op => m.Enabled op ∧ m.CountSafe op) (.init blocks) ops) :
    ∃ m, Run.exec epollCall (.init blocks) ops = some m ∧ m.CountExact := by
  have hstep : ∀ m op, (∃ L S, EpollMem.Inv m L S [] ∧ ∀ e, m.Counts e) → m.Enabled op ∧ m.CountSafe op →
      ∃ m', epollCall m op = some m' ∧ ∃ L S, EpollMem.Inv m' L S [] ∧ ∀ e, m'.Counts e := by
    rintro m op ⟨L, S, h, hc⟩ ⟨hop, hsafe⟩
    obtain ⟨m', L', S', hcall, hinv, -⟩ := h.call hop
    exact ⟨m', hcall, L', S', hinv, fun e => h.call_counts (hc e) hop hsafe hcall⟩
  obtain ⟨m, hrun, L, S, hinv, hc⟩ := Run.exec_total hstep
    ⟨_, _, EpollMem.init_inv blocks, fun e => ⟨hb, nofun⟩⟩ hops
  exact ⟨m, hrun, hinv.countExact hc⟩

/-- Two sockets of which one is taken off and added again. -/
def addedAgain : List EpollOp :=
  [.epollCreate 0, .socket 0, .socket 1, .ctl 0 .add 0 epollIn 7 (some 0), .ctl 0 .add 1 epollIn 8 (some 1),
    .ctl 0 .del 1 0 0 none, .ctl 0 .mod 1 epollIn 8 none, .ctl 0 .add 1 epollOut 8 (some 1)]

theorem epoll_count_exact_added_again : ∃ m, Run.exec epollCall (.init 2) addedAgain = some m ∧ m.CountExact ∧
    m.numTas 0 = 2 := by
  obtain ⟨m, hm, hexact⟩ := epoll_count_exact (by decide) (show Run.All epollCall _ (.init 2) addedAgain by decide +kernel)
  exact ⟨m, hm, hexact, Run.forall_exec (P := fun m => m.numTas 0 = 2) (by decide +kernel) hm⟩

/-- Deleting a socket that is not on the epoll fails and is counted, after which the epoll with the other socket is
taken for one without. The count of a socket that was closed is left. -/
theorem epoll_count_wrong :
    (∃ m, Run.exec epollCall (.init 1) [.epollCreate 0, .socket 0, .socket 1, .ctl 0 .add 0 epollIn 7 (some 0),
      .ctl 0 .del 1 0 0 none] = some m ∧ m.socketsOn 0 = {0} ∧ m.bypassesTas 0 = true) ∧
    ∃ m, Run.exec epollCall (.init 1) [.epollCreate 0, .socket 0, .ctl 0 .add 0 epollIn 7 (some 0), .sockclose 0] = some m ∧
      m.socketsOn 0 = ∅ ∧ m.numTas 0 = 1 := by
  decide +kernel

end TasNic.Sockets
