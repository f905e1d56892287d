import TasNic.Sockets.EpollLists

/-!
# Runs with epolls

Every call keeps the lists (`EpollMem.Inv.call`). A poll goes through the active list
from the front: what it goes over and is ready is reported and goes to the back, what
is not ready is deactivated (`EpollMem.Inv.epPollTas`). A ready registration that a
poll does not report gets closer to the front, and no other call moves it back.
-/

namespace TasNic.Sockets

open Function IdxList List

namespace EpollMem

variable {m m' : EpollMem} {L L' : Nat × Bool → List Nat} {S : Nat → List Nat} {pend : List Nat} {e s r : Nat}

/-! ## Sockets and epolls -/

theorem Inv.sock_nil (h : m.Inv L S pend) (hs : m.sockets s = false) : S s = [] := by
  refine eq_nil_iff_forall_not_mem.mpr fun r hr => ?_
  obtain ⟨hu, rfl⟩ := h.mem_sock.mp hr
  simp [(h.live r hu).1] at hs

theorem Inv.ep_nil (h : m.Inv L S pend) (he : m.epolls e = false) (b : Bool) : L (e, b) = [] := by
  refine eq_nil_iff_forall_not_mem.mpr fun r hr => ?_
  obtain ⟨hu, rfl, -⟩ := epPlace_some.mp ((h.eps.family.mem r (e, b)).mp hr)
  simp [(h.live r hu).2] at he

theorem Inv.socket (h : m.Inv L S []) (hs : m.sockets s = false) :
    Inv { m with sockets := update m.sockets s true, epEvents := update m.epEvents s 0
                 sol := { m.sol with eps := update m.sol.eps s none } } L S [] where
  eps := h.eps
  socks := by
    have hfirst := h.socks.first_eq s
    rw [h.sock_nil hs, head?_nil] at hfirst
    exact h.socks.congr rfl rfl (fun x => by rw [← hfirst, update_eq_self]) rfl fun _ => rfl
  ready r hr hrdy := by
    by_cases hsr : m.sock r = s
    · exact absurd (by simp [EpollMem.ready, hsr]) hrdy
    · refine h.ready r hr fun h0 => hrdy ?_
      simpa only [EpollMem.ready, update_of_ne hsr] using h0
  block := h.block
  live r hr := by
    refine ⟨?_, (h.live r hr).2⟩
    by_cases hsr : m.sock r = s
    · exact hsr ▸ update_self ..
    · exact (update_of_ne hsr ..).trans (h.live r hr).1

theorem Inv.epollCreate (h : m.Inv L S []) (he : m.epolls e = false) :
    Inv { m with epolls := update m.epolls e true, numTas := update m.numTas e 0
                 epl := { m.epl with
                   inactive := update m.epl.inactive e none, activeFirst := update m.epl.activeFirst e none
                   activeLast := update m.epl.activeLast e none, numActive := update m.epl.numActive e 0 } } L S [] where
  eps := by
    have hin : update m.epl.inactive e none = m.epl.inactive :=
      update_eq_iff.mpr ⟨((h.eps.family.first_eq (e, false)).trans (by rw [h.ep_nil he]; rfl)).symm, fun _ _ => rfl⟩
    have hfirst : update m.epl.activeFirst e none = m.epl.activeFirst :=
      update_eq_iff.mpr ⟨((h.eps.family.first_eq (e, true)).trans (by rw [h.ep_nil he]; rfl)).symm, fun _ _ => rfl⟩
    have hlast : update m.epl.activeLast e none = m.epl.activeLast :=
      update_eq_iff.mpr ⟨((h.eps.last e).trans (by rw [h.ep_nil he]; rfl)).symm, fun _ _ => rfl⟩
    have hnum : update m.epl.numActive e 0 = m.epl.numActive :=
      update_eq_iff.mpr ⟨((h.eps.num e).trans (by rw [h.ep_nil he]; rfl)).symm, fun _ _ => rfl⟩
    rw [hin, hfirst, hlast, hnum]
    exact h.eps
  socks := h.socks
  ready := h.ready
  block := h.block
  live r hr := by
    refine ⟨(h.live r hr).1, ?_⟩
    by_cases her : m.ep r = e
    · exact her ▸ update_self ..
    · exact (update_of_ne her ..).trans (h.live r hr).2

/-- `flextcp_epoll_sockclose` ends, and nothing is on the list of the socket any more. -/
theorem Inv.sockclose (h : m.Inv L S []) (s : Nat) : ∃ m' L' S', m.flextcpEpollSockclose s = some m' ∧
    Inv { m' with sockets := update m'.sockets s false } L' S' [] ∧
    Kept { m' with sockets := update m'.sockets s false } L L' := by
  have hfirst : ∀ m L S, Inv m L S [] → ∀ r, m.sol.eps s = some r → m.used r = true ∧ True := by
    intro m L S h r hr
    rw [h.socks.first_eq] at hr
    exact ⟨(h.mem_sock.mp (mem_of_head? hr)).1, trivial⟩
  obtain ⟨m', L', S', hrun, hinv, -, hkept, hnone⟩ :=
    h.removeAll (P := fun _ => True) hfirst _ (Nat.lt_succ_of_le m.numUsed_le)
  refine ⟨m', L', S', hrun, { hinv with live := fun r hr => ⟨?_, (hinv.live r hr).2⟩ }, hkept⟩
  rw [hinv.socks.first_eq, head?_eq_none_iff] at hnone
  have hsr : m'.sock r ≠ s := fun e => not_mem_nil (hnone ▸ hinv.mem_sock.mpr ⟨hr, e⟩)
  exact (update_of_ne hsr ..).trans (hinv.live r hr).1

/-- `flextcp_epoll_destroy` ends, and no registration is left. -/
theorem Inv.epollDestroy (h : m.Inv L S []) (e : Nat) : ∃ m' L' S', m.flextcpEpollDestroy e = some m' ∧
    Inv { m' with epolls := update m'.epolls e false } L' S' [] ∧
    Kept { m' with epolls := update m'.epolls e false } L L' ∧ Freed (· = e) m m' := by
  have hfirst : ∀ b, ∀ m L S, Inv m L S [] → ∀ r, m.epl.first (e, b) = some r → m.used r = true ∧ m.ep r = e := by
    intro b m L S h r hr
    rw [h.eps.family.first_eq] at hr
    obtain ⟨hu, he, -⟩ := epPlace_some.mp ((h.eps.family.mem r _).mp (mem_of_head? hr))
    exact ⟨hu, he⟩
  obtain ⟨m₁, L₁, S₁, hrun₁, hinv₁, hfreed₁, hkept₁, hnone₁⟩ :=
    h.removeAll (P := (· = e)) (hfirst true) _ (Nat.lt_succ_of_le m.numUsed_le)
  obtain ⟨m', L', S', hrun, hinv, hfreed, hkept, hnone⟩ :=
    hinv₁.removeAll (P := (· = e)) (hfirst false) _ (Nat.lt_succ_of_le m₁.numUsed_le)
  have hleft : ∀ {m L S b} {r : Nat}, Inv m L S [] → m.epl.first (e, b) = none → m.used r = true → m.ep r = e → m.active r ≠ b := by
    intro m L S b r h hnone hr he ha
    rw [h.eps.family.first_eq, head?_eq_none_iff] at hnone
    exact not_mem_nil (hnone ▸ (h.eps.family.mem r _).mpr (epPlace_some.mpr ⟨hr, he, ha⟩))
  refine ⟨m', L', S', ?_, { hinv with live := fun r hr => ⟨(hinv.live r hr).1, ?_⟩ }, hkept₁.trans hkept hfreed.used,
    hfreed₁.trans hfreed⟩
  · have hrun₁ : EpollMem.removeAll (·.epl.activeFirst e) (m.blocks + 1) m = some m₁ := hrun₁
    rw [flextcpEpollDestroy, hrun₁]
    exact hrun
  · have her : m'.ep r ≠ e := by
      intro he
      have hact := hleft hinv hnone hr he
      have hact₁ := hleft (b := true) hinv₁ hnone₁ (hfreed.used r hr) (by rw [hfreed.eq] at he; exact he)
      rw [hfreed.eq] at hact
      exact hact₁ (by simpa using hact)
    exact (update_of_ne her ..).trans (hinv.live r hr).2

/-! ## Events -/

@[simp] theorem esActivate_used (m : EpollMem) (r : Nat) : (m.esActivate r).used = m.used := by
  rw [esActivate]
  split_ifs <;> rfl

@[simp] theorem esActivate_mask (m : EpollMem) (r : Nat) : (m.esActivate r).mask = m.mask := by
  rw [esActivate]
  split_ifs <;> rfl

@[simp] theorem esActivate_sol (m : EpollMem) (r : Nat) : (m.esActivate r).sol = m.sol := by
  rw [esActivate]
  split_ifs <;> rfl

/-- The loop of `flextcp_epoll_set` over the rest `l` of the list of the socket: what has new
events is activated. -/
theorem Inv.epollSetLoop {newevs : BitVec 32} {o : Option Nat} {l : List Nat} {turns : Nat}
    (h : m.Inv L S (l.filter fun r => newevs &&& m.mask r ≠ 0)) (hl : Chain m.sol.next o l)
    (hu : ∀ r ∈ l, m.used r = true) (ht : l.length < turns) : ∃ m' L', epollSetLoop newevs turns m o = some m' ∧
      m'.Inv L' S [] ∧ m'.Kept L L' ∧ m'.used = m.used := by
  generalize hn : m.sol.next = next at hl
  induction o, l, turns, hl, ht using Chain.walk generalizing m L with
  | nil turns => exact ⟨m, L, rfl, h, Kept.refl _ _, rfl⟩
  | cons r l turns hl ht ih =>
    have hr := hu r (mem_cons_self ..)
    have hu' : ∀ x ∈ l, m.used x = true := fun x hx => hu x (mem_cons_of_mem _ hx)
    rw [EpollMem.epollSetLoop]
    by_cases h0 : newevs &&& m.mask r = 0
    · rw [filter_cons_of_neg (by simpa using h0)] at h
      simp only [if_pos h0, hn]
      exact ih h hu' hn
    · rw [filter_cons_of_pos (by simpa using h0)] at h
      obtain ⟨L₁, h₁, hkept₁⟩ := h.esActivate hr
      obtain ⟨m', L', hrun, hinv, hkept, hused⟩ :=
        ih (m := m.esActivate r) (by rw [esActivate_mask]; exact h₁) (by rw [esActivate_used]; exact hu')
          (by rw [esActivate_sol]; exact hn)
      refine ⟨m', L', ?_, hinv, hkept₁.trans hkept fun x hx => hused ▸ hx, hused.trans (esActivate_used ..)⟩
      simp only [if_neg h0, esActivate_sol, hn]
      exact hrun

theorem or_and_eq_zero {a b k : BitVec 32} (ha : a &&& k = 0) (hb : ~~~ a &&& b &&& k = 0) : (a ||| b) &&& k = 0 := by
  ext i hi
  have ha := congrArg (fun v : BitVec 32 => v[i]) ha
  have hb := congrArg (fun v : BitVec 32 => v[i]) hb
  simp only [BitVec.getElem_and, BitVec.getElem_or, BitVec.getElem_not, BitVec.ofNat_eq_ofNat, BitVec.getElem_zero]
    at ha hb ⊢
  cases ha' : a[i] <;> simp_all

theorem Inv.length_sock (h : m.Inv L S pend) (s : Nat) : (S s).length ≤ m.blocks := by
  have hsub : (S s).Subset (range m.blocks) := fun r hr => mem_range.mpr (h.block r (h.mem_sock.mp hr).1)
  simpa using ((h.socks.nodup s).subperm hsub).length_le

/-- `flextcp_epoll_set`: what was not ready and is now has new events. -/
theorem Inv.epollSet (h : m.Inv L S []) (s : Nat) (evts : BitVec 32) : ∃ m' L', m.flextcpEpollSet s evts = some m' ∧
    m'.Inv L' S [] ∧ m'.Kept L L' := by
  rw [flextcpEpollSet]
  by_cases hnew : ~~~ m.epEvents s &&& evts = 0
  · exact ⟨m, L, by rw [if_pos hnew], h, Kept.refl _ _⟩
  · simp only [if_neg hnew]
    have hset : Inv { m with epEvents := update m.epEvents s (m.epEvents s ||| evts) } L S
        ((S s).filter fun r => (~~~ m.epEvents s &&& evts) &&& m.mask r ≠ 0) := by
      refine { h with ready := fun r hr hrdy => ?_ }
      by_cases hsr : m.sock r = s
      · by_cases hmask : (~~~ m.epEvents s &&& evts) &&& m.mask r = 0
        · refine .inl ((h.ready r hr fun h0 => hrdy ?_).resolve_right not_mem_nil)
          simp only [EpollMem.ready, hsr, update_self] at h0 ⊢
          exact or_and_eq_zero h0 hmask
        · exact .inr (mem_filter.mpr ⟨h.mem_sock.mpr ⟨hr, hsr⟩, by simpa using hmask⟩)
      · refine .inl ((h.ready r hr fun h0 => hrdy ?_).resolve_right not_mem_nil)
        simpa only [EpollMem.ready, update_of_ne hsr] using h0
    obtain ⟨m', L', hrun, hinv, hkept, -⟩ := hset.epollSetLoop (h.socks.list s).forward
      (fun r hr => (h.mem_sock.mp hr).1) (Nat.lt_succ_of_le (h.length_sock s))
    exact ⟨m', L', hrun, hinv, hkept⟩

theorem Inv.epollClear (h : m.Inv L S []) (s : Nat) (evts : BitVec 32) : (m.flextcpEpollClear s evts).Inv L S [] := by
  refine { h with ready := fun r hr hrdy => h.ready r hr fun h0 => hrdy ?_ }
  by_cases hsr : m.sock r = s
  · simp only [EpollMem.ready, flextcpEpollClear, hsr, update_self] at h0 ⊢
    rw [BitVec.and_assoc, BitVec.and_comm (~~~ evts), ← BitVec.and_assoc, h0]
    exact BitVec.zero_and
  · simpa only [EpollMem.ready, flextcpEpollClear, update_of_ne hsr] using h0

/-! ## `tas_epoll_ctl` -/

/-- The memory after `EPOLL_CTL_ADD` has put registration `r` on the lists. -/
def added (m : EpollMem) (e s : Nat) (events : BitVec 32) (data : BitVec 64) (r : Nat) : EpollMem :=
  { m with
    used := update m.used r true, ep := update m.ep r e, sock := update m.sock r s, data := update m.data r data
    mask := update m.mask r (events ||| epollErr), active := update m.active r false
    sol := m.sol.add s r, epl := m.epl.esAddInactive e r }

theorem addRegistration_eq (m : EpollMem) (e s : Nat) (events : BitVec 32) (data : BitVec 64) (r : Nat) :
    m.addRegistration e s events data r =
      if (m.added e s events data r).ready r = 0 then m.added e s events data r
      else (m.added e s events data r).esActivate r := rfl

theorem Inv.added (h : m.Inv L S []) (he : m.epolls e = true) (hs : m.sockets s = true) (events : BitVec 32)
    (data : BitVec 64) (hr : m.used r = false) (hb : r < m.blocks) :
    (m.added e s events data r).Inv (update L (e, false) (r :: L (e, false))) (update S s (r :: S s)) [r] where
  eps := by
    refine (h.eps.addInactive (by simp [epPlace, hr]) e).congr fun x => ?_
    by_cases hx : x = r
    · subst hx
      simp [epPlace, EpollMem.added]
    · simp [epPlace, EpollMem.added, update_of_ne hx]
  socks := by
    refine (SoLinks.add_family h.socks (by simp [soPlace, hr]) s).congr rfl rfl (fun _ => rfl) rfl fun x => ?_
    by_cases hx : x = r
    · subst hx
      simp [soPlace, EpollMem.added]
    · simp [soPlace, EpollMem.added, update_of_ne hx]
  ready x hx hrdy := by
    by_cases hxr : x = r
    · exact .inr (hxr ▸ mem_singleton_self _)
    · simp only [EpollMem.ready, EpollMem.added, update_of_ne hxr] at hx hrdy ⊢
      exact .inl ((h.ready x hx hrdy).resolve_right not_mem_nil)
  block x hx := by
    by_cases hxr : x = r
    · exact hxr ▸ hb
    · simp only [EpollMem.added, update_of_ne hxr] at hx ⊢
      exact h.block x hx
  live x hx := by
    by_cases hxr : x = r
    · subst hxr
      simp only [EpollMem.added, update_self]
      exact ⟨hs, he⟩
    · simp only [EpollMem.added, update_of_ne hxr] at hx ⊢
      exact h.live x hx

theorem Inv.addRegistration (h : m.Inv L S []) (he : m.epolls e = true) (hs : m.sockets s = true) (events : BitVec 32)
    (data : BitVec 64) (hr : m.used r = false) (hb : r < m.blocks) :
    ∃ L' S', (m.addRegistration e s events data r).Inv L' S' [] ∧ (m.addRegistration e s events data r).Kept L L' := by
  obtain ⟨L', hinv, hkept⟩ := (h.added he hs events data hr hb).activate_ready (update_self ..)
  rw [addRegistration_eq]
  refine ⟨L', _, hinv, fun d x hx => ?_⟩
  have := hkept d x hx
  rwa [update_of_ne (by simp)] at this

theorem Inv.setMask (h : m.Inv L S []) (r : Nat) (mask : BitVec 32) :
    Inv { m with mask := update m.mask r mask } L S [r] := by
  refine { h with ready := fun x hx hrdy => ?_ }
  by_cases hxr : x = r
  · exact .inr (hxr ▸ mem_singleton_self _)
  · simp only [EpollMem.ready, update_of_ne hxr] at hrdy
    exact .inl ((h.ready x hx hrdy).resolve_right not_mem_nil)

/-- The search of `tas_epoll_ctl` for the registration. -/
theorem Inv.find_eq (h : m.Inv L S []) : Chains.find (fun _ => true) m.sol.next (fun es => m.ep es == e) (m.blocks + 1)
    (m.sol.eps s) = .ok ((S s).find? fun es => m.ep es == e) :=
  Chains.find_eq (h.socks.list s).forward (fun _ _ => rfl) (Nat.lt_succ_of_le (h.length_sock s))

/-- `tas_epoll_ctl`, with every operation and error. -/
theorem Inv.tasEpollCtl (h : m.Inv L S []) (op : CtlOp) (he : m.epolls e = true) (hs : m.sockets s = true)
    (events : BitVec 32) (data : BitVec 64) {block : Option Nat}
    (hb : block.all (fun es => decide (es < m.blocks) && !m.used es) = true) : ∃ res L' S',
      m.tasEpollCtl e op s events data block = some res ∧ res.1.Inv L' S' [] ∧ res.1.Kept L L' := by
  have hfound : ∀ r, (S s).find? (fun es => m.ep es == e) = some r → m.used r = true :=
    fun r hr => (h.mem_sock.mp (List.mem_of_find?_eq_some hr)).1
  have hnum : ∀ n, Inv { m with numTas := n } L S [] := fun n => { h with }
  rw [EpollMem.tasEpollCtl, h.find_eq]
  generalize (S s).find? _ = es at hfound
  cases op with
  | add =>
    dsimp only
    split_ifs with hun
    · exact ⟨_, L, S, rfl, h, Kept.refl _ _⟩
    · cases es with
      | some r => exact ⟨_, L, S, rfl, hnum _, Kept.refl _ _⟩
      | none => cases block with
        | none => exact ⟨_, L, S, rfl, hnum _, Kept.refl _ _⟩
        | some r =>
          simp only [Option.all_some, Bool.and_eq_true, decide_eq_true_eq, Bool.not_eq_true'] at hb
          obtain ⟨L', S', hinv, hkept⟩ := (hnum (update m.numTas e (m.numTas e + 1))).addRegistration he hs
            (events &&& ~~~ epollEt) data hb.2 hb.1
          exact ⟨_, L', S', rfl, hinv, hkept⟩
  | mod =>
    dsimp only
    split_ifs with hun
    · exact ⟨_, L, S, rfl, h, Kept.refl _ _⟩
    · cases es with
      | none => exact ⟨_, L, S, rfl, h, Kept.refl _ _⟩
      | some r =>
        obtain ⟨L', hinv, hkept⟩ := (h.setMask r ((events &&& ~~~ epollEt) ||| epollErr)).activate_ready (hfound r rfl)
        exact ⟨_, L', S, rfl, hinv, hkept⟩
  | del =>
    cases es with
    | none => exact ⟨_, L, S, rfl, hnum _, Kept.refl _ _⟩
    | some r =>
      obtain ⟨m', L', S', hrem, hinv, -, hkept, -⟩ :=
        (hnum (update m.numTas e (m.numTas e - 1))).esRemove (r := r) (hfound r rfl)
      dsimp only
      rw [hrem]
      exact ⟨_, L', S', rfl, hinv, hkept⟩
  | unknown => exact ⟨_, L, S, rfl, h, Kept.refl _ _⟩

/-! ## Polls -/

theorem Inv.pushback (h : m.Inv L S []) (hr : m.used r = true) (ha : m.active r = true) :
    ∃ l, m.esActivePushback r = some { m with epl := l } ∧
      Inv { m with epl := l } (update L (m.ep r, true) ((L (m.ep r, true)).erase r ++ [r])) S [] := by
  have hp := epPlace_used hr
  rw [ha] at hp
  obtain ⟨l, hl, hlists⟩ := h.eps.removeActive hp
  have hadd := hlists.addActive (update_self ..) (m.ep r)
  rw [update_idem, update_self, update_idem, ← hp, update_eq_self] at hadd
  refine ⟨l.esAddActive (m.ep r) r, ?_, { h with eps := hadd }⟩
  rw [esActivePushback, ha, hl]
  rfl

theorem Inv.deactivate (h : m.Inv L S []) (hr : m.used r = true) (ha : m.active r = true) (h0 : m.ready r = 0) :
    ∃ l, m.esDeactivate r = some { m with epl := l, active := update m.active r false } ∧
      Inv { m with epl := l, active := update m.active r false }
        (update (update L (m.ep r, true) ((L (m.ep r, true)).erase r)) (m.ep r, false) (r :: L (m.ep r, false))) S [] := by
  have hp := epPlace_used hr
  rw [ha] at hp
  obtain ⟨l, hl, hlists⟩ := h.eps.removeActive hp
  have hadd := hlists.addInactive (update_self ..) (m.ep r)
  rw [update_of_ne (a := (m.ep r, false)) (by simp)] at hadd
  refine ⟨l.esAddInactive (m.ep r) r, ?_, ⟨hadd.congr fun x => ?_, h.socks, fun x hx hrdy => ?_, h.block, h.live⟩⟩
  · rw [esDeactivate, ha, hl]
    rfl
  · by_cases hx : x = r
    · subst hx
      simp [epPlace, hr]
    · simp [epPlace, update_of_ne hx]
  · have hxr : x ≠ r := fun e => hrdy (e ▸ h0)
    refine .inl ((update_of_ne hxr ..).trans ?_)
    exact (h.ready x hx hrdy).resolve_right not_mem_nil

def isReady (m : EpollMem) (r : Nat) : Bool := m.ready r != 0

/-- The loop of `ep_poll_tas`. It goes over the front `p` of what is left of the active list. -/
theorem Inv.epPollLoop {todo done : List Nat} {k : Nat} {evs : List PollEvent} (h : m.Inv L S [])
    (hL : L (e, true) = todo ++ done) (hevs : evs.length ≤ k) : ∃ l act L' p rest, todo = p ++ rest ∧
      epPollLoop e k todo.length m evs = some ({ m with epl := l, active := act }, evs ++ (p.filter m.isReady).map m.event) ∧
      Inv { m with epl := l, active := act } L' S [] ∧ L' (e, true) = rest ++ done ++ p.filter m.isReady ∧
      (∀ d, d ≠ e → L' (d, true) = L (d, true)) ∧ evs.length + (p.filter m.isReady).length ≤ k ∧
      (rest = [] ∨ evs.length + (p.filter m.isReady).length = k) := by
  induction todo generalizing m L evs done with
  | nil =>
    refine ⟨m.epl, m.active, L, [], [], rfl, ?_, h, by simpa using hL, fun _ _ => rfl, by simpa using hevs, .inl rfl⟩
    simp [EpollMem.epPollLoop]
  | cons r todo ih =>
    by_cases hroom : evs.length < k
    · have hfirst : m.epl.activeFirst e = some r := (h.eps.family.first_eq (e, true)).trans (by rw [hL]; rfl)
      obtain ⟨hr, rfl, ha⟩ := h.mem_active.mp (hL ▸ mem_append_left _ (mem_cons_self ..))
      have herase : (L (m.ep r, true)).erase r = todo ++ done := by rw [hL, cons_append, erase_cons_head]
      rw [length_cons, EpollMem.epPollLoop, if_pos hroom, hfirst]
      dsimp only
      by_cases hrdy : m.ready r = 0
      · have hnot : ¬ m.isReady r = true := by simp [isReady, hrdy]
        obtain ⟨l, hde, hinv⟩ := h.deactivate hr ha hrdy
        obtain ⟨l', act, L', p, rest, rfl, hrun, hinv', hL', hother, hle, hrest⟩ := ih hinv
          (by rw [update_of_ne (by simp), update_self, herase]) hevs
        refine ⟨l', act, L', r :: p, rest, rfl, ?_, hinv', ?_, fun d hd => ?_, ?_, ?_⟩
        · rw [if_neg (not_not.mpr hrdy), hde, filter_cons_of_neg hnot]
          exact hrun
        · rw [filter_cons_of_neg hnot]
          exact hL'
        · rw [hother d hd, update_of_ne (by simp), update_of_ne (by simp [hd])]
        · rw [filter_cons_of_neg hnot]
          exact hle
        · rw [filter_cons_of_neg hnot]
          exact hrest
      · have hyes : m.isReady r = true := bne_iff_ne.mpr hrdy
        have hroom' : (evs ++ [m.event r]).length ≤ k := by
          rw [length_append]
          exact hroom
        obtain ⟨l, hpush, hinv⟩ := h.pushback hr ha
        obtain ⟨l', act, L', p, rest, rfl, hrun, hinv', hL', hother, hle, hrest⟩ := ih hinv
          (by rw [update_self, herase, append_assoc]) hroom'
        refine ⟨l', act, L', r :: p, rest, rfl, ?_, hinv', ?_, fun d hd => ?_, ?_, ?_⟩
        · rw [if_pos hrdy, hpush, filter_cons_of_pos hyes, map_cons, append_cons evs (m.event r) (map ..)]
          exact hrun
        · rw [filter_cons_of_pos hyes, hL', ← append_assoc, ← append_cons]
          rfl
        · rw [hother d hd, update_of_ne (by simp [hd])]
        · rw [filter_cons_of_pos hyes]
          rw [length_append, length_singleton, Nat.add_assoc, Nat.add_comm 1] at hle
          exact hle
        · rw [filter_cons_of_pos hyes]
          refine hrest.imp_right fun heq => ?_
          rw [length_append, length_singleton, Nat.add_assoc, Nat.add_comm 1] at heq
          exact heq
    · refine ⟨m.epl, m.active, L, [], r :: todo, rfl, ?_, h, by simpa using hL, fun _ _ => rfl, by simpa using hevs, .inr ?_⟩
      · rw [length_cons, EpollMem.epPollLoop, if_neg hroom]
        simp
      · simpa using Nat.le_antisymm hevs (Nat.le_of_not_lt hroom)

/-- `ep_poll_tas` goes over the front `p` of the active list. -/
theorem Inv.epPollTas (h : m.Inv L S []) (e k : Nat) : ∃ l act L' p rest, L (e, true) = p ++ rest ∧
    m.epPollTas e k = some ({ m with epl := l, active := act }, (p.filter m.isReady).map m.event) ∧
    Inv { m with epl := l, active := act } L' S [] ∧ L' (e, true) = rest ++ p.filter m.isReady ∧
    (∀ d, d ≠ e → L' (d, true) = L (d, true)) ∧ (p.filter m.isReady).length ≤ k ∧
    (rest = [] ∨ (p.filter m.isReady).length = k) := by
  obtain ⟨l, act, L', p, rest, hL, hrun, hinv, hL', hother, hle, hrest⟩ :=
    h.epPollLoop (append_nil (L (e, true))).symm (show ([] : List PollEvent).length ≤ k from Nat.zero_le k)
  rw [append_nil] at hL'
  rw [length_nil, Nat.zero_add] at hle hrest
  exact ⟨l, act, L', p, rest, hL, by rw [EpollMem.epPollTas, h.eps.num]; exact hrun, hinv, hL', hother, hle, hrest⟩

def readyRegs (m : EpollMem) (e : Nat) : List Nat :=
  (List.range m.blocks).filter fun r => m.used r && m.ep r == e && m.isReady r

theorem Inv.mem_readyRegs (h : m.Inv L S []) : r ∈ m.readyRegs e ↔ r ∈ (L (e, true)).filter m.isReady := by
  simp only [readyRegs, mem_filter, mem_range, Bool.and_eq_true, beq_iff_eq, h.mem_active]
  constructor
  · rintro ⟨-, ⟨hr, he⟩, hrdy⟩
    exact ⟨⟨hr, he, (h.ready r hr (bne_iff_ne.mp hrdy)).resolve_right not_mem_nil⟩, hrdy⟩
  · rintro ⟨⟨hr, he, -⟩, hrdy⟩
    exact ⟨h.block r hr, ⟨hr, he⟩, hrdy⟩

theorem Inv.length_readyRegs (h : m.Inv L S []) (e : Nat) :
    (m.readyRegs e).length = ((L (e, true)).filter m.isReady).length :=
  ((perm_ext_iff_of_nodup (nodup_range.filter _) ((h.eps.family.nodup _).filter _)).mpr
    fun _ => h.mem_readyRegs).length_eq

/-- A poll returns as many different registrations as are ready and fit, with the events that
are ready and the data they were registered with. -/
def PollExact (m : EpollMem) (e maxevents : Nat) : Prop :=
  ∃ m' evs, m.epPollTas e maxevents = some (m', evs) ∧ evs.length = min maxevents (m.readyRegs e).length ∧
    (evs.map PollEvent.es).Nodup ∧
    ∀ v ∈ evs, v.es ∈ m.readyRegs e ∧ v.events = m.ready v.es ∧ v.data = m.data v.es

theorem Inv.pollExact (h : m.Inv L S []) (e k : Nat) : m.PollExact e k := by
  obtain ⟨l, act, L', p, rest, hL, hrun, -, -, -, hle, hrest⟩ := h.epPollTas e k
  have hlen := h.length_readyRegs e
  rw [hL, filter_append, length_append] at hlen
  have hnodup := h.eps.family.nodup (e, true)
  rw [hL] at hnodup
  refine ⟨_, _, hrun, ?_, ?_, fun v hv => ?_⟩
  · rw [length_map, hlen]
    rcases hrest with rfl | heq
    · rw [filter_nil, length_nil, Nat.add_zero]
      exact (Nat.min_eq_right hle).symm
    · rw [heq]
      exact (Nat.min_eq_left (Nat.le_add_right ..)).symm
  · rw [map_map, show PollEvent.es ∘ m.event = id from rfl, map_id]
    exact (nodup_append.mp hnodup).1.filter _
  · obtain ⟨r, hr, rfl⟩ := mem_map.mp hv
    refine ⟨h.mem_readyRegs.mpr ?_, rfl, rfl⟩
    rw [hL, filter_append]
    exact mem_append_left _ hr

theorem Inv.poll_progress (h : m.Inv L S []) {k : Nat} {a b : List Nat} (hL : L (e, true) = a ++ r :: b)
    (hrdy : m.ready r ≠ 0) (d : Nat) : ∃ m' L' evs, m.epPollTas d k = some (m', evs) ∧ m'.Inv L' S [] ∧
      (d = e ∧ (∃ v ∈ evs, v.es = r) ∨
        ∃ a' b', L' (e, true) = a' ++ r :: b' ∧ a'.length + (if d = e ∧ k ≠ 0 then 1 else 0) ≤ a.length) := by
  obtain ⟨l, act, L', p, rest, hLd, hrun, hinv, hL', hother, hle, hrest⟩ := h.epPollTas d k
  refine ⟨_, L', _, hrun, hinv, ?_⟩
  by_cases hd : d = e
  · subst hd
    by_cases hp : r ∈ p
    · exact .inl ⟨rfl, m.event r, mem_map.mpr ⟨r, mem_filter.mpr ⟨hp, bne_iff_ne.mpr hrdy⟩, rfl⟩, rfl⟩
    · right
      rw [hL] at hLd
      obtain ⟨a', rfl, hrest'⟩ : ∃ a', a = p ++ a' ∧ a' ++ r :: b = rest := by
        rcases append_eq_append_iff.mp hLd with ⟨c, rfl, hc⟩ | ⟨c, rfl, hc⟩
        · cases c with
          | nil => exact ⟨[], by simp, hc⟩
          | cons x c =>
            obtain ⟨rfl, -⟩ := cons.inj hc
            exact absurd (mem_append_right _ (mem_cons_self ..)) hp
        · exact ⟨c, rfl, hc.symm⟩
      refine ⟨a', b ++ p.filter m.isReady, by rw [hL', ← hrest', append_assoc, cons_append], ?_⟩
      rw [length_append]
      split_ifs with hk
      · have hp : p ≠ [] := by
          rintro rfl
          rcases hrest with rfl | h0
          · simp at hrest'
          · exact hk.2 (by simpa using h0.symm)
        have := length_pos_iff.mpr hp
        omega
      · omega
  · right
    exact ⟨a, b, by rw [hother e (Ne.symm hd), hL], by simp [hd]⟩

end EpollMem

/-! ## Runs -/

/-- Is the call a poll of epoll `e` with room for an event? -/
def EpollOp.polls (e : Nat) : EpollOp → Bool
  | .poll ep maxevents => ep == e && maxevents != 0
  | _ => false

/-- A poll of epoll `e` in the run reports registration `r`. -/
def Reported (m : EpollMem) (e r : Nat) (ops : List EpollOp) : Prop :=
  ∃ pre k post m₁ m₂ evs, ops = pre ++ .poll e k :: post ∧ Run.exec epollCall m pre = some m₁ ∧
    m₁.epPollTas e k = some (m₂, evs) ∧ ∃ v ∈ evs, v.es = r

theorem Reported.cons {m m' : EpollMem} {e r : Nat} {op : EpollOp} {ops : List EpollOp} (hop : epollCall m op = some m')
    (h : Reported m' e r ops) : Reported m e r (op :: ops) := by
  obtain ⟨pre, k, post, m₁, m₂, evs, rfl, hpre, hpoll⟩ := h
  refine ⟨op :: pre, k, post, m₁, m₂, evs, rfl, ?_, hpoll⟩
  rw [Run.exec, hop]
  exact hpre

namespace EpollMem

variable {m m' : EpollMem} {L L' : Nat × Bool → List Nat} {S : Nat → List Nat} {e s r : Nat} {op : EpollOp} {ops : List EpollOp}

/-- Every call ends and keeps the lists; but for polls, nothing gets behind on the active lists. -/
theorem Inv.call (h : m.Inv L S []) (hop : m.Enabled op) : ∃ m' L' S', epollCall m op = some m' ∧ m'.Inv L' S' [] ∧
    ((∀ d k, op ≠ .poll d k) → m'.Kept L L') := by
  cases op with
  | socket s => exact ⟨_, L, S, rfl, h.socket hop, fun _ => Kept.refl _ _⟩
  | sockclose s =>
    obtain ⟨m', L', S', hrun, hinv, hkept⟩ := h.sockclose s
    exact ⟨_, L', S', by rw [epollCall, hrun]; rfl, hinv, fun _ => hkept⟩
  | epollCreate e => exact ⟨_, L, S, rfl, h.epollCreate hop, fun _ => Kept.refl _ _⟩
  | epollDestroy e =>
    obtain ⟨m', L', S', hrun, hinv, hkept, -⟩ := h.epollDestroy e
    exact ⟨_, L', S', by rw [epollCall, hrun]; rfl, hinv, fun _ => hkept⟩
  | ctl e op s events data block =>
    obtain ⟨res, L', S', hrun, hinv, hkept⟩ := h.tasEpollCtl op hop.1 hop.2.1 events data hop.2.2
    exact ⟨res.1, L', S', by rw [epollCall, hrun]; rfl, hinv, fun _ => hkept⟩
  | set s evts =>
    obtain ⟨m', L', hrun, hinv, hkept⟩ := h.epollSet s evts
    exact ⟨m', L', S, hrun, hinv, fun _ => hkept⟩
  | clear s evts => exact ⟨_, L, S, rfl, h.epollClear s evts, fun _ => Kept.refl _ _⟩
  | poll d k =>
    obtain ⟨l, act, L', p, rest, -, hrun, hinv, -⟩ := h.epPollTas d k
    exact ⟨_, L', S, by rw [epollCall, hrun]; rfl, hinv, fun hne => absurd rfl (hne d k)⟩

theorem Inv.reported {a b : List Nat} (h : m.Inv L S []) (hL : L (e, true) = a ++ r :: b)
    (hops : Run.All epollCall (fun m op => m.Enabled op ∧ m.used r = true ∧ m.ready r ≠ 0) m ops)
    (hpolls : a.length < ops.countP (EpollOp.polls e)) : Reported m e r ops := by
  induction ops generalizing m L S a b with
  | nil => exact absurd hpolls (Nat.not_lt_zero _)
  | cons op ops ih =>
    by_cases hpoll : ∃ d k, op = .poll d k
    · obtain ⟨d, k, rfl⟩ := hpoll
      obtain ⟨m', L', evs, hrun, hinv, hrep⟩ := h.poll_progress (k := k) hL hops.1.2.2 d
      have hcall : epollCall m (.poll d k) = some m' := by rw [epollCall, hrun]; rfl
      rcases hrep with ⟨rfl, hrep⟩ | ⟨a', b', hL', hle⟩
      · exact ⟨[], k, ops, m, m', evs, rfl, rfl, hrun, hrep⟩
      · refine (ih hinv hL' (hops.next hcall) ?_).cons hcall
        rw [countP_cons] at hpolls
        simp only [EpollOp.polls, Bool.and_eq_true, beq_iff_eq, bne_iff_ne] at hpolls
        omega
    · obtain ⟨m', L', S', hcall, hinv, hkept⟩ := h.call hops.1.1
      have hnot : EpollOp.polls e op = false := by
        cases op with
        | poll d k => exact absurd ⟨d, k, rfl⟩ hpoll
        | _ => rfl
      rw [countP_cons_of_neg (by simp [hnot])] at hpolls
      have hused : m'.used r = true := by
        cases ops with
        | nil => exact absurd hpolls (Nat.not_lt_zero _)
        | cons op' ops => exact (hops.next hcall).1.2.1
      obtain ⟨a', b', hL', hle⟩ := hkept (fun d k e => hpoll ⟨d, k, e⟩) e r hused a b hL
      exact (ih hinv hL' (hops.next hcall) (Nat.lt_of_le_of_lt hle hpolls)).cons hcall

/-- Every registration is on exactly one of the two lists of its epoll, as its flag says, and
`num_active` is the length of the active list. -/
def ListsExact (m : EpollMem) : Prop :=
  ∃ L : Nat × Bool → List Nat, ∀ e,
    DList m.epl.next m.epl.prev (m.epl.activeFirst e) (m.epl.activeLast e) (L (e, true)) ∧
    DList m.epl.next m.epl.prev (m.epl.inactive e) (L (e, false)).getLast? (L (e, false)) ∧
    m.epl.numActive e = (L (e, true)).length ∧
    ∀ r b, r ∈ L (e, b) ↔ m.used r = true ∧ m.ep r = e ∧ m.active r = b

/-- The lists are exact, what is ready is active, polls are exact, and polls with room for an event,
as many as are on the active list, report a registration that is ready until then, whatever
else is called in between. -/
structure EpollExact (m : EpollMem) : Prop where
  lists : m.ListsExact
  active : ∀ r, m.used r = true → m.ready r ≠ 0 → m.active r = true
  poll : ∀ e maxevents, m.PollExact e maxevents
  reached : ∀ r ops, m.used r = true → m.ready r ≠ 0 →
    Run.All epollCall (fun m op => m.Enabled op ∧ m.used r = true ∧ m.ready r ≠ 0) m ops →
    m.epl.numActive (m.ep r) ≤ ops.countP (EpollOp.polls (m.ep r)) → Reported m (m.ep r) r ops

theorem Inv.exact (h : m.Inv L S []) : m.EpollExact where
  lists := by
    refine ⟨L, fun e => ⟨?_, h.eps.family.list (e, false), h.eps.num e, fun r b => ?_⟩⟩
    · rw [h.eps.last]
      exact h.eps.family.list (e, true)
    · rw [h.eps.family.mem, epPlace_some]
  active r hr hrdy := (h.ready r hr hrdy).resolve_right not_mem_nil
  poll := h.pollExact
  reached r ops hr hrdy hops hpolls := by
    have hact := (h.ready r hr hrdy).resolve_right not_mem_nil
    obtain ⟨a, b, hL⟩ := append_of_mem (h.mem_active.mpr ⟨hr, rfl, hact⟩)
    refine h.reported hL hops (Nat.lt_of_lt_of_le ?_ hpolls)
    rw [h.eps.num, hL, length_append, length_cons]
    omega

end EpollMem

/-- In every run of calls on sockets and epolls that exist, all calls end, the lists of the epolls
are exact and polls report what is ready. -/
theorem epoll_lists_exact {blocks : Nat} {ops : List EpollOp}
    (hops : Run.All epollCall EpollMem.Enabled (.init blocks) ops) :
    ∃ m, Run.exec epollCall (.init blocks) ops = some m ∧ m.EpollExact := by
  have hstep : ∀ m op, (∃ L S, EpollMem.Inv m L S []) → m.Enabled op →
      ∃ m', epollCall m op = some m' ∧ ∃ L S, EpollMem.Inv m' L S [] := by
    rintro m op ⟨L, S, h⟩ hop
    obtain ⟨m', L', S', hcall, hinv, -⟩ := h.call hop
    exact ⟨m', hcall, L', S', hinv⟩
  obtain ⟨m, hrun, L, S, hinv⟩ := Run.exec_total hstep ⟨_, _, EpollMem.init_inv blocks⟩ hops
  exact ⟨m, hrun, hinv.exact⟩

/-- Two sockets of an epoll become ready, and a poll has room for one of them. -/
def twoReady : List EpollOp :=
  [.epollCreate 0, .socket 0, .socket 1, .ctl 0 .add 0 epollIn 7 (some 0), .ctl 0 .add 1 epollIn 8 (some 1),
    .set 0 epollIn, .set 1 epollIn, .poll 0 1]

theorem epoll_lists_exact_two_ready : ∃ m, Run.exec epollCall (.init 2) twoReady = some m ∧ m.EpollExact ∧
    m.readyRegs 0 = [0, 1] ∧ m.epl.activeFirst 0 = some 1 := by
  have hops : Run.All epollCall EpollMem.Enabled (.init 2) twoReady := by decide +kernel
  obtain ⟨m, hm, hexact⟩ := epoll_lists_exact hops
  exact ⟨m, hm, hexact, Run.forall_exec (P := fun m => m.readyRegs 0 = [0, 1] ∧ m.epl.activeFirst 0 = some 1)
    (by decide +kernel) hm⟩

end TasNic.Sockets
