import TasNic.Slow.Tcp

/-!
# Ports for connections that are opened

`port_alloc` goes round the ports from `PORT_FIRST_EPH` on, from a hint to where
it started. From a hint in this range it ends, gives a port of the range that is not
in use, and 0 if all are (`PortAllocRight`).

`tcp_init` draws the first hint, and the draw is not moved into the range. From a
hint below it the search never meets its start again (`portSearch_below`), and all is
well only if the hint is in use and a port of the range is not (`port_alloc_exact`).
-/

namespace TasNic

open List BitVec

/-! ## The first hint -/

structure UtilsRng where
  seed : BitVec 64

def utilsRngInit (seed : BitVec 64) : UtilsRng := ⟨(seed ^^^ 0x5deece66d) % 0x1000000000000⟩

def utilsRngGen32 (rng : UtilsRng) : BitVec 32 × UtilsRng :=
  let next := (0x5deece66d * rng.seed + 0xb) % 0x1000000000000
  ((next >>> 16).setWidth 32, ⟨next⟩)

/-- The hint that `tcp_init` leaves, at the time `now` in microseconds. -/
def tcpInitHint (now : BitVec 32) : BitVec 16 :=
  ((utilsRngGen32 (utilsRngInit (now.setWidth 64))).1 % (0x10000 - 1 - portFirstEph.setWidth 32)).setWidth 16

/-! ## The round of the ports -/

/-- The number of ports from `PORT_FIRST_EPH` on. -/
def ephPorts : Nat := 57344

/-- The ports from `PORT_FIRST_EPH` on, round and round. -/
def ephPort (i : Nat) : BitVec 16 := BitVec.ofNat 16 (8192 + i % ephPorts)

theorem ephPort_toNat (i : Nat) : (ephPort i).toNat = 8192 + i % ephPorts := by
  have : i % ephPorts < 57344 := Nat.mod_lt _ (by decide)
  rw [ephPort, toNat_ofNat]
  omega

theorem le_ephPort (i : Nat) : portFirstEph ≤ ephPort i := by
  rw [le_def, ephPort_toNat]
  exact Nat.le_add_right ..

theorem ephPort_of_le {p : BitVec 16} (h : portFirstEph ≤ p) : ephPort (p.toNat - 8192) = p := by
  have hp : 8192 ≤ p.toNat := h
  refine eq_of_toNat_eq ?_
  rw [ephPort_toNat, ephPorts]
  omega

theorem le_portNext (p : BitVec 16) : portFirstEph ≤ portNext p := by
  rw [portNext]
  split_ifs with h
  · exact Nat.le_refl _
  · exact Nat.le_of_not_lt h

theorem portNext_ephPort (i : Nat) : portNext (ephPort i) = ephPort (i + 1) := by
  have hi : i % ephPorts < ephPorts := Nat.mod_lt _ (by decide)
  have hcase : (i + 1) % ephPorts = i % ephPorts + 1 ∧ i % ephPorts + 1 < ephPorts ∨
      (i + 1) % ephPorts = 0 ∧ i % ephPorts + 1 = ephPorts := by
    rw [Nat.add_mod i 1]
    rcases Nat.lt_or_eq_of_le (Nat.succ_le_of_lt hi) with h | h
    · exact .inl ⟨Nat.mod_eq_of_lt h, h⟩
    · exact .inr ⟨by rw [show i % ephPorts + 1 % ephPorts = ephPorts from h, Nat.mod_self], h⟩
  have hadd : (ephPort i + 1).toNat = (8192 + i % ephPorts + 1) % 65536 := by
    rw [toNat_add, ephPort_toNat]
    rfl
  have hn : ephPorts = 57344 := rfl
  have hfirst : portFirstEph.toNat = 8192 := rfl
  refine eq_of_toNat_eq ?_
  rw [ephPort_toNat, portNext]
  split_ifs with h
  · -- the sum wraps, and the round starts again
    rw [lt_def, hadd] at h
    omega
  · rw [lt_def, hadd] at h
    rw [hadd]
    omega

theorem ephPort_round (i : Nat) : ephPort (i + ephPorts) = ephPort i := by
  rw [ephPort, Nat.add_mod_right, ephPort]

theorem ephPort_ne {i k : Nat} (h0 : 0 < k) (h : k < ephPorts) : ephPort (i + k) ≠ ephPort i := by
  intro e
  have e' := congrArg BitVec.toNat e
  rw [ephPort_toNat, ephPort_toNat, Nat.add_left_cancel_iff] at e'
  rw [ephPorts] at e' h
  omega

/-! ## The search -/

/-- From the place `k` of the round on, the search gives the first port that is not
in use. -/
theorem portSearch_eq (ports : BitVec 16 → Port) (a : Nat) {n k turns : Nat} (hk : k + n + 1 = ephPorts) (ht : n < turns) :
    portSearch ports (ephPort a) turns (ephPort (a + k)) =
      .ok (((range' k (n + 1)).map fun j => ephPort (a + j)).find? (ports · = .unused)) := by
  induction n generalizing k turns with
  | zero =>
    obtain ⟨turns, rfl⟩ := Nat.exists_eq_succ_of_ne_zero (Nat.ne_of_gt ht)
    -- the last port of the round: the next one is the start
    have hend : portNext (ephPort (a + k)) = ephPort a := by
      rw [portNext_ephPort, show a + k + 1 = a + ephPorts by omega, ephPort_round]
    by_cases hp : ports (ephPort (a + k)) = .unused
    · simp [portSearch, hp]
    · simp [portSearch, hp, hend]
  | succ n ih =>
    obtain ⟨turns, rfl⟩ := Nat.exists_eq_succ_of_ne_zero (Nat.ne_of_gt (Nat.lt_of_le_of_lt (Nat.zero_le _) ht))
    have hne : ephPort (a + (k + 1)) ≠ ephPort a := ephPort_ne (Nat.succ_pos k) (by omega)
    rw [range'_succ, map_cons, portSearch, portNext_ephPort, Nat.add_assoc a k 1, if_neg hne]
    by_cases hp : ports (ephPort (a + k)) = .unused
    · rw [if_pos hp, List.find?_cons_of_pos (by simpa using hp)]
    · rw [if_neg hp, List.find?_cons_of_neg (by simpa using hp)]
      exact ih (by omega) (by omega)

theorem portNext_ne {pStart : BitVec 16} (hstart : pStart < portFirstEph) (p : BitVec 16) : portNext p ≠ pStart := by
  rintro rfl
  exact absurd hstart (Nat.not_lt.mpr (le_portNext p))

/-- A search from below `PORT_FIRST_EPH` does not end if the ports that it comes to are in
use: they are not the start. -/
theorem portSearch_below {ports : BitVec 16 → Port} {pStart p : BitVec 16} (hstart : pStart < portFirstEph)
    (hports : ∀ q, portFirstEph ≤ q → ports q ≠ .unused) (hp : ports p ≠ .unused) (turns : Nat) :
    portSearch ports pStart turns p = .error .loops := by
  induction turns generalizing p with
  | zero => rfl
  | succ turns ih =>
    rw [portSearch, if_neg hp, if_neg (portNext_ne hstart p)]
    exact ih (hports _ (le_portNext p))

/-- It finds a port if one is unused. -/
theorem portSearch_found {ports : BitVec 16 → Port} {pStart : BitVec 16} (hstart : pStart < portFirstEph) {n k turns : Nat}
    (hn : n < turns) (hun : ports (ephPort (k + n)) = .unused) :
    ∃ p, portSearch ports pStart turns (ephPort k) = .ok (some p) ∧ portFirstEph ≤ p ∧ ports p = .unused := by
  induction n generalizing k turns with
  | zero =>
    obtain ⟨turns, rfl⟩ := Nat.exists_eq_succ_of_ne_zero (Nat.ne_of_gt hn)
    exact ⟨_, if_pos hun, le_ephPort k, hun⟩
  | succ n ih =>
    obtain ⟨turns, rfl⟩ := Nat.exists_eq_succ_of_ne_zero (Nat.ne_of_gt (Nat.lt_of_le_of_lt (Nat.zero_le _) hn))
    rw [portSearch, if_neg (portNext_ne hstart _), portNext_ephPort]
    by_cases hk : ports (ephPort k) = .unused
    · exact ⟨_, if_pos hk, le_ephPort k, hk⟩
    · rw [if_neg hk]
      exact ih (by omega) (by rwa [Nat.add_right_comm])

theorem mem_round {a : Nat} {p : BitVec 16} (h : portFirstEph ≤ p) :
    p ∈ (range' 0 ephPorts).map fun j => ephPort (a + j) := by
  have hp : 8192 ≤ p.toNat := h
  have hn : ephPorts = 57344 := rfl
  have ha : a % ephPorts < ephPorts := Nat.mod_lt _ (by decide)
  -- how far from the place of the start to that of the port
  let j := (p.toNat - 8192 + (ephPorts - a % ephPorts)) % ephPorts
  have hj : (a + j) % ephPorts = p.toNat - 8192 := by
    rw [Nat.add_mod_mod, ← Nat.mod_add_mod,
      show a % ephPorts + (p.toNat - 8192 + (ephPorts - a % ephPorts)) = p.toNat - 8192 + ephPorts by omega,
      Nat.add_mod_right, Nat.mod_eq_of_lt (by omega)]
  refine mem_map.mpr ⟨j, mem_range'_1.mpr ⟨Nat.zero_le _, ?_⟩, eq_of_toNat_eq ?_⟩
  · rw [Nat.zero_add]
    exact Nat.mod_lt _ (by decide)
  · rw [ephPort_toNat, hj]
    omega

/-- `port_alloc` ends. It gives a port of the range that is not in use if there is one, and
0 if there is none. -/
def PortAllocRight (s : Slow) : Prop :=
  ∃ p s', portAlloc s = .ok (p, s') ∧ (p = 0 ∨ portFirstEph ≤ p ∧ s.ports p = .unused) ∧
    (p = 0 ↔ ∀ q, portFirstEph ≤ q → s.ports q ≠ .unused)

theorem portAlloc_found {s : Slow} {p : BitVec 16} (h : portSearch s.ports s.portEphHint 65537 s.portEphHint = .ok (some p))
    (hp : portFirstEph ≤ p) (hun : s.ports p = .unused) : PortAllocRight s := by
  have hp0 : p ≠ 0 := by
    rintro rfl
    exact absurd hp (by decide)
  refine ⟨p, { s with portEphHint := portNext p }, ?_, .inr ⟨hp, hun⟩, fun e => absurd e hp0, fun hall => absurd hun (hall p hp)⟩
  rw [portAlloc, h]
  rfl

theorem portAlloc_of_le (s : Slow) (h : portFirstEph ≤ s.portEphHint) : PortAllocRight s := by
  have hsearch := @portSearch_eq s.ports (s.portEphHint.toNat - 8192) 57343 0 65537 rfl (by decide)
  rw [Nat.add_zero, ephPort_of_le h] at hsearch
  cases hfind : ((range' 0 (57343 + 1)).map fun j =>
      ephPort (s.portEphHint.toNat - 8192 + j)).find? (s.ports · = .unused) with
  | none =>
    refine ⟨0, s, ?_, .inl rfl, fun _ q hq => ?_, fun _ => rfl⟩
    · rw [portAlloc, hsearch, hfind]
      rfl
    · simpa using List.find?_eq_none.mp hfind q (mem_round hq)
  | some p =>
    obtain ⟨j, -, hj⟩ := mem_map.mp (List.mem_of_find?_eq_some hfind)
    exact portAlloc_found (hsearch.trans (congrArg _ hfind)) (hj ▸ le_ephPort _) (by simpa using List.find?_some hfind)

theorem portAlloc_unused {s : Slow} (h : s.ports s.portEphHint = .unused) :
    portAlloc s = .ok (s.portEphHint, { s with portEphHint := portNext s.portEphHint }) := by
  rw [portAlloc, portSearch, if_pos h]
  rfl

theorem portNext_below {p : BitVec 16} (h : p < portFirstEph) : portNext p = ephPort 0 := by
  have hp : p.toNat < 8192 := h
  have hadd : (p + 1).toNat = p.toNat + 1 := by
    rw [toNat_add, show (1 : BitVec 16).toNat = 1 from rfl]
    exact Nat.mod_eq_of_lt (by omega)
  rw [portNext]
  split_ifs with h'
  · rfl
  · have h' : ¬ (p + 1).toNat < 8192 := h'
    refine eq_of_toNat_eq ?_
    rw [hadd, ephPort_toNat, Nat.zero_mod]
    omega

/-- `port_alloc` is right exactly from a hint of `PORT_FIRST_EPH` or more, from a hint below it
that is in use if a port of the range is not, and from the hint 0 that is not in use if all
ports of the range are. -/
theorem port_alloc_exact (s : Slow) : PortAllocRight s ↔ portFirstEph ≤ s.portEphHint ∨
    (s.ports s.portEphHint ≠ .unused ∧ ∃ q, portFirstEph ≤ q ∧ s.ports q = .unused) ∨
    (s.portEphHint = 0 ∧ s.ports 0 = .unused ∧ ∀ q, portFirstEph ≤ q → s.ports q ≠ .unused) := by
  constructor
  · rintro ⟨p, s', e, hp, h0⟩
    refine or_iff_not_imp_left.mpr fun hle => ?_
    have hlt : s.portEphHint < portFirstEph := Nat.lt_of_not_le hle
    by_cases hun : s.ports s.portEphHint = .unused
    · rw [portAlloc_unused hun] at e
      cases e
      rcases hp with hp | hp
      · exact .inr ⟨hp, hp ▸ hun, h0.mp hp⟩
      · exact absurd hp.1 hle
    · refine .inl ⟨hun, ?_⟩
      by_contra hno
      push Not at hno
      rw [portAlloc, portSearch_below hlt hno hun] at e
      cases e
  · rintro (h | ⟨hused, q, hq, hun⟩ | ⟨hhint, hun, hall⟩)
    · exact portAlloc_of_le s h
    · rcases Nat.lt_or_ge s.portEphHint.toNat portFirstEph.toNat with hlt | hle
      · have hlt : s.portEphHint < portFirstEph := hlt
        have hq' : 8192 ≤ q.toNat := hq
        obtain ⟨p, e, hp, hp'⟩ := @portSearch_found s.ports _ hlt (q.toNat - 8192) 0 65536 (by omega)
          (by rwa [Nat.zero_add, ephPort_of_le hq])
        refine portAlloc_found ?_ hp hp'
        rw [portSearch, if_neg hused, if_neg (portNext_ne hlt _), portNext_below hlt, e]
      · exact portAlloc_of_le s hle
    · rw [← hhint] at hun
      exact ⟨_, _, portAlloc_unused hun, .inl hhint, fun _ => hall, fun _ => hhint⟩

/-- The hint that `tcp_init` leaves can be below `PORT_FIRST_EPH`, in which case a port
below is given although those of the range are unused. The hint can be 0, which is
then taken for a failure. If the ports are in use, `port_alloc` does not end. -/
theorem port_alloc_below :
    (portAlloc (slowInit (tcpInitHint 7))).map Prod.fst = .ok 3426 ∧ (3426 : BitVec 16) < portFirstEph ∧
      (portAlloc (slowInit (tcpInitHint 582496))).map Prod.fst = .ok 0 ∧
      ∀ turns, portSearch (fun _ => .conn 0) (tcpInitHint 7) turns (tcpInitHint 7) = .error .loops := by
  have h7 : tcpInitHint 7 = 3426 := by decide
  have h0 : tcpInitHint 582496 = 0 := by decide
  have hbelow : tcpInitHint 7 < portFirstEph := by
    rw [h7]
    decide
  refine ⟨?_, by decide, ?_, fun turns => portSearch_below hbelow (fun _ _ => Port.noConfusion) Port.noConfusion turns⟩
  · rw [h7]
    rfl
  · rw [h0]
    rfl

end TasNic
