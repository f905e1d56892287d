import TasNic.Fast.FlowState
import TasNic.Lib.IdxList
import TasNic.Lib.Run
import Mathlib.Data.List.Basic

/-!
# The flow table (`tas_nic/slow/nicif.c`)

The slow path registers a flow in a hash table, in one of the four slots from its hash on. The fast path
finds the flow of a packet there (`fastFlowsPacketFss`). If the four slots are taken, `flowSlotAlloc`
moves entries towards a free slot further on. It does not store the new displacement, so that a moved
entry has a wrong one and the next move may take it out of reach.
-/

namespace TasNic

open Function IdxList List

/-! ## Entries -/

/-- `FLEXNIC_PL_FLOWST_NUM`. -/
def flowstNum : Nat := 128 * 1024
/-- `FLEXNIC_PL_FLOWHT_ENTRIES`. -/
def flowhtEntries : Nat := flowstNum * 2
/-- `FLEXNIC_PL_FLOWHT_NBSZ`. -/
def flowhtNbsz : Nat := 4
/-- `FLEXNIC_PL_FLOWHTE_VALID`. -/
def flowhteValid : BitVec 32 := 1 <<< 31
/-- `FLEXNIC_PL_FLOWHTE_POSSHIFT`. -/
def flowhtePosshift : Nat := 29
/-- The bits of a flow number in an entry. -/
def flowhteIdMask : BitVec 32 := (1 <<< flowhtePosshift) - 1

/-- `struct flextcp_pl_flowhte`. -/
structure Hte where
  flowId : BitVec 32
  flowHash : BitVec 32
deriving DecidableEq

namespace Hte

def valid (e : Hte) : Bool := e.flowId &&& flowhteValid != 0

def id (e : Hte) : Nat := (e.flowId &&& flowhteIdMask).toNat

def pos (e : Hte) : Nat := (e.flowId >>> flowhtePosshift &&& BitVec.ofNat 32 (flowhtNbsz - 1)).toNat

/-- The entry of flow `f`, `d` slots after its home slot. -/
def ofFlow (d f : Nat) (hash : BitVec 32) : Hte :=
  ⟨flowhteValid ||| BitVec.ofNat 32 d <<< flowhtePosshift ||| BitVec.ofNat 32 f, hash⟩

theorem pos_lt (e : Hte) : e.pos < flowhtNbsz := by
  have : e.pos ≤ 3 := by
    rw [pos, BitVec.toNat_and]
    exact Nat.and_le_right
  exact Nat.lt_succ_of_le this

theorem and_mask {f : Nat} (hf : f < flowstNum) : BitVec.ofNat 32 f &&& flowhteIdMask = BitVec.ofNat 32 f := by
  apply BitVec.eq_of_toNat_eq
  simp only [flowstNum] at hf
  have e : flowhteIdMask.toNat = 2 ^ 29 - 1 := by decide
  rw [BitVec.toNat_and, e, Nat.and_two_pow_sub_one_eq_mod, BitVec.toNat_ofNat]
  omega

theorem upper_bits : ∀ d < flowhtNbsz,
    (flowhteValid ||| BitVec.ofNat 32 d <<< flowhtePosshift) &&& flowhteIdMask = 0 ∧
    ((flowhteValid ||| BitVec.ofNat 32 d <<< flowhtePosshift) >>> flowhtePosshift &&&
      BitVec.ofNat 32 (flowhtNbsz - 1)).toNat = d ∧
    (flowhteValid ||| BitVec.ofNat 32 d <<< flowhtePosshift) &&& flowhteValid ≠ 0 := by
  decide

section

variable {d f : Nat} (hash : BitVec 32)

theorem ofFlow_id (hd : d < flowhtNbsz) (hf : f < flowstNum) : (ofFlow d f hash).id = f := by
  rw [id, ofFlow, BitVec.and_or_distrib_right, (upper_bits d hd).1, and_mask hf, BitVec.toNat_or, BitVec.toNat_ofNat]
  simp only [flowstNum] at hf
  simp
  omega

theorem ofFlow_pos (hd : d < flowhtNbsz) (hf : f < flowstNum) : (ofFlow d f hash).pos = d := by
  have h : (BitVec.ofNat 32 f) >>> flowhtePosshift = 0 := by
    apply BitVec.eq_of_toNat_eq
    simp only [flowstNum] at hf
    rw [BitVec.toNat_ushiftRight, BitVec.toNat_ofNat, Nat.shiftRight_eq_div_pow]
    exact Nat.div_eq_of_lt (by simp only [flowhtePosshift]; omega)
  rw [pos, ofFlow, BitVec.ushiftRight_or_distrib, h]
  simpa using (upper_bits d hd).2.1

theorem ofFlow_valid (hd : d < flowhtNbsz) (hf : f < flowstNum) : (ofFlow d f hash).valid = true := by
  have h : BitVec.ofNat 32 f &&& flowhteValid = 0 := by
    rw [← and_mask hf, BitVec.and_assoc]
    exact BitVec.and_zero
  rw [valid, ofFlow, BitVec.and_or_distrib_right, h]
  simpa using (upper_bits d hd).2.2

end

def clear (e : Hte) : Hte := { e with flowId := e.flowId &&& ~~~flowhteValid }

theorem clear_valid (e : Hte) : e.clear.valid = false := by
  simp only [clear, valid, BitVec.and_assoc]
  rw [show ~~~flowhteValid &&& flowhteValid = 0 by decide]
  simp

end Hte

/-! ## Hashes -/

structure FlowKey where
  localIp : BitVec 32
  remoteIp : BitVec 32
  localPort : BitVec 16
  remotePort : BitVec 16
deriving DecidableEq

def FlowSt.key (fs : FlowSt) : FlowKey := ⟨fs.localIp, fs.remoteIp, fs.localPort, fs.remotePort⟩

def ConnArgs.key (a : ConnArgs) : FlowKey := ⟨a.ipLocal, a.ipRemote, a.portLocal, a.portRemote⟩

/-- The checksums of the DPDK library: over memory, and over a word of 4 or 8
bytes, from an initial value. -/
structure HashCrc where
  rteHashCrc : List Byte → BitVec 32 → BitVec 32
  rteHashCrc4byte : BitVec 32 → BitVec 32 → BitVec 32
  rteHashCrc8byte : BitVec 64 → BitVec 32 → BitVec 32

def beBytes {w : Nat} (x : BitVec w) : List Byte :=
  (List.range (w / 8)).map fun i => x.extractLsb' (w - 8 - 8 * i) 8

/-- A word that holds a number in network order, as `t_beui32` makes it. -/
def beui32 (x : BitVec 32) : BitVec 32 :=
  x.extractLsb' 0 8 ++ x.extractLsb' 8 8 ++ x.extractLsb' 16 8 ++ x.extractLsb' 24 8

def beui16 (x : BitVec 16) : BitVec 16 := x.extractLsb' 0 8 ++ x.extractLsb' 8 8

namespace HashCrc

variable (H : HashCrc)

/-- `flow_hash` of the slow path. -/
def flowHash (k : FlowKey) : BitVec 32 :=
  H.rteHashCrc (beBytes k.localIp ++ beBytes k.remoteIp ++ beBytes k.localPort ++ beBytes k.remotePort) 0

/-- `flow_hash` of the fast path. -/
def fastFlowHash (k : FlowKey) : BitVec 32 :=
  H.rteHashCrc4byte ((beui16 k.localPort).setWidth 32 ||| (beui16 k.remotePort).setWidth 32 <<< 16)
    (H.rteHashCrc8byte ((beui32 k.localIp).setWidth 64 ||| (beui32 k.remoteIp).setWidth 64 <<< 32) 0)

/-- The checksum over the twelve bytes is that of an 8-byte and a 4-byte word. -/
def Composes : Prop := ∀ k, H.fastFlowHash k = H.flowHash k

end HashCrc

/-! ## Slots -/

/-- The slot `n` after the home slot of a hash. -/
def flowhtSlot (h : BitVec 32) (n : Nat) : Nat := (h + BitVec.ofNat 32 n).toNat % flowhtEntries

/-- The difference of two slots, which wraps as unsigned words do. -/
def slotSub (a b : Nat) : Nat := (2 ^ 32 + a - b) % flowhtEntries

/-- A loop over slots up to `stop`, left at a slot with `hit`; `d` counts the
slots passed. The table has fewer slots than the loop is given turns. -/
def slotScan (hit : Nat → Bool) (stop : Nat) : Nat → Nat → Nat → Nat × Nat
  | 0, i, d => (i, d)
  | turns + 1, i, d =>
    if i = stop then (i, d)
    else if hit i then (i, d)
    else slotScan hit stop turns ((i + 1) % flowhtEntries) (d + 1)

/-- The entry in slot `i` can be moved to slot `k`, by its displacement. -/
def slotMovable (ht : Nat → Hte) (k i : Nat) : Bool := slotSub k i ≤ flowhtNbsz - 1 - (ht i).pos

/-- Slot `i` is not among the slots from `j` to before `l`. -/
def slotOutside (j l i : Nat) : Bool :=
  (j > l || (i < j || i ≥ l)) && (j < l || (i ≥ l && i < j))

/-- Moving the entry in slot `i` to slot `k`. -/
def slotSwap (ht : Nat → Hte) (k i : Nat) : Nat → Hte :=
  update (update ht k (.ofFlow (ht i).pos (ht i).id (ht i).flowHash)) i { ht i with flowId := 0 }

/-- Moving the free slot `i` backwards until it is one of those from `j` to
before `l`. `none` is a failed assertion. -/
def slotMoveBack (j l : Nat) : Nat → (Nat → Hte) → Nat → Option ((Nat → Hte) × Option (Nat × Nat))
  | 0, _, _ => none
  | turns + 1, ht, i =>
    if slotOutside j l i then
      let k := i
      let i := (slotScan (fun i => !(ht i).valid || slotMovable ht k i) k flowhtEntries (slotSub k flowhtNbsz) 0).1
      if i = k then some (ht, none)
      else if !(ht i).valid || (ht k).valid then none
      else slotMoveBack j l turns (slotSwap ht k i) i
    else some (ht, some (i, slotSub i j))

/-- `flow_slot_alloc`: the table after it, and the slot and displacement if
there is one. -/
def flowSlotAlloc (ht : Nat → Hte) (h : BitVec 32) : Option ((Nat → Hte) × Option (Nat × Nat)) :=
  let j := h.toNat % flowhtEntries
  let l := (j + flowhtNbsz) % flowhtEntries
  let (i, d) := slotScan (fun i => !(ht i).valid) l flowhtEntries j 0
  if i ≠ l then some (ht, some (i, d))
  else
    let k := (l + 4 * flowhtNbsz) % flowhtEntries
    let i := (slotScan (fun i => !(ht i).valid) k flowhtEntries i d).1
    if i = k then some (ht, none) else slotMoveBack j l flowhtEntries ht i

/-- `flow_slot_clear`, with its return value. -/
def flowSlotClear (H : HashCrc) (ht : Nat → Hte) (f : Nat) (key : FlowKey) : (Nat → Hte) × Int :=
  let h := H.flowHash key
  match (List.range flowhtNbsz).find? fun j =>
      (ht (flowhtSlot h j)).valid && (ht (flowhtSlot h j)).flowHash == h && (ht (flowhtSlot h j)).id == f with
  | some j => (update ht (flowhtSlot h j) (ht (flowhtSlot h j)).clear, 0)
  | none => (ht, -1)

/-! ## Connections -/

/-- The memory of flows: their states, the table, and the list of free flow
numbers. -/
structure NicMem where
  flowst : Nat → FlowSt
  flowht : Nat → Hte
  flowIdFreelist : Option Nat
  flowIdNext : Nat → Option Nat

/-- An empty table, and the list made by `flow_id_alloc_init`. -/
def nicMemInit (flowst : Nat → FlowSt) : NicMem where
  flowst := flowst
  flowht := fun _ => ⟨0, 0⟩
  flowIdFreelist := some 0
  flowIdNext := fun i => if i + 1 < flowstNum then some (i + 1) else none

def flowIdFree (m : NicMem) (f : Nat) : NicMem :=
  { m with flowIdNext := update m.flowIdNext f m.flowIdFreelist, flowIdFreelist := some f }

/-- `nicif_connection_add`: the flow number, or none if there is no room.
`none` in place of a result is a failed assertion. -/
def nicifConnectionAdd (H : HashCrc) (m : NicMem) (a : ConnArgs) : Option (NicMem × Option Nat) :=
  match m.flowIdFreelist with
  | none => some (m, none)
  | some f =>
    let m := { m with flowIdFreelist := m.flowIdNext f }
    let hash := H.flowHash a.key
    match flowSlotAlloc m.flowht hash with
    | none => none
    | some (ht, none) => some (flowIdFree { m with flowht := ht } f, none)
    | some (ht, some (i, d)) =>
      if i < flowhtEntries ∧ d < flowhtNbsz then
        (flowstInit (m.flowst f) a).map fun fs =>
          ({ m with flowst := update m.flowst f fs, flowht := update ht i (.ofFlow d f hash) }, some f)
      else none

/-- What `nicif_connection_disable` returns. -/
structure Disabled where
  mem : NicMem
  txSeq : BitVec 32
  rxSeq : BitVec 32
  txClosed : Bool
  rxClosed : Bool

/-- `nicif_connection_disable`; the return value of `flow_slot_clear` is
ignored. -/
def nicifConnectionDisable (H : HashCrc) (m : NicMem) (f : Nat) : Disabled :=
  let fs := (m.flowst f).raise flowstSlowpath
  { mem := { m with flowst := update m.flowst f fs, flowht := (flowSlotClear H m.flowht f fs.key).1 }
    txSeq := fs.txNextSeq
    rxSeq := fs.rxNextSeq
    txClosed := fs.rxFlags &&& flowstTxfin != 0 && fs.txSent == 0
    rxClosed := fs.rxFlags &&& flowstRxfin != 0 }

/-- `fast_flows_packet_fss` for a packet to the local address and port of
`key`: the number of the flow. -/
def fastFlowsPacketFss (H : HashCrc) (m : NicMem) (key : FlowKey) : Option Nat :=
  let h := H.fastFlowHash key
  (List.range flowhtNbsz).findSome? fun j =>
    let e := m.flowht (flowhtSlot h j)
    if !e.valid || e.flowHash != h then none
    else if (m.flowst e.id).key = key then some e.id
    else none

/-! ## Allocating a slot without moving entries -/

theorem flowhtSlot_eq (h : BitVec 32) (n : Nat) : flowhtSlot h n = (h.toNat % flowhtEntries + n) % flowhtEntries := by
  rw [flowhtSlot, BitVec.toNat_add, BitVec.toNat_ofNat]
  simp only [flowhtEntries, flowstNum]
  omega

theorem flowhtSlot_lt (h : BitVec 32) (n : Nat) : flowhtSlot h n < flowhtEntries := Nat.mod_lt _ (by decide)

theorem slotScan_spec (hit : Nat → Bool) (turns d : Nat) {n i : Nat} (hn : n < flowhtEntries) (ht : n ≤ turns)
    (hi : i < flowhtEntries) :
    ∃ m ≤ n, slotScan hit ((i + n) % flowhtEntries) turns i d = ((i + m) % flowhtEntries, d + m) ∧
      (∀ m' < m, hit ((i + m') % flowhtEntries) = false) ∧ (m < n → hit ((i + m) % flowhtEntries) = true) := by
  induction n generalizing i d turns with
  | zero =>
    refine ⟨0, Nat.le_refl _, ?_, by omega, by omega⟩
    rw [Nat.add_zero, Nat.mod_eq_of_lt hi]
    cases turns <;> simp [slotScan]
  | succ n ih =>
    obtain ⟨turns, rfl⟩ : ∃ t, turns = t + 1 := ⟨turns - 1, by omega⟩
    have hne : i ≠ (i + (n + 1)) % flowhtEntries := by
      simp only [flowhtEntries, flowstNum] at hn hi ⊢
      omega
    by_cases hh : hit i = true
    · refine ⟨0, Nat.zero_le _, ?_, by omega, fun _ => ?_⟩
      · simp [slotScan, hh, Nat.mod_eq_of_lt hi]
      · rwa [Nat.add_zero, Nat.mod_eq_of_lt hi]
    · have hnext : ∀ m, ((i + 1) % flowhtEntries + m) % flowhtEntries = (i + (m + 1)) % flowhtEntries := by
        intro m
        rw [Nat.mod_add_mod]
        congr 1
        omega
      obtain ⟨m, hm, he, hno, hyes⟩ := ih turns (d + 1) (by omega) (by omega)
        (Nat.mod_lt (i + 1) (show 0 < flowhtEntries by decide))
      simp only [hnext] at he hno hyes
      refine ⟨m + 1, by omega, ?_, fun m' hm' => ?_, fun hlt => hyes (by omega)⟩
      · rw [slotScan, if_neg hne, if_neg hh, he]
        congr 1
        omega
      · cases m' with
        | zero => rwa [Nat.add_zero, Nat.mod_eq_of_lt hi, ← Bool.not_eq_true]
        | succ m' => exact hno m' (by omega)

/-- An entry with hash `h` is put into the table without moving others: a home
slot is free, or no slot nearby, or no entry before the first free one can be
moved there. -/
def SlotStays (ht : Nat → Hte) (h : BitVec 32) : Prop :=
  (∃ n < flowhtNbsz, (ht (flowhtSlot h n)).valid = false) ∨
  (∀ n < 5 * flowhtNbsz, (ht (flowhtSlot h n)).valid = true) ∨
  ∃ n < 5 * flowhtNbsz, flowhtNbsz ≤ n ∧ (ht (flowhtSlot h n)).valid = false ∧
    (∀ m < n, (ht (flowhtSlot h m)).valid = true) ∧
    ∀ m < n, flowhtNbsz - 1 < n - m + (ht (flowhtSlot h m)).pos

instance (ht : Nat → Hte) (h : BitVec 32) : Decidable (SlotStays ht h) := inferInstanceAs (Decidable (_ ∨ _ ∨ _))

theorem slotMoveBack_stuck {ht : Nat → Hte} {j n : Nat} (turns : Nat) (hj : j < flowhtEntries) (hge : flowhtNbsz ≤ n)
    (hn : n < 5 * flowhtNbsz) (hused : ∀ m < n, (ht ((j + m) % flowhtEntries)).valid = true)
    (hstay : ∀ m < n, flowhtNbsz - 1 < n - m + (ht ((j + m) % flowhtEntries)).pos) :
    slotMoveBack j ((j + flowhtNbsz) % flowhtEntries) (turns + 1) ht ((j + n) % flowhtEntries) = some (ht, none) := by
  have hout : slotOutside j ((j + flowhtNbsz) % flowhtEntries) ((j + n) % flowhtEntries) = true := by
    simp only [slotOutside, Bool.and_eq_true, Bool.or_eq_true, decide_eq_true_eq]
    simp only [flowhtNbsz, flowhtEntries, flowstNum] at hj hge hn ⊢
    omega
  have hstart : slotSub ((j + n) % flowhtEntries) flowhtNbsz = (j + (n - flowhtNbsz)) % flowhtEntries := by
    simp only [slotSub, flowhtNbsz, flowhtEntries, flowstNum] at hge ⊢
    omega
  have hstop : (j + n) % flowhtEntries = ((j + (n - flowhtNbsz)) % flowhtEntries + flowhtNbsz) % flowhtEntries := by
    rw [Nat.mod_add_mod]
    congr 1
    omega
  obtain ⟨m, hm, he, hno, hyes⟩ := slotScan_spec
    (fun i => !(ht i).valid || slotMovable ht ((j + n) % flowhtEntries) i) flowhtEntries 0 (n := flowhtNbsz)
    (by decide) (by decide) (Nat.mod_lt (j + (n - flowhtNbsz)) (show 0 < flowhtEntries by decide))
  have hm' : m = flowhtNbsz := by
    by_contra hne
    have hlt : m < flowhtNbsz := by omega
    have hy := hyes hlt
    have hs := hstay (n - flowhtNbsz + m) (by omega)
    rw [Nat.mod_add_mod, Nat.add_assoc, hused (n - flowhtNbsz + m) (by omega)] at hy
    simp only [Bool.not_true, Bool.false_or, slotMovable, decide_eq_true_eq] at hy
    have hsub : slotSub ((j + n) % flowhtEntries) ((j + (n - flowhtNbsz + m)) % flowhtEntries) = flowhtNbsz - m := by
      simp only [slotSub, flowhtNbsz, flowhtEntries, flowstNum] at hj hge hn hlt ⊢
      omega
    rw [hsub] at hy
    simp only [flowhtNbsz] at hy hs hlt hge
    omega
  rw [hm', ← hstop] at he
  simp [slotMoveBack, hout, hstart, he]

theorem flowSlotAlloc_stays {ht : Nat → Hte} {h : BitVec 32} (hs : SlotStays ht h) :
    flowSlotAlloc ht h = some (ht, none) ∨
    ∃ d < flowhtNbsz, flowSlotAlloc ht h = some (ht, some (flowhtSlot h d, d)) ∧
      (ht (flowhtSlot h d)).valid = false := by
  have hj : h.toNat % flowhtEntries < flowhtEntries := Nat.mod_lt _ (by decide)
  simp only [flowhtSlot_eq, SlotStays] at hs ⊢
  simp only [flowSlotAlloc]
  generalize h.toNat % flowhtEntries = j at hj hs ⊢
  obtain ⟨m, hm, he, hno, hyes⟩ := slotScan_spec (fun i => !(ht i).valid) flowhtEntries 0 (n := flowhtNbsz)
    (by decide) (by decide) hj
  simp only [he]
  by_cases hlt : m < flowhtNbsz
  · right
    refine ⟨m, hlt, ?_, by simpa using hyes hlt⟩
    rw [if_pos, Nat.zero_add]
    simp only [flowhtNbsz, flowhtEntries, flowstNum] at hj hlt ⊢
    omega
  · left
    obtain rfl : m = flowhtNbsz := by omega
    have hfull : ∀ n < flowhtNbsz, (ht ((j + n) % flowhtEntries)).valid = true := fun n hn => by simpa using hno n hn
    rw [if_neg (by simp)]
    have hl : (j + flowhtNbsz) % flowhtEntries < flowhtEntries := Nat.mod_lt _ (by decide)
    obtain ⟨m, hm, he, hno, hyes⟩ := slotScan_spec (fun i => !(ht i).valid) flowhtEntries (0 + flowhtNbsz)
      (n := 4 * flowhtNbsz) (by decide) (by decide) hl
    simp only [he]
    simp only [Nat.mod_add_mod, Nat.add_assoc, Bool.not_eq_true', Bool.not_eq_false'] at hno hyes ⊢
    by_cases hlt : m < 4 * flowhtNbsz
    · -- the first free slot is `flowhtNbsz + m`, and no entry before it can be moved there
      obtain ⟨n, hn, hfree⟩ | hall | ⟨n, hn, hge, hfree, hused, hstay⟩ := hs
      · simp [hfull n hn] at hfree
      · simp [hall (flowhtNbsz + m) (by omega)] at hyes
        omega
      · obtain rfl : n = flowhtNbsz + m := by
          refine Nat.le_antisymm (Nat.le_of_not_lt fun h => ?_) (Nat.le_of_not_lt fun h => ?_)
          · simp [hused _ h] at hyes
            omega
          · have := hno (n - flowhtNbsz) (by omega)
            rw [show flowhtNbsz + (n - flowhtNbsz) = n by omega, hfree] at this
            cases this
        rw [if_neg, show flowhtEntries = 262143 + 1 from rfl]
        · exact slotMoveBack_stuck _ hj hge hn hused hstay
        · simp only [flowhtNbsz, flowhtEntries, flowstNum] at hj hlt ⊢
          omega
    · obtain rfl : m = 4 * flowhtNbsz := by omega
      rw [if_pos rfl]

/-! ## Runs -/

/-- The memory, the flows added and not yet disabled, and the numbers of flows
disabled and not yet freed. -/
structure TableRun where
  mem : NicMem
  live : List (Nat × FlowKey)
  closed : List Nat

inductive TableOp where
  | add (a : ConnArgs)
  | disable (f : Nat)
  | free (f : Nat)

def tableStep (H : HashCrc) (s : TableRun) : TableOp → Option TableRun
  | .add a => (nicifConnectionAdd H s.mem a).map fun
    | (m, some f) => { s with mem := m, live := (f, a.key) :: s.live }
    | (m, none) => { s with mem := m }
  | .disable f => some {
      mem := (nicifConnectionDisable H s.mem f).mem
      live := s.live.filter fun p => p.1 != f
      closed := if ∃ p ∈ s.live, p.1 = f then f :: s.closed else s.closed }
  | .free f => some { s with mem := flowIdFree s.mem f, closed := s.closed.erase f }

/-- How the functions are called: a flow is added only if there is none with
its addresses and ports, with queues the NIC sends and receives by, and its
number is freed once, after it is disabled. -/
def tableCall (s : TableRun) : TableOp → Prop
  | .add a => (∀ p ∈ s.live, p.2 ≠ a.key) ∧ a.rx.endpoints.tx.addr = a.rx.self ∧ a.tx.endpoints.rx.addr = a.tx.self
  | .disable f => f < flowstNum
  | .free f => f ∈ s.closed

/-- No flow is added by moving entries. -/
def tableStays (H : HashCrc) (s : TableRun) : TableOp → Prop
  | .add a => SlotStays s.mem.flowht (H.flowHash a.key)
  | _ => True

instance (s : TableRun) : ∀ op, Decidable (tableCall s op)
  | .add _ => inferInstanceAs (Decidable (_ ∧ _ ∧ _))
  | .disable f => inferInstanceAs (Decidable (f < flowstNum))
  | .free f => inferInstanceAs (Decidable (f ∈ s.closed))

instance (H : HashCrc) (s : TableRun) : ∀ op, Decidable (tableStays H s op)
  | .add a => inferInstanceAs (Decidable (SlotStays s.mem.flowht (H.flowHash a.key)))
  | .disable _ | .free _ => isTrue trivial

/-- Every flow has an entry with its hash and number at the stored distance
from its home slot, less than four. -/
def TableRun.Placed (H : HashCrc) (s : TableRun) : Prop :=
  ∀ p ∈ s.live, ∃ j < flowhtNbsz, (s.mem.flowht (flowhtSlot (H.flowHash p.2) j)).valid = true ∧
    (s.mem.flowht (flowhtSlot (H.flowHash p.2) j)).flowHash = H.flowHash p.2 ∧
    (s.mem.flowht (flowhtSlot (H.flowHash p.2) j)).id = p.1 ∧
    (s.mem.flowht (flowhtSlot (H.flowHash p.2) j)).pos = j

instance (H : HashCrc) (s : TableRun) : Decidable (s.Placed H) :=
  inferInstanceAs (Decidable (∀ p ∈ s.live, _))

/-- The fast path finds exactly the flows added and not disabled, each by one
entry in its place. -/
structure TableRun.Sound (H : HashCrc) (s : TableRun) : Prop where
  found : ∀ key f, fastFlowsPacketFss H s.mem key = some f ↔ (f, key) ∈ s.live
  placed : s.Placed H
  only : ∀ k < flowhtEntries, (s.mem.flowht k).valid = true →
    ∃ key, ((s.mem.flowht k).id, key) ∈ s.live ∧ k = flowhtSlot (H.flowHash key) (s.mem.flowht k).pos

/-- Every entry is that of a flow, in its place, and every flow has one. -/
structure Entries (H : HashCrc) (ht : Nat → Hte) (live : List (Nat × FlowKey)) : Prop where
  entry : ∀ k < flowhtEntries, (ht k).valid = true → ∃ key, ((ht k).id, key) ∈ live ∧
    (ht k).flowHash = H.flowHash key ∧ k = flowhtSlot (H.flowHash key) (ht k).pos
  once : ∀ k < flowhtEntries, ∀ k' < flowhtEntries, (ht k).valid = true → (ht k').valid = true →
    (ht k).id = (ht k').id → k = k'
  present : ∀ p ∈ live, ∃ k < flowhtEntries, (ht k).valid = true ∧ (ht k).id = p.1

/-- Flows differ in their numbers, addresses and ports, have these in their
states, and their numbers are not free. -/
structure Flows (m : NicMem) (live : List (Nat × FlowKey)) (closed : List Nat) : Prop where
  ids : ∀ p ∈ live, ∀ q ∈ live, p.1 = q.1 → p = q
  keys : ∀ p ∈ live, ∀ q ∈ live, p.2 = q.2 → p = q
  state : ∀ p ∈ live, (m.flowst p.1).key = p.2
  free : ∃ l, Chain m.flowIdNext m.flowIdFreelist l ∧
    ∀ f ∈ l, f < flowstNum ∧ f ∉ closed ∧ ∀ p ∈ live, p.1 ≠ f
  nodup : closed.Nodup
  closed : ∀ f ∈ closed, f < flowstNum ∧ ∀ p ∈ live, p.1 ≠ f
  bound : ∀ p ∈ live, p.1 < flowstNum

structure TableInv (H : HashCrc) (s : TableRun) : Prop where
  entries : Entries H s.mem.flowht s.live
  flows : Flows s.mem s.live s.closed

section Lookup

variable {H : HashCrc} {s : TableRun}

theorem TableInv.entry_of_live (h : TableInv H s) {f : Nat} {key : FlowKey} (hp : (f, key) ∈ s.live) :
    ∃ k < flowhtEntries, (s.mem.flowht k).valid = true ∧ (s.mem.flowht k).id = f ∧
      (s.mem.flowht k).flowHash = H.flowHash key ∧ k = flowhtSlot (H.flowHash key) (s.mem.flowht k).pos := by
  obtain ⟨k, hk, hv, hid⟩ := h.entries.present _ hp
  obtain ⟨key', hp', hhash, hpos⟩ := h.entries.entry k hk hv
  rw [hid] at hp'
  cases h.flows.ids _ hp _ hp' rfl
  exact ⟨k, hk, hv, hid, hhash, hpos⟩

theorem TableInv.placed (h : TableInv H s) : s.Placed H := by
  rintro ⟨f, key⟩ hp
  obtain ⟨k, hk, hv, hid, hhash, hpos⟩ := h.entry_of_live hp
  refine ⟨(s.mem.flowht k).pos, Hte.pos_lt _, ?_⟩
  simp only [← hpos]
  exact ⟨hv, hhash, hid, trivial⟩

theorem TableInv.live_of_found (h : TableInv H s) {key : FlowKey} {f : Nat}
    (hf : fastFlowsPacketFss H s.mem key = some f) : (f, key) ∈ s.live := by
  simp only [fastFlowsPacketFss] at hf
  obtain ⟨j, -, hj⟩ := List.exists_of_findSome?_eq_some hf
  split at hj
  · cases hj
  rename_i hv
  split at hj
  · rename_i hkey
    cases hj
    simp only [Bool.or_eq_true, Bool.not_eq_true', bne_iff_ne, ne_eq, not_or, Bool.not_eq_false,
      Decidable.not_not] at hv
    obtain ⟨key', hp, -, -⟩ := h.entries.entry _ (flowhtSlot_lt ..) hv.1
    have := h.flows.state _ hp
    rw [hkey] at this
    exact this ▸ hp
  · cases hj

theorem TableInv.found (hH : H.Composes) (h : TableInv H s) (key : FlowKey) (f : Nat) :
    fastFlowsPacketFss H s.mem key = some f ↔ (f, key) ∈ s.live := by
  refine ⟨h.live_of_found, fun hp => ?_⟩
  obtain ⟨k, hk, hv, hid, hhash, hpos⟩ := h.entry_of_live hp
  have hsome : (fastFlowsPacketFss H s.mem key).isSome := by
    simp only [fastFlowsPacketFss, List.findSome?_isSome_iff]
    refine ⟨(s.mem.flowht k).pos, mem_range.mpr (Hte.pos_lt _), ?_⟩
    rw [hH key, ← hpos]
    simp [hv, hhash, hid, h.flows.state _ hp]
  obtain ⟨f', hf'⟩ := Option.isSome_iff_exists.mp hsome
  cases h.flows.keys _ hp _ (h.live_of_found hf') rfl
  exact hf'

theorem TableInv.sound (hH : H.Composes) (h : TableInv H s) : s.Sound H where
  found := h.found hH
  placed := h.placed
  only k hk hv := by
    obtain ⟨key, hp, -, hpos⟩ := h.entries.entry k hk hv
    exact ⟨key, hp, hpos⟩

end Lookup

section Steps

variable {H : HashCrc} {ht : Nat → Hte} {m : NicMem} {live : List (Nat × FlowKey)} {closed : List Nat}
  {f : Nat} {key : FlowKey}

theorem Entries.add (h : Entries H ht live) {d : Nat} (hd : d < flowhtNbsz) (hf : f < flowstNum)
    (hfl : ∀ p ∈ live, p.1 ≠ f) (hslot : (ht (flowhtSlot (H.flowHash key) d)).valid = false) :
    Entries H (update ht (flowhtSlot (H.flowHash key) d) (.ofFlow d f (H.flowHash key))) ((f, key) :: live) := by
  have hid := Hte.ofFlow_id (H.flowHash key) hd hf
  have hpos := Hte.ofFlow_pos (H.flowHash key) hd hf
  have hval := Hte.ofFlow_valid (H.flowHash key) hd hf
  generalize hs : flowhtSlot (H.flowHash key) d = slot at hslot ⊢
  have hlt : slot < flowhtEntries := hs ▸ flowhtSlot_lt ..
  -- an entry in another slot is an old one of another flow
  have hold : ∀ k < flowhtEntries, k ≠ slot → (ht k).valid = true → (ht k).id ≠ f := by
    intro k hk hne hv
    obtain ⟨key', hp, -, -⟩ := h.entry k hk hv
    exact hfl _ hp
  refine ⟨fun k hk => ?_, fun k hk k' hk' => ?_, fun p hp => ?_⟩
  · by_cases hkk : k = slot
    · subst hkk
      rw [update_self, hid, hpos]
      exact fun _ => ⟨key, mem_cons_self .., rfl, hs.symm⟩
    · rw [update_of_ne hkk]
      intro hv
      obtain ⟨key', hp, h'⟩ := h.entry k hk hv
      exact ⟨key', mem_cons_of_mem _ hp, h'⟩
  · by_cases hkk : k = slot <;> by_cases hkk' : k' = slot
    · exact fun _ _ _ => hkk.trans hkk'.symm
    · rw [hkk, update_self, update_of_ne hkk', hid]
      exact fun _ hv' e => absurd e.symm (hold k' hk' hkk' hv')
    · rw [hkk', update_self, update_of_ne hkk, hid]
      exact fun hv _ e => absurd e (hold k hk hkk hv)
    · rw [update_of_ne hkk, update_of_ne hkk']
      exact h.once k hk k' hk'
  · rcases mem_cons.mp hp with rfl | hp
    · exact ⟨slot, hlt, by rw [update_self]; exact ⟨hval, hid⟩⟩
    · obtain ⟨k, hk, hv, hid'⟩ := h.present p hp
      have hne : k ≠ slot := by
        rintro rfl
        rw [hslot] at hv
        cases hv
      exact ⟨k, hk, by rw [update_of_ne hne]; exact ⟨hv, hid'⟩⟩

theorem Flows.add (h : Flows m live closed) {l : List Nat} {fs : FlowSt} {ht' : Nat → Hte}
    (hl : Chain m.flowIdNext m.flowIdFreelist (f :: l))
    (hfree : ∀ g ∈ f :: l, g < flowstNum ∧ g ∉ closed ∧ ∀ p ∈ live, p.1 ≠ g) (hkey : ∀ p ∈ live, p.2 ≠ key)
    (hfs : fs.key = key) :
    Flows ⟨update m.flowst f fs, ht', m.flowIdNext f, m.flowIdNext⟩ ((f, key) :: live) closed := by
  obtain ⟨hf, hfc, hfl⟩ := hfree f (mem_cons_self ..)
  refine ⟨?_, ?_, fun p hp => ?_, ⟨l, hl.2, fun g hg => ?_⟩, h.nodup, fun g hg => ?_, ?_⟩
  · rintro p hp q hq e
    rcases mem_cons.mp hp with rfl | hp <;> rcases mem_cons.mp hq with rfl | hq
    · rfl
    · exact absurd e.symm (hfl q hq)
    · exact absurd e (hfl p hp)
    · exact h.ids p hp q hq e
  · rintro p hp q hq e
    rcases mem_cons.mp hp with rfl | hp <;> rcases mem_cons.mp hq with rfl | hq
    · rfl
    · exact absurd e.symm (hkey q hq)
    · exact absurd e (hkey p hp)
    · exact h.keys p hp q hq e
  · rcases mem_cons.mp hp with rfl | hp
    · simp [hfs]
    · simp [update_of_ne (hfl p hp), h.state p hp]
  · obtain ⟨h₁, h₂, h₃⟩ := hfree g (mem_cons_of_mem _ hg)
    refine ⟨h₁, h₂, forall_mem_cons.mpr ⟨?_, h₃⟩⟩
    rintro rfl
    exact (nodup_cons.mp hl.nodup).1 hg
  · obtain ⟨h₁, h₂⟩ := h.closed g hg
    refine ⟨h₁, forall_mem_cons.mpr ⟨?_, h₂⟩⟩
    rintro rfl
    exact hfc hg
  · exact forall_mem_cons.mpr ⟨hf, h.bound⟩

/-- `flow_slot_clear` clears the entry of its flow and no other. -/
theorem Entries.clear_cases (h : Entries H ht live) (hkey : ∀ p ∈ live, p.1 = f → p.2 = key) {k : Nat}
    (hk : k < flowhtEntries) :
    (((flowSlotClear H ht f key).1 k).valid = true →
      (flowSlotClear H ht f key).1 k = ht k ∧ (ht k).id ≠ f) ∧
    ((ht k).valid = true → (ht k).id ≠ f → (flowSlotClear H ht f key).1 k = ht k) := by
  simp only [flowSlotClear]
  split
  · rename_i j hj
    have hj' := List.find?_some hj
    simp only [Bool.and_eq_true, beq_iff_eq] at hj'
    obtain ⟨⟨hv, -⟩, hid⟩ := hj'
    by_cases hkk : k = flowhtSlot (H.flowHash key) j
    · subst hkk
      simp only [update_self, Hte.clear_valid]
      exact ⟨fun e => (Bool.false_ne_true e).elim, fun _ hne => absurd hid hne⟩
    · simp only [update_of_ne hkk]
      exact ⟨fun hv' => ⟨trivial, fun e => hkk (h.once k hk _ (flowhtSlot_lt ..) hv' hv (e.trans hid.symm))⟩,
        fun _ _ => trivial⟩
  · rename_i hnone
    refine ⟨fun hv => ⟨rfl, fun e => ?_⟩, fun _ _ => rfl⟩
    obtain ⟨key', hp, hhash, hpos⟩ := h.entry k hk hv
    have hkk := hkey _ hp e
    simp only at hkk
    rw [hkk] at hhash hpos
    have := List.find?_eq_none.mp hnone (ht k).pos (mem_range.mpr (Hte.pos_lt _))
    rw [← hpos] at this
    simp [hv, hhash, e] at this

theorem Entries.clear (h : Entries H ht live) (hkey : ∀ p ∈ live, p.1 = f → p.2 = key) :
    Entries H (flowSlotClear H ht f key).1 (live.filter fun p => p.1 != f) := by
  refine ⟨fun k hk hv => ?_, fun k hk k' hk' hv hv' => ?_, fun p hp => ?_⟩
  · obtain ⟨e, hne⟩ := (h.clear_cases hkey hk).1 hv
    rw [e] at hv ⊢
    obtain ⟨key', hp, h'⟩ := h.entry k hk hv
    exact ⟨key', mem_filter.mpr ⟨hp, by simpa using hne⟩, h'⟩
  · have e := ((h.clear_cases hkey hk).1 hv).1
    have e' := ((h.clear_cases hkey hk').1 hv').1
    rw [e] at hv ⊢
    rw [e'] at hv' ⊢
    exact h.once k hk k' hk' hv hv'
  · obtain ⟨hp, hne⟩ := mem_filter.mp hp
    obtain ⟨k, hk, hv, hid⟩ := h.present p hp
    refine ⟨k, hk, ?_⟩
    rw [(h.clear_cases hkey hk).2 hv (by rw [hid]; simpa using hne)]
    exact ⟨hv, hid⟩

theorem Flows.disable (h : Flows m live closed) (hf : f < flowstNum) (fs : FlowSt) (ht' : Nat → Hte) :
    Flows ⟨update m.flowst f fs, ht', m.flowIdFreelist, m.flowIdNext⟩ (live.filter fun p => p.1 != f)
      (if ∃ p ∈ live, p.1 = f then f :: closed else closed) := by
  have hsub : ∀ p ∈ live.filter (fun p => p.1 != f), p ∈ live ∧ p.1 ≠ f := fun p hp => by
    simpa using mem_filter.mp hp
  obtain ⟨l, hl, hfree⟩ := h.free
  refine ⟨fun p hp q hq => h.ids p (hsub p hp).1 q (hsub q hq).1, fun p hp q hq => h.keys p (hsub p hp).1 q (hsub q hq).1,
    fun p hp => ?_, ⟨l, hl, fun g hg => ?_⟩, ?_, fun g hg => ?_, fun p hp => h.bound p (hsub p hp).1⟩
  · simp [update_of_ne (hsub p hp).2, h.state p (hsub p hp).1]
  · obtain ⟨h₁, h₂, h₃⟩ := hfree g hg
    refine ⟨h₁, ?_, fun p hp => h₃ p (hsub p hp).1⟩
    split
    · rename_i hlive
      obtain ⟨p, hp, rfl⟩ := hlive
      exact fun hc => (mem_cons.mp hc).elim (fun e => h₃ p hp e.symm) h₂
    · exact h₂
  · split
    · rename_i hlive
      obtain ⟨p, hp, rfl⟩ := hlive
      exact nodup_cons.mpr ⟨fun hc => (h.closed _ hc).2 p hp rfl, h.nodup⟩
    · exact h.nodup
  · have hcase : g = f ∨ g ∈ closed := by
      split at hg
      · exact mem_cons.mp hg
      · exact .inr hg
    rcases hcase with rfl | hg
    · exact ⟨hf, fun p hp => (hsub p hp).2⟩
    · exact ⟨(h.closed g hg).1, fun p hp => (h.closed g hg).2 p (hsub p hp).1⟩

theorem Flows.release (h : Flows m live closed) (hf : f ∈ closed) : Flows (flowIdFree m f) live (closed.erase f) := by
  obtain ⟨l, hl, hfree⟩ := h.free
  refine ⟨h.ids, h.keys, h.state, ⟨f :: l, hl.push fun hm => (hfree f hm).2.1 hf, ?_⟩, h.nodup.erase f,
    fun g hg => h.closed g (mem_of_mem_erase hg), h.bound⟩
  refine forall_mem_cons.mpr ⟨⟨(h.closed f hf).1, h.nodup.not_mem_erase, (h.closed f hf).2⟩, fun g hg => ?_⟩
  obtain ⟨h₁, h₂, h₃⟩ := hfree g hg
  exact ⟨h₁, fun hc => h₂ (mem_of_mem_erase hc), h₃⟩

end Steps

theorem flowstInit_some (fs : FlowSt) {a : ConnArgs} (hrx : a.rx.endpoints.tx.addr = a.rx.self)
    (htx : a.tx.endpoints.rx.addr = a.tx.self) : ∃ fs', flowstInit fs a = some fs' ∧ fs'.key = a.key := by
  rw [flowstInit, if_neg (not_not.mpr hrx), if_neg (not_not.mpr htx)]
  exact ⟨_, rfl, rfl⟩

/-- Every step that moves no entry can be taken and keeps the invariant. -/
theorem tableStep_inv {H : HashCrc} (s : TableRun) (op : TableOp) (h : TableInv H s)
    (hok : tableCall s op ∧ tableStays H s op) : ∃ s', tableStep H s op = some s' ∧ TableInv H s' := by
  obtain ⟨hcall, hstays⟩ := hok
  cases op with
  | free f => exact ⟨_, rfl, h.entries, h.flows.release hcall⟩
  | disable f =>
    refine ⟨_, rfl, ?_, ?_⟩
    · exact h.entries.clear fun p hp e => (h.flows.state p hp).symm.trans (e ▸ rfl)
    · exact h.flows.disable hcall _ _
  | add a =>
    obtain ⟨hkey, hrx, htx⟩ := hcall
    obtain ⟨l, hl, hfree⟩ := h.flows.free
    simp only [tableStep, nicifConnectionAdd]
    cases l with
    | nil =>
      rw [chain_nil] at hl
      rw [hl]
      exact ⟨s, rfl, h⟩
    | cons f l =>
      rw [hl.1]
      obtain ⟨hf, -, hfl⟩ := hfree f (mem_cons_self ..)
      rcases flowSlotAlloc_stays hstays with e | ⟨d, hd, e, hslot⟩
      · -- no slot: the number goes back to the list
        simp only [e]
        refine ⟨_, rfl, h.entries, ⟨h.flows.ids, h.flows.keys, h.flows.state, ⟨f :: l, ?_, hfree⟩, h.flows.nodup,
          h.flows.closed, h.flows.bound⟩⟩
        exact hl.2.push (nodup_cons.mp hl.nodup).1
      · obtain ⟨fs, hfs, hfk⟩ := flowstInit_some (s.mem.flowst f) hrx htx
        simp only [e, flowhtSlot_lt, hd, and_self, if_true, hfs, Option.map_some]
        exact ⟨_, rfl, h.entries.add hd hf hfl hslot, h.flows.add hl hfree hkey hfk⟩

theorem chain_flowIds (flowst : Nat → FlowSt) (n i : Nat) (h : i + n = flowstNum) :
    Chain (nicMemInit flowst).flowIdNext (if n = 0 then none else some i) (range' i n) := by
  induction n generalizing i with
  | zero => rfl
  | succ n ih =>
    refine ⟨if_neg (Nat.succ_ne_zero n), ?_⟩
    have hnext : (nicMemInit flowst).flowIdNext i = if n = 0 then none else some (i + 1) := by
      simp only [nicMemInit]
      split <;> split
      · omega
      · rfl
      · rfl
      · omega
    rw [hnext]
    exact ih (i + 1) (by omega)

theorem nicMemInit_inv (H : HashCrc) (flowst : Nat → FlowSt) : TableInv H ⟨nicMemInit flowst, [], []⟩ where
  entries := by
    have hnone : ∀ k, ((nicMemInit flowst).flowht k).valid = false := fun _ => by
      simp only [nicMemInit]
      decide
    refine ⟨fun k _ hv => ?_, fun k _ k' _ hv => ?_, fun p hp => by cases hp⟩
    all_goals
      rw [hnone] at hv
      cases hv
  flows := by
    refine ⟨by simp, by simp, by simp, ⟨range' 0 flowstNum, ?_, fun f hf => ?_⟩, nodup_nil, by simp, by simp⟩
    · exact chain_flowIds flowst flowstNum 0 (Nat.zero_add _)
    · rw [mem_range'_1] at hf
      exact ⟨by omega, by simp, by simp⟩

/-- From an empty table on, as long as no entry is moved: no assertion fails,
and lookups of the fast path find exactly the flows that were added and not
disabled, each by one entry at the distance from its home slot that is stored
in it. -/
theorem flow_table_sound {H : HashCrc} (hH : H.Composes) (flowst : Nat → FlowSt) (ops : List TableOp)
    (hcall : Run.All (tableStep H) tableCall ⟨nicMemInit flowst, [], []⟩ ops)
    (hstays : Run.All (tableStep H) (tableStays H) ⟨nicMemInit flowst, [], []⟩ ops) :
    ∃ s, Run.exec (tableStep H) ⟨nicMemInit flowst, [], []⟩ ops = some s ∧ s.Sound H := by
  obtain ⟨s, hs, hI⟩ := Run.exec_total (fun s op => tableStep_inv s op) (nicMemInit_inv H flowst) (hcall.and hstays)
  exact ⟨s, hs, hI.sound hH⟩

/-- A checksum that is the first byte. -/
def firstByteCrc : HashCrc where
  rteHashCrc bytes _ := (bytes.getD 0 0).setWidth 32
  rteHashCrc4byte _ init := init
  rteHashCrc8byte x _ := (x.extractLsb' 0 8).setWidth 32

theorem firstByteCrc_composes : firstByteCrc.Composes := by
  intro k
  simp only [HashCrc.fastFlowHash, HashCrc.flowHash, firstByteCrc]
  rw [show (beBytes k.localIp ++ beBytes k.remoteIp ++ beBytes k.localPort ++ beBytes k.remotePort).getD 0 0 =
    k.localIp.extractLsb' 24 8 from rfl]
  congr 1
  ext i hi
  simp [beui32]
  grind

/-- A connection of a local address and port, with new queues. -/
def connAt (ip : BitVec 32) (port : BitVec 16) : ConnArgs :=
  ⟨0, 0, ip, port, 0, 0, zeroedQueue 4096 24, zeroedQueue 8192 24, 0, 0, 0, false, 0, 0⟩

/-- Three flows, two of which have the same hash; one is disabled and freed and
its number used again. -/
theorem flow_table_sound_reused :
    firstByteCrc.Composes ∧
    ∃ s, Run.exec (tableStep firstByteCrc) ⟨nicMemInit fun _ => zeroedFlow 24 0 0, [], []⟩
        [.add (connAt 0x05000000 80), .add (connAt 0x05000000 81), .add (connAt 0x06000000 80), .disable 1, .free 1,
          .add (connAt 0x05000000 82)] = some s ∧ s.Sound firstByteCrc :=
  ⟨firstByteCrc_composes, flow_table_sound firstByteCrc_composes _ _ (by decide +kernel) (by decide +kernel)⟩

/-- Four flows are in slots 0 to 3, each at home. The next ones with these
homes move them up, three slots each: the one of slot 1 first to slot 4, where
its stored displacement is still 0, and then to slot 7, out of reach. -/
theorem flow_table_moved_lost :
    ¬ ∀ H : HashCrc, H.Composes → ∀ (flowst : Nat → FlowSt) (ops : List TableOp),
      Run.All (tableStep H) tableCall ⟨nicMemInit flowst, [], []⟩ ops →
      ∀ s, Run.exec (tableStep H) ⟨nicMemInit flowst, [], []⟩ ops = some s →
        ∀ p ∈ s.live, fastFlowsPacketFss H s.mem p.2 = some p.1 := by
  intro h
  exact Run.not_forall_exec (by decide +kernel) (h firstByteCrc firstByteCrc_composes (fun _ => zeroedFlow 24 0 0)
    [.add (connAt 0x00000000 80), .add (connAt 0x01000000 80), .add (connAt 0x02000000 80), .add (connAt 0x03000000 80),
      .add (connAt 0x00000000 81), .add (connAt 0x01000000 81), .add (connAt 0x02000000 81),
      .add (connAt 0x03000000 81)] (by decide +kernel))

/-! ## Flow numbers -/

/-- The numbers disabled and freed: one of the table's, and one that was disabled and not freed yet. -/
def idCall (s : TableRun) : TableOp → Prop
  | .add _ => True
  | .disable f => f < flowstNum
  | .free f => f ∈ s.closed

instance (s : TableRun) : ∀ op, Decidable (idCall s op)
  | .add _ => isTrue trivial
  | .disable f => inferInstanceAs (Decidable (f < flowstNum))
  | .free f => inferInstanceAs (Decidable (f ∈ s.closed))

/-- The free numbers, those of disabled flows and those of flows are all numbers, each once. -/
def TableRun.Conserves (s : TableRun) : Prop :=
  ∃ l, Chain s.mem.flowIdNext s.mem.flowIdFreelist l ∧ (l ++ s.closed ++ s.live.map (·.1)).Perm (range flowstNum)

theorem tableStep_conserves {H : HashCrc} {s s' : TableRun} {op : TableOp} (h : s.Conserves) (hcall : idCall s op)
    (hs : tableStep H s op = some s') : s'.Conserves := by
  obtain ⟨l, hl, hp⟩ := h
  have hnd := hp.nodup_iff.mpr nodup_range
  cases op with
  | free f =>
    cases hs
    refine ⟨f :: l, hl.push fun hm => ?_, .trans (.append_right _ ?_) hp⟩
    · exact disjoint_of_nodup_append (nodup_append.mp hnd).1 hm hcall
    · exact perm_middle.symm.trans ((perm_cons_erase hcall).symm.append_left l)
  | disable f =>
    cases hs
    refine ⟨l, hl, .trans ?_ hp⟩
    have hids : (s.live.filter fun p => p.1 != f).map (·.1) = (s.live.map (·.1)).erase f := by
      rw [(nodup_append.mp hnd).2.1.erase_eq_filter, filter_map]
      rfl
    simp only [hids]
    split
    · rename_i hf
      refine (perm_middle.append_right _).trans (perm_middle.symm.trans ((perm_cons_erase ?_).symm.append_left _))
      simpa using hf
    · rename_i hf
      rw [erase_of_not_mem (by simpa using hf)]
  | add a =>
    obtain ⟨m, hm, rfl⟩ := Option.map_eq_some_iff.mp hs
    rw [nicifConnectionAdd] at hm
    cases l with
    | nil =>
      rw [chain_nil.mp hl] at hm
      cases hm
      exact ⟨[], hl, hp⟩
    | cons f l =>
      simp only [hl.1] at hm
      split at hm
      · cases hm
      · cases hm
        exact ⟨f :: l, hl.2.push (nodup_cons.mp hl.nodup).1, hp⟩
      · split at hm
        · obtain ⟨fs, -, e⟩ := Option.map_eq_some_iff.mp hm
          cases e
          exact ⟨l, hl.2, perm_middle.trans hp⟩
        · cases hm

theorem flow_ids_conserved (H : HashCrc) (flowst : Nat → FlowSt) {ops : List TableOp}
    (hcall : Run.All (tableStep H) idCall ⟨nicMemInit flowst, [], []⟩ ops) {s : TableRun}
    (hs : Run.exec (tableStep H) ⟨nicMemInit flowst, [], []⟩ ops = some s) : s.Conserves := by
  refine Run.exec_inv (fun s op s' h hc => tableStep_conserves h hc) ?_ hcall hs
  refine ⟨range' 0 flowstNum, chain_flowIds flowst flowstNum 0 (Nat.zero_add _), ?_⟩
  simp [range_eq_range']

/-- A flow is added twice, disabled and freed. -/
theorem flow_ids_conserved_freed : ∃ s, Run.exec (tableStep firstByteCrc) ⟨nicMemInit fun _ => zeroedFlow 24 0 0, [], []⟩
    [.add (connAt 5 80), .add (connAt 5 80), .disable 0, .free 0] = some s ∧ s.Conserves := by
  exact Run.exists_exec (by decide +kernel) fun s hs => flow_ids_conserved _ _ (by decide +kernel) hs

end TasNic
