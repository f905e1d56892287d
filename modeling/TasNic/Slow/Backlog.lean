import TasNic.Slow.Life
import TasNic.Lib.Circ

/-!
# The backlog of a listener

The SYNs that a listener stores are a ring. `Listener.stored` is what is in it,
the oldest first: `listener_packet` appends to it and searches all of it,
`listener_accept` takes the first.
-/

namespace TasNic

open Function Circ

/-- The stored packets with their cores and flow groups, the oldest first. -/
def Listener.entries (li : Listener) : List (BacklogSlot × BitVec 32 × BitVec 16) :=
  take li.backlogLen.toNat (fun p => (li.slots p, li.cores p, li.fgs p)) li.backlogPos.toNat li.backlogUsed.toNat

/-- The connections that the stored packets are for, the oldest first. -/
def Listener.stored (li : Listener) : List FlowKey :=
  (take li.backlogLen.toNat li.slots li.backlogPos.toNat li.backlogUsed.toNat).map (RawPkt.key ·.buf)

/-- Positions are in the ring, and sums of two do not overflow. -/
structure Listener.Ring (li : Listener) : Prop where
  len : li.backlogLen.toNat ≤ 0x80000000
  used : li.backlogUsed ≤ li.backlogLen
  pos : li.backlogUsed ≠ 0 ∨ li.backlogLen ≠ 0 → li.backlogPos < li.backlogLen

section

variable {b b' : Nat → Byte} {n : Nat} (h : ∀ i < n, b i = b' i) (off : Nat)

include h

theorem readBe16_congr (hoff : off + 2 ≤ n) : readBe16 b off = readBe16 b' off := by
  rw [readBe16, readBe16, h off (by omega), h (off + 1) (by omega)]

theorem readBe32_congr (hoff : off + 4 ≤ n) : readBe32 b off = readBe32 b' off := by
  rw [readBe32, readBe32, h off (by omega), h (off + 1) (by omega), h (off + 2) (by omega), h (off + 3) (by omega)]

end

namespace Listener

variable {li : Listener}

theorem mem_stored {k : FlowKey} : k ∈ li.stored ↔ ∃ i < li.backlogUsed.toNat,
    RawPkt.key (li.slots ((li.backlogPos.toNat + i) % li.backlogLen.toNat)).buf = k := by
  simp [stored, take]

theorem next_toNat {bp len : BitVec 32} (hlen : len.toNat ≤ 0x80000000) (hbp : bp < len) :
    ((bp + 1) % len).toNat = (bp.toNat + 1) % len.toNat ∧ (bp + 1) % len < len := by
  have hlt : bp.toNat < len.toNat := hbp
  have hadd : (bp + 1).toNat = bp.toNat + 1 := by bv_omega
  refine ⟨by rw [BitVec.toNat_umod, hadd], ?_⟩
  rw [BitVec.lt_def, BitVec.toNat_umod]
  exact Nat.mod_lt _ (by omega)

theorem holdsFrom_iff {k : FlowKey} {n : Nat} {bp : BitVec 32} (hlen : li.backlogLen.toNat ≤ 0x80000000)
    (hbp : bp < li.backlogLen) : li.holdsFrom k n bp = true ↔
      ∃ i < n, RawPkt.key (li.slots ((bp.toNat + i) % li.backlogLen.toNat)).buf = k := by
  induction n generalizing bp with
  | zero => simp [holdsFrom]
  | succ n ih =>
    obtain ⟨hnext, hlt⟩ := next_toNat hlen hbp
    rw [holdsFrom, Bool.or_eq_true, ih hlt, hnext, decide_eq_true_eq]
    simp only [Nat.mod_add_mod]
    constructor
    · rintro (hk | ⟨i, hi, hk⟩)
      · exact ⟨0, by omega, by rw [Nat.add_zero, Nat.mod_eq_of_lt hbp, hk]⟩
      · exact ⟨i + 1, by omega, by rw [← hk, Nat.add_right_comm, Nat.add_assoc]⟩
    · rintro ⟨i, hi, hk⟩
      cases i with
      | zero =>
        rw [Nat.add_zero, Nat.mod_eq_of_lt hbp] at hk
        exact .inl hk.symm
      | succ i => exact .inr ⟨i, by omega, by rw [← hk, Nat.add_right_comm, Nat.add_assoc]⟩

/-- The search of `listener_packet` goes through all stored packets. -/
theorem holds_iff {k : FlowKey} (h : li.Ring) : li.holds k = true ↔ k ∈ li.stored := by
  rw [mem_stored]
  by_cases hu : li.backlogUsed = 0
  · simp [holds, hu, holdsFrom]
  · exact holdsFrom_iff h.len (h.pos (.inl hu))

theorem storePos_toNat (h : li.Ring) (hne : li.backlogLen ≠ li.backlogUsed) :
    li.storePos.toNat = (li.backlogPos.toNat + li.backlogUsed.toNat) % li.backlogLen.toNat := by
  have hlen := h.len
  have hused := h.used
  have hpos := h.pos (.inr (by bv_omega))
  have hadd : (li.backlogPos + li.backlogUsed).toNat = li.backlogPos.toNat + li.backlogUsed.toNat := by bv_omega
  rw [storePos]
  split
  · rw [Nat.mod_eq_sub_mod (by bv_omega), Nat.mod_eq_of_lt (by bv_omega)]
    bv_omega
  · rw [Nat.mod_eq_of_lt (by bv_omega), hadd]

theorem key_congr {b b' : Nat → Byte} (h : ∀ i < pktTcpSize, b i = b' i) : RawPkt.key b = RawPkt.key b' := by
  have h16 : ∀ off, off + 2 ≤ pktTcpSize → readBe16 b off = readBe16 b' off := readBe16_congr h
  have h32 : ∀ off, off + 4 ≤ pktTcpSize → readBe32 b off = readBe32 b' off := readBe32_congr h
  simp (disch := decide) only [RawPkt.key, RawPkt.ipDest, RawPkt.ipSrc, RawPkt.tcpDest, RawPkt.tcpSrc, h16, h32]

theorem stored_eq (li : Listener) : li.stored = li.entries.map (RawPkt.key ·.1.buf) := by
  rw [stored, entries, take, take, List.map_map, List.map_map]
  rfl

theorem length_entries (li : Listener) : li.entries.length = li.backlogUsed.toNat := by
  rw [entries, take, List.length_map, List.length_range]

theorem entries_store {b : Nat → Byte} {len : BitVec 16} (fnCore : BitVec 32) (flowGroup : BitVec 16) (h : li.Ring)
    (hne : li.backlogLen ≠ li.backlogUsed) : (li.store b len fnCore flowGroup).entries = li.entries ++
      [(⟨fun i => if i < len.toNat then b i else (li.slots li.storePos.toNat).buf i, len⟩, fnCore, flowGroup)] := by
  have hused := h.used
  have hadd : (li.backlogUsed + 1).toNat = li.backlogUsed.toNat + 1 := by bv_omega
  simp only [entries, store, take, hadd, List.range_succ, List.map_append, List.map_cons, List.map_nil]
  rw [storePos_toNat h hne]
  congr 1
  · -- the other slots stay
    refine List.map_congr_left fun i hi => ?_
    have hi := List.mem_range.mp hi
    have hmod : (li.backlogPos.toNat + i) % li.backlogLen.toNat ≠
        (li.backlogPos.toNat + li.backlogUsed.toNat) % li.backlogLen.toNat := mod_ne_of_lt (by omega) (by bv_omega)
    rw [update_of_ne hmod, update_of_ne hmod, update_of_ne hmod]
  · rw [update_self, update_self, update_self]

theorem stored_store {b : Nat → Byte} {len : BitVec 16} (fnCore : BitVec 32) (flowGroup : BitVec 16) (h : li.Ring)
    (hne : li.backlogLen ≠ li.backlogUsed) (hb : pktTcpSize ≤ len.toNat) :
    (li.store b len fnCore flowGroup).stored = li.stored ++ [RawPkt.key b] := by
  rw [stored_eq, entries_store fnCore flowGroup h hne, List.map_append, ← stored_eq, List.map_singleton]
  congr 2
  exact key_congr fun i hi => if_pos (by omega)

theorem entries_pop (h : li.Ring) (hu : li.backlogUsed ≠ 0) : li.entries =
    (li.oldest, li.cores li.backlogPos.toNat, li.fgs li.backlogPos.toNat) :: li.pop.entries := by
  have hpos := h.pos (.inl hu)
  obtain ⟨n, hn⟩ : ∃ n, li.backlogUsed.toNat = n + 1 := ⟨li.backlogUsed.toNat - 1, by bv_omega⟩
  have hsub : (li.backlogUsed - 1).toNat = n := by bv_omega
  have hnext : ∀ i, ((if li.backlogPos + 1 ≥ li.backlogLen then li.backlogPos + 1 - li.backlogLen
      else li.backlogPos + 1).toNat + i) % li.backlogLen.toNat =
      (li.backlogPos.toNat + (i + 1)) % li.backlogLen.toNat := by
    intro i
    split
    · have hz : (li.backlogPos + 1 - li.backlogLen).toNat = 0 := by bv_omega
      have hl : li.backlogPos.toNat + (i + 1) = i + li.backlogLen.toNat := by bv_omega
      rw [hz, hl, Nat.add_mod_right, Nat.zero_add]
    · have hz : (li.backlogPos + 1).toNat = li.backlogPos.toNat + 1 := by bv_omega
      rw [hz, Nat.add_assoc, Nat.add_comm 1]
  simp only [entries, pop, take, hn, hsub, List.range_succ_eq_map, List.map_cons, List.map_map, hnext, oldest]
  rw [Nat.add_zero, Nat.mod_eq_of_lt hpos]
  rfl

theorem stored_pop (h : li.Ring) (hu : li.backlogUsed ≠ 0) : li.stored = RawPkt.key li.oldest.buf :: li.pop.stored := by
  rw [stored_eq, entries_pop h hu, List.map_cons, ← stored_eq]

theorem Ring.store {b : Nat → Byte} {len : BitVec 16} {fnCore : BitVec 32} {flowGroup : BitVec 16} (h : li.Ring)
    (hne : li.backlogLen ≠ li.backlogUsed) : (li.store b len fnCore flowGroup).Ring where
  len := h.len
  used := (li.store_used hne h.used).1
  pos _ := h.pos (.inr fun e => hne (by have := h.used; bv_omega))

theorem Ring.pop (h : li.Ring) (hu : li.backlogUsed ≠ 0) : li.pop.Ring where
  len := h.len
  used := li.pop_used hu h.used
  pos _ := by
    have hpos := h.pos (.inl hu)
    simp only [Listener.pop]
    split <;> bv_omega

end Listener

end TasNic
