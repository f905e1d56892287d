import TasNic.Lib.IdxList
import TasNic.Lib.Run
import TasNic.Lib.Tiling

/-!
# Packet memory (`tas_nic/slow/packetmem.c`)

A list of free regions, from which `packetmem_alloc` takes the first that is long enough, and to which
`packetmem_free` returns a region, joining it with its neighbours in the list. The list is meant to be
sorted, but `packetmem_free` puts a region before the free region below it and not behind.
-/

namespace TasNic

open Function IdxList Tiling List Region

structure PacketmemHandle where
  base : Nat
  len : Nat
  next : Option Nat
deriving DecidableEq

/-- The blocks that are allocated for handles, by address, and the list. The
number of blocks allocated so far bounds the turns of the loops. -/
structure Packetmem where
  handles : Nat → Option PacketmemHandle
  freelist : Option Nat
  blocks : Nat

namespace Packetmem

def next (m : Packetmem) (p : Nat) : Option Nat := (m.handles p).bind (·.next)

def set (m : Packetmem) (p : Nat) (h : Option PacketmemHandle) : Packetmem := { m with handles := update m.handles p h }

def region (m : Packetmem) (p : Nat) : Region :=
  match m.handles p with
  | none => ⟨0, 0⟩
  | some h => ⟨h.base, h.len⟩

def listFrom (m : Packetmem) : Nat → Option Nat → Option (List Nat)
  | 0, _ => none
  | _ + 1, none => some []
  | turns + 1, some p => match m.handles p with
    | none => none
    | some h => (listFrom m turns h.next).map (p :: ·)

def free (m : Packetmem) : Option (List Nat) := m.listFrom (m.blocks + 1) m.freelist

end Packetmem

/-- `packetmem_init`, if `ph_alloc` gives block `p`. -/
def packetmemInit (dmaMemSize p : Nat) : Packetmem where
  handles := update (fun _ => none) p (some ⟨0, dmaMemSize, none⟩)
  freelist := some p
  blocks := 1

/-- The loop of `packetmem_alloc`: the first handle that is long enough, and the one
before it. -/
def firstFit (m : Packetmem) (length : Nat) : Nat → Option Nat → Option Nat → Option (Option Nat × Option Nat)
  | 0, _, _ => none
  | _ + 1, phPrev, none => some (phPrev, none)
  | turns + 1, phPrev, some ph => match m.handles ph with
    | none => none
    | some h => if h.len < length then firstFit m length turns (some ph) h.next else some (phPrev, some ph)

/-- `packetmem_alloc`, if `ph_alloc` gives `block`: the handle and the offset. -/
def packetmemAlloc (m : Packetmem) (length : Nat) (block : Option Nat) : Option (Packetmem × Option (Nat × Nat)) :=
  match firstFit m length (m.blocks + 1) none m.freelist with
  | none => none
  | some (_, none) => some (m, none)
  | some (phPrev, some ph) => match m.handles ph with
    | none => none
    | some h =>
      if h.len = length then
        match phPrev with
        | none => some ({ m with freelist := h.next }, some (ph, h.base))
        | some q => match m.handles q with
          | none => none
          | some hq => some (m.set q (some { hq with next := h.next }), some (ph, h.base))
      else match block with
        | none => some (m, none)
        | some phNew =>
          let m := { m.set phNew (some ⟨h.base, length, none⟩) with blocks := m.blocks + 1 }
          some (m.set ph (some { h with base := h.base + length, len := h.len - length }), some (phNew, h.base))

/-- The loop of `packetmem_free`: the handle to insert behind. -/
def freeWalk (m : Packetmem) (base : Nat) : Nat → Option Nat → Option Nat → Option (Option Nat)
  | 0, _, _ => none
  | _ + 1, phPrev, none => some phPrev
  | turns + 1, phPrev, some ph => match m.handles ph with
    | none => none
    | some h => match h.next with
      | none => some phPrev
      | some n => match m.handles n with
        | none => none
        | some hn => if hn.base < base then freeWalk m base turns (some ph) (some n) else some phPrev

def freeInsert (m : Packetmem) (handle : Nat) (h : PacketmemHandle) : Option Nat → Option Packetmem
  | none => some { m.set handle (some { h with next := m.freelist }) with freelist := some handle }
  | some q => match m.handles q with
    | none => none
    | some hq => some ((m.set handle (some { h with next := hq.next })).set q (some { hq with next := some handle }))

/-- Joining a handle with the next one, if it starts at its end. -/
def mergeNext (m : Packetmem) (ph : Nat) : Option Packetmem :=
  match m.handles ph with
  | none => none
  | some h => match h.next with
    | none => some m
    | some n => match m.handles n with
      | none => none
      | some hn =>
        if h.base + h.len = hn.base then
          some ((m.set ph (some { h with len := h.len + hn.len, next := hn.next })).set n none)
        else some m

def mergeItems (m : Packetmem) : Option Nat → Option Packetmem
  | none => match m.freelist with
    | none => none
    | some ph => mergeNext m ph
  | some q => match m.handles q with
    | none => none
    | some hq => match hq.next with
      | none => none
      | some ph => match m.handles ph with
        | none => none
        | some h =>
          if hq.base + hq.len = h.base then
            mergeNext ((m.set q (some { hq with len := hq.len + h.len, next := h.next })).set ph none) q
          else mergeNext m ph

def packetmemFree (m : Packetmem) (handle : Nat) : Option Packetmem :=
  match m.handles handle with
  | none => none
  | some h => match freeWalk m h.base (m.blocks + 1) none m.freelist with
    | none => none
    | some phPrev => (freeInsert m handle h phPrev).bind (mergeItems · phPrev)

/-! ## Runs -/

structure PmState where
  m : Packetmem
  held : List Nat

inductive PmOp where
  | alloc (length : Nat) (block : Option Nat)
  | free (handle : Nat)

def pmStep (s : PmState) : PmOp → Option PmState
  | .alloc length block => (packetmemAlloc s.m length block).map fun
    | (m, none) => { s with m := m }
    | (m, some (handle, _)) => ⟨m, handle :: s.held⟩
  | .free handle => (packetmemFree s.m handle).map fun m => ⟨m, s.held.erase handle⟩

def pmInit (dmaMemSize p : Nat) : PmState := ⟨packetmemInit dmaMemSize p, []⟩

/-- `malloc` gives a block that is not in use, and only handles that are held are
freed. -/
def pmOk (s : PmState) : PmOp → Prop
  | .alloc _ block => ∀ p ∈ block, s.m.handles p = none
  | .free handle => handle ∈ s.held

instance (s : PmState) : ∀ op, Decidable (pmOk s op)
  | .alloc _ none => isTrue (by simp [pmOk])
  | .alloc _ (some p) => decidable_of_iff (s.m.handles p = none) (by simp [pmOk])
  | .free handle => inferInstanceAs (Decidable (handle ∈ s.held))

/-! ## Handles -/

namespace Packetmem

variable {m : Packetmem} {p q : Nat} {h : PacketmemHandle}

theorem region_eq (hp : m.handles p = some h) : m.region p = ⟨h.base, h.len⟩ := by
  rw [region, hp]

theorem next_eq (hp : m.handles p = some h) : m.next p = h.next := by
  rw [next, hp]
  rfl

theorem set_next (m : Packetmem) (p : Nat) (h : PacketmemHandle) : (m.set p (some h)).next = update m.next p h.next := by
  funext q
  by_cases hq : q = p
  · subst hq
    simp [next, set]
  · simp [next, set, update_of_ne hq]

theorem set_next_of_ne (hq : q ≠ p) (o : Option PacketmemHandle) : (m.set p o).next q = m.next q := by
  simp [next, set, update_of_ne hq]

theorem set_region_self (m : Packetmem) (p : Nat) (h : PacketmemHandle) : (m.set p (some h)).region p = ⟨h.base, h.len⟩ :=
  region_eq (update_self ..)

theorem set_region_of_ne (hq : q ≠ p) (o : Option PacketmemHandle) : (m.set p o).region q = m.region q := by
  simp [region, set, update_of_ne hq]

theorem set_handles_of_ne (hq : q ≠ p) (o : Option PacketmemHandle) : (m.set p o).handles q = m.handles q :=
  update_of_ne hq ..

theorem set_alive (h : PacketmemHandle) (hq : ∃ h, m.handles q = some h) : ∃ h', (m.set p (some h)).handles q = some h' := by
  by_cases hqp : q = p
  · rw [hqp]
    exact ⟨h, update_self ..⟩
  · rwa [set_handles_of_ne hqp]

theorem relink_region (hp : m.handles p = some h) (o : Option Nat) (q : Nat) :
    (m.set p (some { h with next := o })).region q = m.region q := by
  by_cases hqp : q = p
  · rw [hqp, set_region_self, region_eq hp]
  · rw [set_region_of_ne hqp]

end Packetmem

open Packetmem

/-- The handles `L` own the memory. -/
structure Owns (size : Nat) (m : Packetmem) (L : List Nat) : Prop where
  nodup : L.Nodup
  alive : ∀ p ∈ L, ∃ h, m.handles p = some h
  count : L.length ≤ m.blocks
  tiles : Tiles size (L.map m.region)
  bound : ∀ p ∈ L, (m.region p).stop ≤ size
  nonempty : L ≠ []

section Owns

variable {size length : Nat} {m m' : Packetmem} {L L' F H : List Nat} {p n : Nat}

theorem Owns.perm (h : Owns size m L) (hp : L.Perm L') : Owns size m L' where
  nodup := hp.nodup_iff.mp h.nodup
  alive q hq := h.alive q (hp.mem_iff.mpr hq)
  count := hp.length_eq ▸ h.count
  tiles := h.tiles.perm (hp.map _)
  bound q hq := h.bound q (hp.mem_iff.mpr hq)
  nonempty := fun he => h.nonempty (perm_nil.mp (he ▸ hp))

theorem Owns.congr (h : Owns size m L) (hr : ∀ q ∈ L, m'.region q = m.region q)
    (ha : ∀ q ∈ L, ∃ h, m'.handles q = some h) (hb : m'.blocks = m.blocks) : Owns size m' L where
  nodup := h.nodup
  alive := ha
  count := hb ▸ h.count
  tiles := map_congr_left hr ▸ h.tiles
  bound q hq := hr q hq ▸ h.bound q hq
  nonempty := h.nonempty

theorem Owns.cut (length : Nat) (h : Owns size m (p :: L)) (hn : m.handles n = none)
    (hp : m'.region p = ⟨(m.region p).base + length, (m.region p).len - length⟩)
    (hr : m'.region n = ⟨(m.region p).base, length⟩) (hle : length ≤ (m.region p).len)
    (hL : ∀ q ∈ L, m'.region q = m.region q) (ha : ∀ q ∈ n :: p :: L, ∃ h, m'.handles q = some h)
    (hb : m'.blocks = m.blocks + 1) : Owns size m' (n :: p :: L) where
  nodup := by
    refine nodup_cons.mpr ⟨fun hmem => ?_, h.nodup⟩
    obtain ⟨_, e⟩ := h.alive n hmem
    rw [hn] at e
    cases e
  alive := ha
  count := by
    have := h.count
    rw [hb, length_cons]
    omega
  tiles := by
    have ht := h.tiles
    have e : m.region p = ⟨(m.region p).base, length + ((m.region p).len - length)⟩ := by
      rw [Nat.add_sub_cancel' hle]
    rw [map_cons, e, ← cut_tiles] at ht
    rw [map_cons, map_cons, hr, hp, map_congr_left hL]
    exact ht
  bound q hq := by
    have hpb := h.bound p (mem_cons_self ..)
    simp only [stop] at hpb ⊢
    rcases mem_cons.mp hq with rfl | hq
    · rw [hr]
      dsimp only
      omega
    rcases mem_cons.mp hq with rfl | hq
    · rw [hp]
      dsimp only
      omega
    · rw [hL q hq]
      exact h.bound q (mem_cons_of_mem _ hq)
  nonempty := cons_ne_nil _ _

theorem Owns.join (h : Owns size m (p :: n :: L)) (he : (m.region p).stop = (m.region n).base)
    (hp : m'.region p = ⟨(m.region p).base, (m.region p).len + (m.region n).len⟩)
    (hL : ∀ q ∈ L, m'.region q = m.region q) (ha : ∀ q ∈ p :: L, ∃ h, m'.handles q = some h)
    (hb : m'.blocks = m.blocks) : Owns size m' (p :: L) where
  nodup := by
    have := h.nodup
    simp only [nodup_cons, mem_cons, not_or] at this ⊢
    exact ⟨this.1.2, this.2.2⟩
  alive := ha
  count := by
    have := h.count
    simp only [length_cons] at this ⊢
    omega
  tiles := by
    have ht := h.tiles
    have e : m.region n = ⟨(m.region p).base + (m.region p).len, (m.region n).len⟩ := by
      rw [← stop, he]
    rw [map_cons, map_cons, e, cut_tiles] at ht
    rw [map_cons, hp, map_congr_left hL]
    exact ht
  bound q hq := by
    have hnb := h.bound n (mem_cons_of_mem _ (mem_cons_self ..))
    rcases mem_cons.mp hq with rfl | hq
    · rw [hp]
      simp only [stop] at he hnb ⊢
      omega
    · rw [hL q hq]
      exact h.bound q (mem_cons_of_mem _ (mem_cons_of_mem _ hq))
  nonempty := cons_ne_nil _ _

end Owns

/-- The invariant: the free list `F`, and the handles `H` held by callers. -/
structure PmInv (size : Nat) (m : Packetmem) (F H : List Nat) : Prop where
  chain : Chain m.next m.freelist F
  owns : Owns size m (F ++ H)

/-- The free regions are in order with gaps between them, and none is empty. -/
structure PmSorted (size : Nat) (m : Packetmem) (F : List Nat) : Prop where
  separated : F.Pairwise fun p q => (m.region p).stop < (m.region q).base
  pos : ∀ q ∈ F, 0 < (m.region q).len ∨ size = 0

theorem PmSorted.shrink {size : Nat} {m m' : Packetmem} {F F' : List Nat} (h : PmSorted size m F) (hsub : F'.Sublist F)
    (hstop : ∀ q ∈ F', (m'.region q).stop ≤ (m.region q).stop) (hbase : ∀ q ∈ F', (m.region q).base ≤ (m'.region q).base)
    (hpos : ∀ q ∈ F', 0 < (m.region q).len ∨ size = 0 → 0 < (m'.region q).len ∨ size = 0) : PmSorted size m' F' := by
  refine ⟨(h.separated.sublist hsub).imp_of_mem fun {p q} hp hq hlt => ?_, fun q hq => hpos q hq (h.pos q (hsub.subset hq))⟩
  have h₁ := hstop p hp
  have h₂ := hbase q hq
  omega

section Calls

variable {size length turns : Nat} {m m' : Packetmem} {F H A B : List Nat} {p : Nat} {block : Option Nat}

theorem PmInv.length_lt (h : PmInv size m F H) : F.length < m.blocks + 1 := by
  have := h.owns.count
  rw [length_append] at this
  omega

theorem PmInv.alive (h : PmInv size m F H) (hp : p ∈ F) : ∃ h, m.handles p = some h :=
  h.owns.alive p (mem_append_left _ hp)

theorem listFrom_eq {o : Option Nat} (hc : Chain m.next o F) (ha : ∀ q ∈ F, ∃ h, m.handles q = some h)
    (ht : F.length < turns) : m.listFrom turns o = some F := by
  induction o, F, turns, hc, ht using Chain.walk with
  | nil turns => rfl
  | cons a F turns hc ht ih =>
    obtain ⟨h, e⟩ := ha a (mem_cons_self ..)
    rw [next_eq e] at ih
    simp [listFrom, e, ih fun q hq => ha q (mem_cons_of_mem _ hq)]

theorem PmInv.free_eq (h : PmInv size m F H) : m.free = some F :=
  listFrom_eq h.chain (fun _ => h.alive) h.length_lt

/-- The loop of `packetmem_alloc` finds the first handle that is long enough. -/
theorem firstFit_eq (length : Nat) {ph : Option Nat} (o : Option Nat) (hc : Chain m.next ph B)
    (ha : ∀ q ∈ B, ∃ h, m.handles q = some h) (ht : B.length < turns) :
    (∃ o', firstFit m length turns o ph = some (o', none) ∧ ∀ q ∈ B, (m.region q).len < length) ∨
    ∃ B₁ p B₂, B = B₁ ++ p :: B₂ ∧ length ≤ (m.region p).len ∧
      firstFit m length turns o ph = some (B₁.getLast?.or o, some p) := by
  induction ph, B, turns, hc, ht using Chain.walk generalizing o with
  | nil turns => exact .inl ⟨o, rfl, by simp⟩
  | cons a B turns hc ht ih =>
    obtain ⟨h, e⟩ := ha a (mem_cons_self ..)
    have hlen : (m.region a).len = h.len := by rw [region_eq e]
    rw [next_eq e] at ih
    simp only [firstFit, e]
    split
    · rcases ih (some a) fun q hq => ha q (mem_cons_of_mem _ hq) with ⟨o, e', hall⟩ | ⟨B₁, p, B₂, rfl, hle, e'⟩
      · refine .inl ⟨o, e', fun q hq => ?_⟩
        rcases mem_cons.mp hq with rfl | hq
        · rwa [hlen]
        · exact hall q hq
      · refine .inr ⟨a :: B₁, p, B₂, rfl, hle, ?_⟩
        rw [e']
        cases B₁ with
        | nil => rfl
        | cons b B₁ => rw [getLast?_cons_cons, getLast?_eq_some_getLast (cons_ne_nil b B₁)]; rfl
    · exact .inr ⟨[], a, B, rfl, by omega, rfl⟩

/-- What `packetmem_alloc` does: it fails, takes a whole region off the list, or cuts
the front off one. -/
theorem packetmemAlloc_cases (h : PmInv size m F H) (length : Nat) (block : Option Nat) :
    (packetmemAlloc m length block = some (m, none) ∧ ((∀ p ∈ F, (m.region p).len < length) ∨ block = none)) ∨
    (∃ A p B m', F = A ++ p :: B ∧ packetmemAlloc m length block = some (m', some (p, (m.region p).base)) ∧
      Chain m'.next m'.freelist (A ++ B) ∧ (∀ q, m'.region q = m.region q) ∧
      (∀ q, (∃ h, m.handles q = some h) → ∃ h, m'.handles q = some h) ∧ m'.blocks = m.blocks) ∨
    ∃ p ∈ F, ∃ n h, block = some n ∧ m.handles p = some h ∧ length < h.len ∧ packetmemAlloc m length block = some
      (({ m.set n (some ⟨h.base, length, none⟩) with blocks := m.blocks + 1 } : Packetmem).set p
        (some { h with base := h.base + length, len := h.len - length }), some (n, h.base)) := by
  unfold packetmemAlloc
  rcases firstFit_eq length none h.chain (fun _ => h.alive) h.length_lt with
    ⟨o, e, hall⟩ | ⟨A, p, B, rfl, hle, e⟩
  · rw [e]
    exact .inl ⟨rfl, .inl hall⟩
  obtain ⟨hp, ep⟩ := h.alive (p := p) (by simp)
  rw [Option.or_none] at e
  have hle : length ≤ hp.len := by rwa [region_eq ep] at hle
  simp only [e, ep]
  split
  · refine .inr (.inl ⟨A, p, B, ?_⟩)
    have hc := h.chain.unlink
    rw [next_eq ep] at hc
    cases hA : A.getLast? with
    | none =>
      rw [hA] at hc
      exact ⟨{ m with freelist := hp.next }, rfl, by rw [region_eq ep], hc, fun _ => rfl, fun _ => id, rfl⟩
    | some q =>
      obtain ⟨hq, eq⟩ := h.alive (p := q) (mem_append_left _ (mem_of_getLast? hA))
      rw [hA] at hc
      refine ⟨m.set q (some { hq with next := hp.next }), rfl, by simp [region_eq ep, eq], ?_, fun r => ?_,
        fun r hr => ?_, rfl⟩
      · rw [set_next]
        exact hc
      · exact relink_region eq ..
      · exact set_alive _ hr
  · cases block with
    | none => exact .inl ⟨rfl, .inr rfl⟩
    | some n => exact .inr (.inr ⟨p, by simp, n, hp, rfl, ep, by omega, rfl⟩)

theorem perm_move (A : List Nat) (p : Nat) (B H : List Nat) : (A ++ p :: B ++ H).Perm (A ++ B ++ p :: H) :=
  (by simp : (A ++ p :: B ++ H).Perm (p :: (A ++ B ++ H))).trans perm_middle.symm

theorem packetmemAlloc_inv (length : Nat) (h : PmInv size m F H) (hblock : ∀ p ∈ block, m.handles p = none) :
    ∃ m' r F', packetmemAlloc m length block = some (m', r) ∧
      PmInv size m' F' (match r with | none => H | some (p, _) => p :: H) ∧
      (PmSorted size m F → PmSorted size m' F') := by
  rcases packetmemAlloc_cases h length block with
    ⟨e, -⟩ | ⟨A, p, B, m', rfl, e, hc, hr, ha, hb⟩ | ⟨p, hp, n, hd, rfl, ep, hlt, e⟩
  · exact ⟨m, none, F, e, h, id⟩
  · refine ⟨m', _, A ++ B, e, ⟨hc, ?_⟩, fun hs => ?_⟩
    · have howns := h.owns.perm (perm_move A p B H)
      exact howns.congr (fun q _ => hr q) (fun q hq => ha q (howns.alive q hq)) hb
    · have hsub : (A ++ B).Sublist (A ++ p :: B) := (sublist_cons_self p B).append_left A
      exact hs.shrink hsub (fun q _ => by rw [hr]) (fun q _ => by rw [hr]) fun q _ => by rw [hr]; exact id
  · have hn : m.handles n = none := hblock n rfl
    have hpn : p ≠ n := fun he => by rw [he, hn] at ep; cases ep
    have hne : ∀ q ∈ F ++ H, q ≠ n := by
      intro q hq he
      obtain ⟨_, e'⟩ := h.owns.alive q hq
      rw [he, hn] at e'
      cases e'
    have hregion : ∀ q ∈ F ++ H, q ≠ p →
        (({ m.set n (some ⟨hd.base, length, none⟩) with blocks := m.blocks + 1 } : Packetmem).set p
          (some { hd with base := hd.base + length, len := hd.len - length })).region q = m.region q := by
      intro q hq hqp
      rw [set_region_of_ne hqp]
      exact set_region_of_ne (hne q hq) _
    refine ⟨_, _, F, e, ⟨h.chain.congr fun q hq => ?_, ?_⟩, fun hs => ?_⟩
    · rw [set_next]
      by_cases hqp : q = p
      · rw [hqp, update_self, next_eq ep]
      · rw [update_of_ne hqp]
        exact set_next_of_ne (hne q (mem_append_left _ hq)) _
    · obtain ⟨A, B, rfl⟩ := append_of_mem hp
      have hperm : (A ++ p :: B ++ H).Perm (p :: (A ++ B ++ H)) := by simp
      have howns := h.owns.perm hperm
      have hp' := (nodup_cons.mp howns.nodup).1
      refine (howns.cut length hn ?_ ?_ ?_ (fun q hq => ?_) (fun q hq => ?_) rfl).perm ?_
      · rw [set_region_self, region_eq ep]
      · rw [set_region_of_ne hpn.symm, region_eq ep]
        exact set_region_self ..
      · rw [region_eq ep]
        exact Nat.le_of_lt hlt
      · exact hregion q (hperm.mem_iff.mpr (mem_cons_of_mem _ hq)) (ne_of_mem_of_not_mem hq hp')
      · apply set_alive
        rcases mem_cons.mp hq with rfl | hq
        · exact ⟨_, update_self ..⟩
        · exact set_alive _ (howns.alive q hq)
      · exact (hperm.symm.cons n).trans perm_middle.symm
    · refine hs.shrink (List.Sublist.refl F) (fun q hq => ?_) (fun q hq => ?_) (fun q hq => ?_) <;> by_cases hqp : q = p
      · rw [hqp, set_region_self, region_eq ep]
        simp only [stop]
        omega
      · rw [hregion q (mem_append_left _ hq) hqp]
      · rw [hqp, set_region_self, region_eq ep]
        exact Nat.le_add_right ..
      · rw [hregion q (mem_append_left _ hq) hqp]
      · rw [hqp, set_region_self]
        exact fun _ => .inl (Nat.sub_pos_of_lt hlt)
      · rw [hregion q (mem_append_left _ hq) hqp]
        exact id

/-- The loop of `packetmem_free` gives a handle of the list, if any. -/
theorem freeWalk_eq (base : Nat) {o ph : Option Nat} (hc : Chain m.next ph B)
    (ha : ∀ q ∈ B, ∃ h, m.handles q = some h) (ht : B.length < turns) :
    ∃ r, freeWalk m base turns o ph = some r ∧ (r = o ∨ ∃ q ∈ B, r = some q) := by
  induction ph, B, turns, hc, ht using Chain.walk generalizing o with
  | nil turns => exact ⟨o, rfl, .inl rfl⟩
  | cons a B turns hc ht ih =>
    obtain ⟨h, e⟩ := ha a (mem_cons_self ..)
    rw [next_eq e] at hc ih
    simp only [freeWalk, e]
    cases B with
    | nil =>
      rw [chain_nil.mp hc]
      exact ⟨o, rfl, .inl rfl⟩
    | cons b B =>
      obtain ⟨hb, eb⟩ := ha b (mem_cons_of_mem _ (mem_cons_self ..))
      rw [hc.1] at ih ⊢
      simp only [eb]
      split
      · obtain ⟨r, e', hr⟩ := ih (o := some a) fun q hq => ha q (mem_cons_of_mem _ hq)
        refine ⟨r, e', .inr ?_⟩
        rcases hr with rfl | ⟨q, hq, rfl⟩
        · exact ⟨a, mem_cons_self .., rfl⟩
        · exact ⟨q, mem_cons_of_mem _ hq, rfl⟩
      · exact ⟨o, rfl, .inl rfl⟩

theorem freeInsert_inv {hp : PacketmemHandle} (h : PmInv size m (A ++ B) (p :: H)) (ep : m.handles p = some hp) :
    ∃ m', freeInsert m p hp A.getLast? = some m' ∧ PmInv size m' (A ++ p :: B) H ∧ ∀ q, m'.region q = m.region q := by
  have hnd := (h.owns.perm perm_middle).nodup
  have hpA : p ∉ A ++ B := fun hp' => (nodup_cons.mp hnd).1 (mem_append_left _ hp')
  have howns := h.owns.perm (perm_move A p B H).symm
  rcases eq_nil_or_concat A with rfl | ⟨A', q, rfl⟩
  · have hr := relink_region ep m.freelist
    refine ⟨_, rfl, ⟨?_, howns.congr (fun q _ => hr q) (fun q hq => set_alive _ (howns.alive q hq)) rfl⟩, hr⟩
    have hc := h.chain.push hpA
    rwa [← set_next m p { hp with next := m.freelist }] at hc
  · rw [concat_eq_append] at h howns hpA ⊢
    obtain ⟨hq, eq⟩ := h.alive (p := q) (by simp)
    have hqp : q ≠ p := fun he => hpA (by simp [he])
    have eq' : (m.set p (some { hp with next := hq.next })).handles q = some hq := by rw [set_handles_of_ne hqp, eq]
    have hr : ∀ r, ((m.set p (some { hp with next := hq.next })).set q (some { hq with next := some p })).region r =
        m.region r := fun r => (relink_region eq' ..).trans (relink_region ep ..)
    refine ⟨_, by rw [getLast?_concat, freeInsert, eq], ⟨?_, howns.congr (fun r _ => hr r)
      (fun r hr => set_alive _ (set_alive _ (howns.alive r hr))) rfl⟩, hr⟩
    have hc := h.chain
    simp only [append_assoc, singleton_append] at hc hpA ⊢
    have hc' := hc.insert_after hpA
    rw [next_eq eq, ← set_next m p { hp with next := hq.next },
      ← set_next _ q { hq with next := some p }] at hc'
    exact hc'

theorem join_inv {n : Nat} {hp hn : PacketmemHandle} (h : PmInv size m (A ++ p :: n :: B) H) (ep : m.handles p = some hp)
    (en : m.handles n = some hn) (he : hp.base + hp.len = hn.base)
    (hm : m' = (m.set p (some { hp with len := hp.len + hn.len, next := hn.next })).set n none) :
    PmInv size m' (A ++ p :: B) H ∧ m'.region p = ⟨hp.base, hp.len + hn.len⟩ ∧
      ∀ q, q ≠ p → q ≠ n → m'.region q = m.region q := by
  have hperm : (A ++ p :: n :: B ++ H).Perm (p :: n :: (A ++ B ++ H)) := by
    rw [append_assoc, append_assoc]
    exact perm_middle.trans (perm_middle.cons p)
  have howns := h.owns.perm hperm
  have hnd := howns.nodup
  simp only [nodup_cons, mem_cons, not_or] at hnd
  obtain ⟨⟨hpn, hpL⟩, hnL, -⟩ := hnd
  have hp' : m'.region p = ⟨hp.base, hp.len + hn.len⟩ := by rw [hm, set_region_of_ne hpn, set_region_self]
  have hq : ∀ q, q ≠ p → q ≠ n → m'.region q = m.region q := by
    intro q hqp hqn
    rw [hm, set_region_of_ne hqn, set_region_of_ne hqp]
  refine ⟨⟨?_, ?_⟩, hp', hq⟩
  · have hc := h.chain.remove_after
    rw [next_eq en, ← set_next m p { hp with len := hp.len + hn.len, next := hn.next }] at hc
    have hfree : m'.freelist = m.freelist := by rw [hm]; rfl
    rw [hfree]
    refine hc.congr fun q hq => ?_
    rw [hm]
    refine set_next_of_ne (fun e => ?_) _
    rcases mem_append.mp hq with hq | hq
    · exact hnL (by simp [← e, hq])
    rcases mem_cons.mp hq with hq | hq
    · exact hpn (hq.symm.trans e)
    · exact hnL (by simp [← e, hq])
  · refine (howns.join ?_ ?_ (fun q hqL => ?_) (fun q hqL => ?_) (by rw [hm]; rfl)).perm ?_
    · rw [region_eq ep, region_eq en]
      exact he
    · rw [hp', region_eq ep, region_eq en]
    · exact hq q (ne_of_mem_of_not_mem hqL hpL) (ne_of_mem_of_not_mem hqL hnL)
    · rw [hm]
      have hqn : q ≠ n := by
        rcases mem_cons.mp hqL with rfl | hqL
        · exact hpn
        · exact ne_of_mem_of_not_mem hqL hnL
      rw [set_handles_of_ne hqn]
      refine set_alive _ (howns.alive q ?_)
      rcases mem_cons.mp hqL with rfl | hqL
      · exact mem_cons_self ..
      · exact mem_cons_of_mem _ (mem_cons_of_mem _ hqL)
    · rw [append_assoc, append_assoc]
      exact perm_middle.symm

theorem mergeNext_inv (h : PmInv size m (A ++ p :: B) H) :
    ∃ m' B', mergeNext m p = some m' ∧ PmInv size m' (A ++ p :: B') H ∧
      ((m' = m ∧ B' = B ∧ ∀ n ∈ B.head?, (m.region p).stop ≠ (m.region n).base) ∨
        ∃ n, B = n :: B' ∧ (m.region p).stop = (m.region n).base ∧
          m'.region p = ⟨(m.region p).base, (m.region p).len + (m.region n).len⟩ ∧
          ∀ q, q ≠ p → q ≠ n → m'.region q = m.region q) := by
  obtain ⟨hp, ep⟩ := h.alive (p := p) (by simp)
  have hc := h.chain.after
  rw [next_eq ep] at hc
  unfold mergeNext
  simp only [ep]
  cases B with
  | nil =>
    rw [chain_nil.mp hc]
    exact ⟨m, [], rfl, h, .inl ⟨rfl, rfl, by simp⟩⟩
  | cons n B =>
    obtain ⟨hn, en⟩ := h.alive (p := n) (by simp)
    simp only [hc.1, en]
    split
    · rename_i he
      obtain ⟨h', hr, hrest⟩ := join_inv h ep en he rfl
      refine ⟨_, B, rfl, h', .inr ⟨n, rfl, ?_, ?_, hrest⟩⟩
      · rw [region_eq ep, region_eq en]
        exact he
      · rw [hr, region_eq ep, region_eq en]
    · rename_i he
      refine ⟨m, _, rfl, h, .inl ⟨rfl, rfl, fun n' hn' => ?_⟩⟩
      rw [head?_cons, Option.mem_some_iff] at hn'
      rw [← hn', region_eq ep, region_eq en]
      exact he

/-- `merge_items` behind the handle before `p`. -/
theorem mergeItems_inv (h : PmInv size m (A ++ p :: B) H) :
    ∃ m' F', mergeItems m A.getLast? = some m' ∧ PmInv size m' F' H := by
  obtain ⟨hp, ep⟩ := h.alive (p := p) (by simp)
  obtain ⟨m₁, B₁, e₁, h₁, -⟩ := mergeNext_inv h
  rcases eq_nil_or_concat A with rfl | ⟨A', q, rfl⟩
  · refine ⟨m₁, _, ?_, h₁⟩
    rw [getLast?_nil, mergeItems, h.chain.1]
    exact e₁
  · rw [concat_eq_append, append_assoc, singleton_append] at h
    obtain ⟨hq, eq⟩ := h.alive (p := q) (by simp)
    have hnext : hq.next = some p := by
      have hc := h.chain.after
      rw [next_eq eq] at hc
      exact hc.1
    rw [concat_eq_append, getLast?_concat]
    simp only [mergeItems, eq, hnext, ep]
    split
    · rename_i he
      obtain ⟨m₂, B₂, e₂, h₂, -⟩ := mergeNext_inv (join_inv h eq ep he rfl).1
      exact ⟨m₂, _, e₂, h₂⟩
    · exact ⟨m₁, _, e₁, h₁⟩

theorem packetmemFree_inv (h : PmInv size m F H) (hp : p ∈ H) :
    ∃ m' F', packetmemFree m p = some m' ∧ PmInv size m' F' (H.erase p) := by
  have hperm := (perm_cons_erase hp).append_left F
  have h' : PmInv size m F (p :: H.erase p) := ⟨h.chain, h.owns.perm hperm⟩
  obtain ⟨hd, ep⟩ := h.owns.alive p (mem_append_right _ hp)
  obtain ⟨r, er, hr⟩ := freeWalk_eq hd.base (o := none) h.chain (fun _ => h.alive) h.length_lt
  have hsplit : ∃ A B, F = A ++ B ∧ r = A.getLast? := by
    rcases hr with rfl | ⟨q, hq, rfl⟩
    · exact ⟨[], F, rfl, rfl⟩
    · obtain ⟨A, B, rfl⟩ := append_of_mem hq
      exact ⟨A ++ [q], B, by simp, by simp⟩
  obtain ⟨A, B, rfl, rfl⟩ := hsplit
  obtain ⟨m₁, e₁, h₁, -⟩ := freeInsert_inv h' ep
  obtain ⟨m₂, F₂, e₂, h₂⟩ := mergeItems_inv h₁
  refine ⟨m₂, F₂, ?_, h₂⟩
  simp [packetmemFree, ep, er, e₁, e₂]

end Calls

theorem packetmemInit_inv (dmaMemSize p : Nat) : PmInv dmaMemSize (packetmemInit dmaMemSize p) [p] [] := by
  have e : (packetmemInit dmaMemSize p).handles p = some ⟨0, dmaMemSize, none⟩ := by
    simp [packetmemInit]
  refine ⟨⟨rfl, next_eq e⟩, nodup_singleton p, fun q hq => ?_, Nat.le_refl _, ?_, fun q hq => ?_,
    cons_ne_nil _ _⟩
  · rw [mem_singleton.mp hq]
    exact ⟨_, e⟩
  · rw [append_nil, map_singleton, region_eq e]
    exact single_tiles dmaMemSize
  · rw [mem_singleton.mp hq, region_eq e]
    simp [stop]

theorem pmStep_inv {size : Nat} {s : PmState} {op : PmOp} {F : List Nat} (h : PmInv size s.m F s.held) (hok : pmOk s op) :
    ∃ s' F', pmStep s op = some s' ∧ PmInv size s'.m F' s'.held := by
  cases op with
  | alloc length block =>
    obtain ⟨m', r, F', e, h', -⟩ := packetmemAlloc_inv length h hok
    cases r with
    | none => exact ⟨⟨m', s.held⟩, F', by rw [pmStep, e]; rfl, h'⟩
    | some r => exact ⟨⟨m', r.1 :: s.held⟩, F', by rw [pmStep, e]; rfl, h'⟩
  | free p =>
    obtain ⟨m', F', e, h'⟩ := packetmemFree_inv h hok
    exact ⟨⟨m', s.held.erase p⟩, F', by rw [pmStep, e]; rfl, h'⟩

/-- The regions on the free list and those of the handles held tile the memory, after
every sequence of calls; none of them uses a freed handle or does not end. -/
theorem packetmem_partition {dmaMemSize block : Nat} {ops : List PmOp}
    (hok : Run.All pmStep pmOk (pmInit dmaMemSize block) ops) :
    ∃ s F, Run.exec pmStep (pmInit dmaMemSize block) ops = some s ∧ s.m.free = some F ∧
      ((F ++ s.held).map s.m.region).Pairwise (fun r r' => ∀ a, ¬ (r.has a = true ∧ r'.has a = true)) ∧
      (∀ a, a < dmaMemSize ↔ ∃ p ∈ F ++ s.held, (s.m.region p).has a = true) ∧
      ∀ length block m', packetmemAlloc s.m length block = some (m', none) → m'.free = s.m.free ∧ m'.region = s.m.region := by
  obtain ⟨s, e, F, h⟩ := Run.exec_total (I := fun s => ∃ F, PmInv dmaMemSize s.m F s.held) (fun s op hI hop => by
    obtain ⟨F, h⟩ := hI
    obtain ⟨s', F', e, h'⟩ := pmStep_inv h hop
    exact ⟨s', e, F', h'⟩) ⟨_, packetmemInit_inv dmaMemSize block⟩ hok
  refine ⟨s, F, e, h.free_eq, h.owns.tiles.disjoint, fun a => ?_, fun length block m' ea => ?_⟩
  · rw [h.owns.tiles.union a]
    simp only [mem_map, exists_exists_and_eq_and]
  · rcases packetmemAlloc_cases h length block with ⟨e', -⟩ | ⟨A, p, B, m'', -, e', -⟩ | ⟨p, -, n, hd, -, -, -, e'⟩
    · rw [e'] at ea
      cases ea
      exact ⟨rfl, rfl⟩
    · rw [e'] at ea
      cases ea
    · rw [e'] at ea
      cases ea

/-- Three regions are allocated and freed, the middle one last. -/
def pmThreeOps : List PmOp :=
  [.alloc 10 (some 1), .alloc 20 (some 2), .alloc 70 none, .alloc 5 (some 3), .free 1, .free 0, .free 2]

theorem packetmem_partition_three : ∃ s F, Run.exec pmStep (pmInit 100 0) pmThreeOps = some s ∧ s.m.free = some F ∧
      ((F ++ s.held).map s.m.region).Pairwise (fun r r' => ∀ a, ¬ (r.has a = true ∧ r'.has a = true)) ∧
      (∀ a, a < 100 ↔ ∃ p ∈ F ++ s.held, (s.m.region p).has a = true) ∧
      ∀ length block m', packetmemAlloc s.m length block = some (m', none) → m'.free = s.m.free ∧ m'.region = s.m.region :=
  packetmem_partition (by decide +kernel)

/-! ## The order of the list -/

/-- No free region is below the one of a handle, and it is not empty or starts where
the first free region does. -/
def lowest (m : Packetmem) (p : Nat) : Bool :=
  match m.free with
  | none => false
  | some F => F.all (fun q => decide ((m.region p).base ≤ (m.region q).base)) &&
    (decide (0 < (m.region p).len) || F.head?.any fun q => decide ((m.region q).base = (m.region p).base))

/-- Regions are freed only below the free ones. -/
def pmLowest (s : PmState) : PmOp → Prop
  | .alloc _ _ => True
  | .free p => lowest s.m p = true

instance (s : PmState) : ∀ op, Decidable (pmLowest s op)
  | .alloc _ _ => inferInstanceAs (Decidable True)
  | .free p => inferInstanceAs (Decidable (lowest s.m p = true))

section Sorted

variable {size length turns : Nat} {m m' : Packetmem} {F H : List Nat} {p : Nat} {hd : PacketmemHandle}

theorem freeWalk_lowest (h : PmInv size m F H) {base : Nat} (hb : ∀ q ∈ F, base ≤ (m.region q).base) :
    freeWalk m base (m.blocks + 1) none m.freelist = some none := by
  have hc := h.chain
  cases F with
  | nil =>
    rw [chain_nil.mp hc]
    rfl
  | cons a F =>
    obtain ⟨ha, ea⟩ := h.alive (p := a) (by simp)
    obtain ⟨hfree, hc⟩ := hc
    rw [next_eq ea] at hc
    simp only [freeWalk, hfree, ea]
    cases F with
    | nil => rw [chain_nil.mp hc]
    | cons b F =>
      obtain ⟨hb', eb⟩ := h.alive (p := b) (by simp)
      have hle := hb b (by simp)
      rw [region_eq eb] at hle
      simp [hc.1, eb, if_neg (Nat.not_lt.mpr hle)]

theorem lowest_iff (h : PmInv size m F H) : lowest m p = true ↔ (∀ q ∈ F, (m.region p).base ≤ (m.region q).base) ∧
    (0 < (m.region p).len ∨ ∃ q ∈ F.head?, (m.region q).base = (m.region p).base) := by
  rw [lowest, h.free_eq]
  simp [Option.any_eq_true]

theorem Owns.stop_lt {q : Nat} (h : Owns size m (p :: q :: F)) (hb : (m.region p).base ≤ (m.region q).base)
    (hq : 0 < (m.region q).len) (hne : (m.region p).stop ≠ (m.region q).base) :
    (m.region p).stop < (m.region q).base := by
  have hd := (pairwise_cons.mp h.tiles.disjoint).1 (m.region q) (by simp) (m.region q).base
  rw [has_base hq, has_iff] at hd
  simp only [hb, true_and, and_true] at hd
  omega

theorem packetmemFree_sorted (h : PmInv size m F H) (hs : PmSorted size m F) (hp : p ∈ H) (hlow : lowest m p = true) :
    ∃ m' F', packetmemFree m p = some m' ∧ PmInv size m' F' (H.erase p) ∧ PmSorted size m' F' := by
  obtain ⟨hbase, hpos⟩ := (lowest_iff h).mp hlow
  have hperm := (perm_cons_erase hp).append_left F
  have h' : PmInv size m ([] ++ F) (p :: H.erase p) := ⟨h.chain, h.owns.perm hperm⟩
  obtain ⟨hd, ep⟩ := h.owns.alive p (mem_append_right _ hp)
  have ew : freeWalk m hd.base (m.blocks + 1) none m.freelist = some none := by
    refine freeWalk_lowest h ?_
    rwa [region_eq ep] at hbase
  obtain ⟨m₁, e₁, h₁, hr₁⟩ := freeInsert_inv h' ep
  obtain ⟨m₂, B, e₂, h₂, hm⟩ := mergeNext_inv h₁
  have e : packetmemFree m p = some m₂ := by
    rw [getLast?_nil] at e₁
    simp only [packetmemFree, ep, ew, e₁, Option.bind_some, mergeItems, h₁.chain.1]
    exact e₂
  refine ⟨m₂, _, e, h₂, ?_⟩
  simp only [hr₁] at hm
  rcases hm with ⟨rfl, rfl, hne⟩ | ⟨n, rfl, he, hrp, hr⟩
  · -- the region is the first of the list
    have hfirst : 0 < (m.region p).len := by
      rcases hpos with hpos | ⟨q, hq, heq⟩
      · exact hpos
      · have := hne q hq
        simp only [stop] at this
        omega
    have hsize : size ≠ 0 := by
      have := h'.owns.bound p (by simp)
      simp only [stop] at this
      omega
    have hlt : ∀ q ∈ B, (m.region p).stop < (m.region q).base := by
      cases B with
      | nil => simp
      | cons q B =>
        have howns : Owns size m (p :: q :: (B ++ H.erase p)) := h'.owns.perm perm_middle
        have hq := howns.stop_lt (hbase q (by simp)) ((hs.pos q (by simp)).resolve_right hsize) (hne q rfl)
        intro q' hq'
        rcases mem_cons.mp hq' with rfl | hq'
        · exact hq
        · have := (pairwise_cons.mp hs.separated).1 q' hq'
          simp only [stop] at this hq ⊢
          omega
    refine ⟨pairwise_cons.mpr ⟨fun q hq => ?_, hs.separated.imp fun {a b} hab => ?_⟩, fun q hq => ?_⟩
    · rw [hr₁, hr₁]
      exact hlt q hq
    · rw [hr₁, hr₁]
      exact hab
    · rw [hr₁]
      rcases mem_cons.mp hq with rfl | hq
      · exact .inl hfirst
      · exact hs.pos q hq
  · -- the region is joined with the first of the list
    have hnd := h₁.owns.nodup
    simp only [nil_append, cons_append, nodup_cons, mem_cons, mem_append, not_or] at hnd
    have hrB : ∀ q ∈ B, m₂.region q = m.region q := fun q hq =>
      hr q (fun e => hnd.1.2.1 (e ▸ hq)) fun e => hnd.2.1.1 (e ▸ hq)
    obtain ⟨hn, hB⟩ := pairwise_cons.mp hs.separated
    refine ⟨pairwise_cons.mpr ⟨fun q hq => ?_, hB.imp_of_mem fun {a b} ha hb hab => ?_⟩, fun q hq => ?_⟩
    · have := hn q hq
      rw [hrp, hrB q hq]
      simp only [stop] at he this ⊢
      omega
    · rwa [hrB a ha, hrB b hb]
    · rcases mem_cons.mp hq with rfl | hq
      · rw [hrp]
        have := hs.pos n (by simp)
        dsimp only
        omega
      · rw [hrB q hq]
        exact hs.pos q (mem_cons_of_mem _ hq)

theorem packetmemAlloc_found (h : PmInv size m F H) (hs : PmSorted size m F) {b : Nat} (hlen : 0 < length)
    (hfree : ∀ a, b ≤ a → a < b + length → a < size ∧ ∀ p ∈ H, (m.region p).has a = false) (n : Nat) :
    ∃ m' r, packetmemAlloc m length (some n) = some (m', some r) := by
  have hsep : Separated (F.map m.region) := pairwise_map.mpr hs.separated
  obtain ⟨r, hr, hb, hstop⟩ := hsep.range hlen fun a ha hab => by
    obtain ⟨hsize, hnot⟩ := hfree a ha hab
    obtain ⟨r, hr, hra⟩ := (h.owns.tiles.union a).mp hsize
    obtain ⟨q, hq, rfl⟩ := mem_map.mp hr
    rcases mem_append.mp hq with hq | hq
    · exact ⟨_, mem_map_of_mem hq, hra⟩
    · rw [hnot q hq] at hra
      cases hra
  obtain ⟨q, hq, rfl⟩ := mem_map.mp hr
  rcases packetmemAlloc_cases h length (some n) with
    ⟨-, hall | hnone⟩ | ⟨A, p, B, m', -, e, -⟩ | ⟨p, -, n', hd, -, -, -, e⟩
  · have := hall q hq
    simp only [stop] at hstop
    omega
  · cases hnone
  · exact ⟨_, _, e⟩
  · exact ⟨_, _, e⟩

end Sorted

theorem pmStep_sorted {size : Nat} {s : PmState} {op : PmOp} {F : List Nat} (h : PmInv size s.m F s.held)
    (hs : PmSorted size s.m F) (hok : pmOk s op) (hlow : pmLowest s op) :
    ∃ s' F', pmStep s op = some s' ∧ PmInv size s'.m F' s'.held ∧ PmSorted size s'.m F' := by
  cases op with
  | alloc length block =>
    obtain ⟨m', r, F', e, h', hs'⟩ := packetmemAlloc_inv length h hok
    cases r with
    | none => exact ⟨⟨m', s.held⟩, F', by rw [pmStep, e]; rfl, h', hs' hs⟩
    | some r => exact ⟨⟨m', r.1 :: s.held⟩, F', by rw [pmStep, e]; rfl, h', hs' hs⟩
  | free p =>
    obtain ⟨m', F', e, h', hs'⟩ := packetmemFree_sorted h hs hok hlow
    exact ⟨⟨m', s.held.erase p⟩, F', by rw [pmStep, e]; rfl, h', hs'⟩

theorem packetmemInit_sorted (dmaMemSize p : Nat) : PmSorted dmaMemSize (packetmemInit dmaMemSize p) [p] := by
  refine ⟨pairwise_singleton _ p, fun q hq => ?_⟩
  have e : (packetmemInit dmaMemSize p).region p = ⟨0, dmaMemSize⟩ := by
    simp [packetmemInit, Packetmem.region]
  rw [mem_singleton.mp hq, e]
  exact (Nat.eq_zero_or_pos dmaMemSize).symm

/-- As long as regions are freed only below the free ones, the free regions are in order
with gaps between them, a range that is not allocated can be, and the free region is
the whole memory once all handles are freed. -/
theorem packetmem_coalesced {dmaMemSize block : Nat} {ops : List PmOp}
    (hok : Run.All pmStep (fun s op => pmOk s op ∧ pmLowest s op) (pmInit dmaMemSize block) ops) :
    ∃ s F, Run.exec pmStep (pmInit dmaMemSize block) ops = some s ∧ s.m.free = some F ∧
      Separated (F.map s.m.region) ∧
      (∀ length b n, 0 < length →
        (∀ a, b ≤ a → a < b + length → a < dmaMemSize ∧ ∀ p ∈ s.held, (s.m.region p).has a = false) →
        ∃ m' r, packetmemAlloc s.m length (some n) = some (m', some r)) ∧
      (s.held = [] → F.map s.m.region = [⟨0, dmaMemSize⟩]) := by
  obtain ⟨s, e, F, h, hs⟩ := Run.exec_total
    (I := fun s => ∃ F, PmInv dmaMemSize s.m F s.held ∧ PmSorted dmaMemSize s.m F) (fun s op hI hop => by
      obtain ⟨F, h, hs⟩ := hI
      obtain ⟨s', F', e, h', hs'⟩ := pmStep_sorted h hs hop.1 hop.2
      exact ⟨s', e, F', h', hs'⟩)
    ⟨_, packetmemInit_inv dmaMemSize block, packetmemInit_sorted dmaMemSize block⟩ hok
  have hsep : Separated (F.map s.m.region) := pairwise_map.mpr hs.separated
  refine ⟨s, F, e, h.free_eq, hsep, fun length b n hlen hfree => packetmemAlloc_found h hs hlen hfree n, fun hheld => ?_⟩
  have howns := h.owns
  rw [hheld, append_nil] at howns
  refine hsep.eq_single howns.tiles (by simpa using howns.nonempty) fun r hr => ?_
  obtain ⟨q, hq, rfl⟩ := mem_map.mp hr
  exact howns.bound q hq

theorem packetmem_coalesced_stack : ∃ s F,
    Run.exec pmStep (pmInit 100 0) [.alloc 10 (some 1), .alloc 20 (some 2), .free 2, .free 1] = some s ∧
      s.m.free = some F ∧ Separated (F.map s.m.region) ∧
      (∀ length b n, 0 < length →
        (∀ a, b ≤ a → a < b + length → a < 100 ∧ ∀ p ∈ s.held, (s.m.region p).has a = false) →
        ∃ m' r, packetmemAlloc s.m length (some n) = some (m', some r)) ∧
      (s.held = [] → F.map s.m.region = [⟨0, 100⟩]) :=
  packetmem_coalesced (by decide +kernel)

/-- Two regions are freed in the order of their addresses: the second is put before the
first, and nothing is joined. -/
theorem packetmem_unsorted : ¬ ∀ (dmaMemSize block : Nat) (ops : List PmOp),
    Run.All pmStep pmOk (pmInit dmaMemSize block) ops → ∀ s, Run.exec pmStep (pmInit dmaMemSize block) ops = some s →
      ∃ F, s.m.free = some F ∧ Separated (F.map s.m.region) ∧
        (∀ length b n, 0 < length →
          (∀ a, b ≤ a → a < b + length → a < dmaMemSize ∧ ∀ p ∈ s.held, (s.m.region p).has a = false) →
          ∃ m' r, packetmemAlloc s.m length (some n) = some (m', some r)) ∧
        (s.held = [] → F.map s.m.region = [⟨0, dmaMemSize⟩]) := by
  intro h
  have hbad : (Run.exec pmStep (pmInit 100 0) [.alloc 10 (some 1), .alloc 10 (some 2), .free 1, .free 2]).all
      (fun s => decide (s.m.free.any (fun F => decide (Separated (F.map s.m.region))) = true)) = false := by
    decide +kernel
  refine Run.not_forall_exec hbad fun s hs => ?_
  obtain ⟨F, hF, hsep, -⟩ := h 100 0 _ (by decide +kernel) s hs
  simp only [hF, Option.any_some, decide_eq_true_eq]
  exact hsep

end TasNic
