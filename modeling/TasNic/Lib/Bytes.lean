import Mathlib.Algebra.Order.Ring.Int
import Mathlib.Data.List.GetD

/-!
# Bytes in memory

Numbers in big-endian order (`be`), records of them written one after the other
(`fields_store_encode`: every field is read back), and programs that read a memory byte by
byte (`ByteProg`). What such a program returns depends on the bytes it reads alone
(`ByteProg.run_congr`), so that it can be moved to any memory that agrees on them.
-/

namespace Bytes

/-! ## Writing and reading numbers -/

/-- The bytes `l`, written at `i`. -/
def store (m : Nat → BitVec 8) (i : Nat) (l : List (BitVec 8)) : Nat → BitVec 8 :=
  fun j => if i ≤ j ∧ j < i + l.length then l.getD (j - i) 0 else m j

/-- The number in the `n` bytes at `i`. -/
def be (m : Nat → BitVec 8) (i : Nat) : Nat → Nat
  | 0 => 0
  | n + 1 => be m i n * 256 + (m (i + n)).toNat

/-- The `n` bytes of a number. -/
def toBe : Nat → Nat → List (BitVec 8)
  | 0, _ => []
  | n + 1, v => toBe n (v / 256) ++ [BitVec.ofNat 8 v]

variable {m m' : Nat → BitVec 8} {i j n : Nat} {l : List (BitVec 8)}

theorem store_of_lt (h : j < i) : store m i l j = m j := if_neg (by omega)

theorem store_of_ge (h : i + l.length ≤ j) : store m i l j = m j := if_neg (by omega)

theorem store_add (h : j < l.length) : store m i l (i + j) = l.getD j 0 := by
  rw [store, if_pos (by omega), Nat.add_sub_cancel_left]

theorem store_append (m : Nat → BitVec 8) (i : Nat) (l l' : List (BitVec 8)) :
    store m i (l ++ l') = store (store m i l) (i + l.length) l' := by
  funext j
  simp only [store, List.length_append]
  by_cases hj : i ≤ j ∧ j < i + l.length
  · rw [if_pos (by omega), if_neg (by omega), if_pos hj, List.getD_append _ _ _ _ (by omega)]
  · by_cases hj' : i + l.length ≤ j ∧ j < i + l.length + l'.length
    · rw [if_pos (by omega), if_pos hj', List.getD_append_right _ _ _ _ (by omega), Nat.sub_add_eq]
    · rw [if_neg (by omega), if_neg hj', if_neg hj]

@[simp] theorem length_toBe (n v : Nat) : (toBe n v).length = n := by
  induction n generalizing v with
  | zero => rfl
  | succ n ih => rw [toBe, List.length_append, ih, List.length_singleton]

theorem be_congr (h : ∀ k < n, m (i + k) = m' (i + k)) : be m i n = be m' i n := by
  induction n with
  | zero => rfl
  | succ n ih => rw [be, be, ih fun k hk => h k (by omega), h n (by omega)]

theorem be_lt (m : Nat → BitVec 8) (i n : Nat) : be m i n < 256 ^ n := by
  induction n with
  | zero => exact Nat.one_pos
  | succ n ih =>
    rw [be, Nat.pow_succ]
    omega

theorem be_store_of_disjoint (h : i + l.length ≤ j ∨ j + n ≤ i) : be (store m i l) j n = be m j n := by
  refine be_congr fun k hk => ?_
  rcases h with h | h
  · exact store_of_ge (by omega)
  · exact store_of_lt (by omega)

theorem be_store_toBe (m : Nat → BitVec 8) (i n v : Nat) : be (store m i (toBe n v)) i n = v % 256 ^ n := by
  induction n generalizing v with
  | zero => simp [be, Nat.mod_one]
  | succ n ih =>
    have hlast : store m i (toBe (n + 1) v) (i + n) = BitVec.ofNat 8 v := by
      rw [store_add (by simp), toBe, List.getD_append_right _ _ _ _ (by simp), length_toBe, Nat.sub_self]
      rfl
    have hfirst : be (store m i (toBe (n + 1) v)) i n = be (store m i (toBe n (v / 256))) i n := by
      rw [toBe, store_append]
      exact be_store_of_disjoint (.inr (by simp))
    have hpow : 256 ^ (n + 1) = 256 * 256 ^ n := Nat.pow_succ'
    rw [be, hfirst, ih, hlast, BitVec.toNat_ofNat, hpow, Nat.mod_mul]
    omega

/-! ## Records -/

/-- Fields, each with its number of bytes and its value, one after the other. -/
def encode : List (Nat × Nat) → List (BitVec 8)
  | [] => []
  | (n, v) :: fs => toBe n v ++ encode fs

/-- The values of fields of these sizes, from `i` on. -/
def fields (m : Nat → BitVec 8) : Nat → List Nat → List Nat
  | _, [] => []
  | i, n :: ns => be m i n :: fields m (i + n) ns

theorem length_encode (fs : List (Nat × Nat)) : (encode fs).length = (fs.map (·.1)).sum := by
  induction fs with
  | nil => rfl
  | cons f fs ih => rw [encode, List.length_append, length_toBe, ih, List.map_cons, List.sum_cons]

/-- Every field of a record is read back. -/
theorem fields_store_encode (m : Nat → BitVec 8) (i : Nat) (fs : List (Nat × Nat)) :
    fields (store m i (encode fs)) i (fs.map (·.1)) = fs.map fun f => f.2 % 256 ^ f.1 := by
  induction fs generalizing m i with
  | nil => rfl
  | cons f fs ih =>
    obtain ⟨n, v⟩ := f
    rw [encode, store_append, length_toBe, List.map_cons, fields, List.map_cons, ih,
      be_store_of_disjoint (.inr (Nat.le_refl _)), be_store_toBe]

end Bytes

/-! ## Programs that read bytes -/

/-- A program that reads single bytes of a memory. -/
inductive ByteProg (α : Type) where
  | ret (a : α)
  | read (i : Nat) (k : BitVec 8 → ByteProg α)

namespace ByteProg

variable {α β : Type} {m m' : Nat → BitVec 8}

def run (m : Nat → BitVec 8) : ByteProg α → α
  | ret a => a
  | read i k => (k (m i)).run m

def reads (m : Nat → BitVec 8) : ByteProg α → List Nat
  | ret _ => []
  | read i k => i :: (k (m i)).reads m

def bind : ByteProg α → (α → ByteProg β) → ByteProg β
  | ret a, f => f a
  | read i k, f => read i fun b => (k b).bind f

@[simp] theorem run_ret (m : Nat → BitVec 8) (a : α) : (ret a).run m = a := rfl

@[simp] theorem reads_ret (m : Nat → BitVec 8) (a : α) : (ret a : ByteProg α).reads m = [] := rfl

@[simp] theorem run_bind (p : ByteProg α) (f : α → ByteProg β) : (p.bind f).run m = (f (p.run m)).run m := by
  induction p with
  | ret a => rfl
  | read i k ih => exact ih (m i)

@[simp] theorem reads_bind (p : ByteProg α) (f : α → ByteProg β) :
    (p.bind f).reads m = p.reads m ++ (f (p.run m)).reads m := by
  induction p with
  | ret a => rfl
  | read i k ih => rw [bind, reads, reads, run, ih, List.cons_append]

theorem run_congr {p : ByteProg α} (h : ∀ i ∈ p.reads m, m' i = m i) : p.run m' = p.run m ∧ p.reads m' = p.reads m := by
  induction p with
  | ret a => exact ⟨rfl, rfl⟩
  | read i k ih =>
    have hi := h i List.mem_cons_self
    obtain ⟨h₁, h₂⟩ := ih (m i) fun j hj => h j (List.mem_cons_of_mem _ hj)
    rw [run, run, reads, reads, hi]
    exact ⟨h₁, by rw [h₂]⟩

def byte (i : Nat) : ByteProg (BitVec 8) := read i ret

/-- A number of `n` bytes. -/
def be (i : Nat) : Nat → ByteProg Nat
  | 0 => ret 0
  | n + 1 => (be i n).bind fun v => (byte (i + n)).bind fun b => ret (v * 256 + b.toNat)

theorem run_byte_bind (i : Nat) (f : BitVec 8 → ByteProg α) : ((byte i).bind f).run m = (f (m i)).run m := rfl

theorem reads_byte_bind (i : Nat) (f : BitVec 8 → ByteProg α) : ((byte i).bind f).reads m = i :: (f (m i)).reads m := rfl

@[simp] theorem run_be (i n : Nat) : (be i n).run m = Bytes.be m i n := by
  induction n with
  | zero => rfl
  | succ n ih => rw [be, run_bind, ih, run_byte_bind, run_ret, Bytes.be]

theorem mem_reads_be {i j n : Nat} : j ∈ (be i n).reads m ↔ i ≤ j ∧ j < i + n := by
  induction n with
  | zero =>
    rw [be, reads_ret]
    exact ⟨fun h => absurd h List.not_mem_nil, fun h => by omega⟩
  | succ n ih =>
    rw [be, reads_bind, List.mem_append, reads_byte_bind, reads_ret, List.mem_singleton, ih]
    omega

end ByteProg
