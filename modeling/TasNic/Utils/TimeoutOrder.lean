import Mathlib.Data.List.Induction
import TasNic.Utils.Timeout

/-!
# Timeouts are passed in the order in which they expire

`Lists` says what the links of the two lists are, and each operation and each loop on them has one lemma. The
time of a timeout is a 28-bit word; `Armed.expiry` is that time without wrapping, and the distance from the
current time is that of the two words as long as it is less than half their range. Only the low four bits of a
type survive.
-/

namespace TasNic

open Function IdxList List TimeoutState TimeoutManager

/-! ## The two lists -/

namespace TimeoutManager

section

variable (m : TimeoutManager) (p : Nat) (o : Option Nat)

-- the ends of the lists do not matter for the links
@[simp] theorem next_mk (f l df dl : Option Nat) : next ⟨m.timeouts, f, l, df, dl⟩ = m.next := rfl
@[simp] theorem prev_mk (f l df dl : Option Nat) : prev ⟨m.timeouts, f, l, df, dl⟩ = m.prev := rfl

@[simp] theorem next_update_mk (t : Timeout) (f l df dl : Option Nat) :
    next ⟨update m.timeouts p t, f, l, df, dl⟩ = update m.next p t.next := by
  funext c
  by_cases h : c = p <;> simp [next, update, h]

@[simp] theorem prev_update_mk (t : Timeout) (f l df dl : Option Nat) :
    prev ⟨update m.timeouts p t, f, l, df, dl⟩ = update m.prev p t.prev := by
  funext c
  by_cases h : c = p <;> simp [prev, update, h]

@[simp] theorem setNext_next : (m.setNext p o).next = update m.next p o := next_update_mk ..

@[simp] theorem setNext_prev : (m.setNext p o).prev = m.prev := (prev_update_mk ..).trans (update_eq_self ..)

@[simp] theorem setPrev_next : (m.setPrev p o).next = m.next := (next_update_mk ..).trans (update_eq_self ..)

@[simp] theorem setPrev_prev : (m.setPrev p o).prev = update m.prev p o := prev_update_mk ..

@[simp] theorem setNext_type (c : Nat) : ((m.setNext p o).timeouts c).timeoutType = (m.timeouts c).timeoutType := by
  by_cases h : c = p <;> simp [setNext, update, h]

@[simp] theorem setPrev_type (c : Nat) : ((m.setPrev p o).timeouts c).timeoutType = (m.timeouts c).timeoutType := by
  by_cases h : c = p <;> simp [setPrev, update, h]

@[simp] theorem setNext_first : (m.setNext p o).timeoutsFirst = m.timeoutsFirst := rfl
@[simp] theorem setNext_last : (m.setNext p o).timeoutsLast = m.timeoutsLast := rfl
@[simp] theorem setNext_dueFirst : (m.setNext p o).dueFirst = m.dueFirst := rfl
@[simp] theorem setNext_dueLast : (m.setNext p o).dueLast = m.dueLast := rfl
@[simp] theorem setPrev_first : (m.setPrev p o).timeoutsFirst = m.timeoutsFirst := rfl
@[simp] theorem setPrev_last : (m.setPrev p o).timeoutsLast = m.timeoutsLast := rfl
@[simp] theorem setPrev_dueFirst : (m.setPrev p o).dueFirst = m.dueFirst := rfl
@[simp] theorem setPrev_dueLast : (m.setPrev p o).dueLast = m.dueLast := rfl

end

/-- The timeouts that are due are those of `D`, and those that wait are those of `W`. -/
structure Lists (m : TimeoutManager) (D W : List Nat) : Prop where
  due : DList m.next m.prev m.dueFirst m.dueLast D
  waiting : DList m.next m.prev m.timeoutsFirst m.timeoutsLast W
  apart : List.Disjoint D W

variable {m : TimeoutManager} {D W D₁ D₂ W₁ W₂ : List Nat} {a : Nat}

theorem moveDue_next (m : TimeoutManager) (a : Nat) : (m.moveDue a).next = match m.dueLast with
    | none => update m.next a none
    | some q => update (update m.next a none) q (some a) := by
  cases hn : m.next a <;> cases hd : m.dueLast <;> simp [moveDue, hn, hd]

theorem moveDue_prev (m : TimeoutManager) (a : Nat) : (m.moveDue a).prev = update (match m.next a with
    | none => m.prev
    | some q => update m.prev q none) a m.dueLast := by
  cases hn : m.next a <;> cases hd : m.dueLast <;> simp [moveDue, hn, hd]

theorem moveDue_ends (m : TimeoutManager) (a : Nat) :
    (m.moveDue a).dueFirst = (match m.dueLast with | none => some a | some _ => m.dueFirst) ∧
    (m.moveDue a).dueLast = some a ∧ (m.moveDue a).timeoutsFirst = m.next a ∧
    (m.moveDue a).timeoutsLast = match m.next a with | none => none | some _ => m.timeoutsLast := by
  cases hn : m.next a <;> cases hd : m.dueLast <;> simp [moveDue, hn, hd]

theorem moveDue_type (m : TimeoutManager) (a c : Nat) :
    ((m.moveDue a).timeouts c).timeoutType = (m.timeouts c).timeoutType := by
  cases hn : m.next a <;> cases hd : m.dueLast <;> simp [moveDue, hn, hd]

theorem moveDue_lists (h : Lists m D (a :: W)) : Lists (m.moveDue a) (D ++ [a]) W := by
  have haD : a ∉ D := fun hD => h.apart hD (mem_cons_self ..)
  have haW : a ∉ W := (nodup_cons.mp h.waiting.nodup).1
  have hapart : List.Disjoint D W := disjoint_of_disjoint_cons_right h.apart
  have hnext : m.next a = W.head? := h.waiting.head_next
  have hprev : m.prev a = none := h.waiting.head_prev
  have hW := h.waiting.remove_head
  obtain ⟨hdf, hdl, hf, hl⟩ := moveDue_ends m a
  rw [hprev, ← hnext] at hW
  have hD : DList m.next (match m.next a with | none => m.prev | some q => update m.prev q none)
      m.dueFirst m.dueLast D := by
    rw [hnext]
    cases hq : W.head? with
    | none => exact h.due
    | some q => exact h.due.update_prev fun hD => hapart hD (mem_of_head? hq)
  constructor
  · refine DList.insert (show DList _ _ _ _ (D ++ []) by rwa [append_nil]) (by rwa [append_nil]) ?_ ?_ ?_ hdl
    · rw [moveDue_next, h.due.last_eq]
      rfl
    · rewrite [hdf, h.due.last_eq]
      rfl
    · rewrite [moveDue_prev, h.due.last_eq]
      rfl
  · rw [moveDue_next, moveDue_prev, hf, hl, h.due.last_eq]
    refine DList.update_prev ?_ haW
    cases hq : D.getLast? with
    | none => exact hW.update_next haW
    | some q => exact (hW.update_next haW).update_next (hapart (mem_of_getLast? hq))
  · exact disjoint_append_left.mpr ⟨hapart, singleton_disjoint.mpr haW⟩

theorem armInsert_next (m : TimeoutManager) (a : Nat) (ty : BitVec 32) (tp tn : Option Nat) :
    (m.armInsert a ty tp tn).next = match tp with
      | none => update m.next a tn
      | some q => update (update m.next a tn) q (some a) := by
  cases tp <;> cases tn <;> simp [armInsert]

theorem armInsert_prev (m : TimeoutManager) (a : Nat) (ty : BitVec 32) (tp tn : Option Nat) :
    (m.armInsert a ty tp tn).prev = match tn with
      | none => update m.prev a tp
      | some q => update (update m.prev a tp) q (some a) := by
  cases tp <;> cases tn <;> simp [armInsert]

theorem armInsert_ends (m : TimeoutManager) (a : Nat) (ty : BitVec 32) (tp tn : Option Nat) :
    (m.armInsert a ty tp tn).timeoutsFirst = (match tp with | none => some a | some _ => m.timeoutsFirst) ∧
    (m.armInsert a ty tp tn).timeoutsLast = (match tn with | none => some a | some _ => m.timeoutsLast) ∧
    (m.armInsert a ty tp tn).dueFirst = m.dueFirst ∧ (m.armInsert a ty tp tn).dueLast = m.dueLast := by
  cases tp <;> cases tn <;> simp [armInsert]

theorem armInsert_type (m : TimeoutManager) (a c : Nat) (ty : BitVec 32) (tp tn : Option Nat) :
    ((m.armInsert a ty tp tn).timeouts c).timeoutType = if c = a then ty else (m.timeouts c).timeoutType := by
  by_cases h : c = a <;> cases tp <;> cases tn <;> simp [armInsert, update, h]

theorem armInsert_lists (h : Lists m D (W₁ ++ W₂)) (haD : a ∉ D) (haW : a ∉ W₁ ++ W₂) (ty : BitVec 32) :
    Lists (m.armInsert a ty W₁.getLast? W₂.head?) D (W₁ ++ a :: W₂) := by
  obtain ⟨hf, hl, hdf, hdl⟩ := armInsert_ends m a ty W₁.getLast? W₂.head?
  obtain ⟨hW₁, hW₂⟩ := disjoint_append_right.mp h.apart
  constructor
  · rw [armInsert_next, armInsert_prev, hdf, hdl]
    exact h.due.insert_frame haD _ _ h.apart
  · exact h.waiting.insert haW (armInsert_next ..) hf (armInsert_prev ..) hl
  · exact disjoint_append_right.mpr ⟨hW₁, disjoint_cons_right.mpr ⟨haD, hW₂⟩⟩

theorem Lists.next_or_first (h : Lists m D (W₁ ++ W₂)) :
    (match W₁.getLast? with | some tp => m.next tp | none => m.timeoutsFirst) = W₂.head? := by
  cases hq : W₁.getLast? with
  | none =>
    rw [getLast?_eq_none_iff] at hq
    rw [hq] at h
    exact h.waiting.first_eq
  | some q =>
    obtain ⟨l, rfl⟩ := getLast?_eq_some_iff.mp hq
    rw [append_assoc] at h
    exact h.waiting.next_eq

theorem pollPop_type (m : TimeoutManager) (a c : Nat) :
    ((m.pollPop a).timeouts c).timeoutType = (m.timeouts c).timeoutType := by
  cases hn : m.next a <;> simp [pollPop, hn]

theorem pollPop_lists (h : Lists m (a :: D) W) : Lists (m.pollPop a) D W := by
  have hprev : m.prev a = none := h.due.head_prev
  have hnext : m.next a = D.head? := h.due.head_next
  have hD := h.due.remove_head
  rw [hprev, hnext] at hD
  have hapart : List.Disjoint D W := disjoint_of_disjoint_cons_left h.apart
  cases hq : D.head? with
  | none =>
    rw [hq] at hD hnext
    refine ⟨?_, ?_, hapart⟩ <;> simp only [pollPop, hnext, next_mk, prev_mk]
    · exact hD
    · exact h.waiting
  | some q =>
    rw [hq] at hD hnext
    refine ⟨?_, ?_, hapart⟩ <;> simp only [pollPop, hnext, setPrev_next, setPrev_prev, next_mk, prev_mk]
    · exact hD
    · exact h.waiting.update_prev (hapart (mem_of_head? hq))

theorem disarm_waiting_links (hf : m.prev a = none → m.timeoutsFirst = some a)
    (hl : m.next a = none → m.timeoutsLast = some a) : ∃ m', m.utilTimeoutDisarm a = some m' ∧
    m'.next = (match m.prev a with | none => m.next | some q => update m.next q (m.next a)) ∧
    m'.timeoutsFirst = (match m.prev a with | none => m.next a | some _ => m.timeoutsFirst) ∧
    m'.prev = (match m.next a with | none => m.prev | some q => update m.prev q (m.prev a)) ∧
    m'.timeoutsLast = (match m.next a with | none => m.prev a | some _ => m.timeoutsLast) ∧
    m'.dueFirst = m.dueFirst ∧ m'.dueLast = m.dueLast ∧
    ∀ c, (m'.timeouts c).timeoutType = (m.timeouts c).timeoutType := by
  cases hp : m.prev a <;> cases hn : m.next a <;> simp [utilTimeoutDisarm, hp, hn, hf, hl]

theorem disarm_due_links (hf : m.timeoutsFirst ≠ some a) (hl : m.timeoutsLast ≠ some a)
    (hdf : m.prev a = none → m.dueFirst = some a) (hdl : m.next a = none → m.dueLast = some a) :
    ∃ m', m.utilTimeoutDisarm a = some m' ∧
    m'.next = (match m.prev a with | none => m.next | some q => update m.next q (m.next a)) ∧
    m'.dueFirst = (match m.prev a with | none => m.next a | some _ => m.dueFirst) ∧
    m'.prev = (match m.next a with | none => m.prev | some q => update m.prev q (m.prev a)) ∧
    m'.dueLast = (match m.next a with | none => m.prev a | some _ => m.dueLast) ∧
    m'.timeoutsFirst = m.timeoutsFirst ∧ m'.timeoutsLast = m.timeoutsLast ∧
    ∀ c, (m'.timeouts c).timeoutType = (m.timeouts c).timeoutType := by
  cases hp : m.prev a <;> cases hn : m.next a <;> simp [utilTimeoutDisarm, hp, hn, hf, hl, hdf, hdl]

theorem disarm_waiting (h : Lists m D (W₁ ++ a :: W₂)) : ∃ m', m.utilTimeoutDisarm a = some m' ∧
    Lists m' D (W₁ ++ W₂) ∧ ∀ c, (m'.timeouts c).timeoutType = (m.timeouts c).timeoutType := by
  obtain ⟨h₁, h₂⟩ := disjoint_append_right.mp h.apart
  have hp := h.waiting.prev_eq
  have hn := h.waiting.next_eq
  obtain ⟨m', hm', hnext, hfirst, hprev, hlast, hdf, hdl, htype⟩ := disarm_waiting_links h.waiting.first_of_prev
    h.waiting.last_of_next
  rw [hp] at hnext hfirst
  rw [hn] at hprev hlast
  refine ⟨m', hm', ⟨?_, h.waiting.remove hnext hfirst hprev hlast, ?_⟩, htype⟩
  · rw [hnext, hprev, hdf, hdl]
    exact h.due.remove_frame h.apart
  · exact disjoint_append_right.mpr ⟨h₁, disjoint_of_disjoint_cons_right h₂⟩

theorem disarm_due (h : Lists m (D₁ ++ a :: D₂) W) : ∃ m', m.utilTimeoutDisarm a = some m' ∧
    Lists m' (D₁ ++ D₂) W ∧ ∀ c, (m'.timeouts c).timeoutType = (m.timeouts c).timeoutType := by
  obtain ⟨h₁, h₂⟩ := disjoint_append_left.mp h.apart
  have haW : a ∉ W := (disjoint_cons_left.mp h₂).1
  have hf : m.timeoutsFirst ≠ some a := fun e => haW (mem_of_head? (h.waiting.first_eq.symm.trans e))
  have hl : m.timeoutsLast ≠ some a := fun e => haW (mem_of_getLast? (h.waiting.last_eq.symm.trans e))
  have hp := h.due.prev_eq
  have hn := h.due.next_eq
  obtain ⟨m', hm', hnext, hfirst, hprev, hlast, hwf, hwl, htype⟩ := disarm_due_links hf hl h.due.first_of_prev
    h.due.last_of_next
  rw [hp] at hnext hfirst
  rw [hn] at hprev hlast
  refine ⟨m', hm', ⟨h.due.remove hnext hfirst hprev hlast, ?_, ?_⟩, htype⟩
  · rw [hnext, hprev, hwf, hwl]
    exact h.waiting.remove_frame fun _ hW hD => h.apart hD hW
  · exact disjoint_append_left.mpr ⟨h₁, disjoint_of_disjoint_cons_left h₂⟩

/-! ## The loops -/

variable {t turns : Nat} {c us : BitVec 32}

theorem relTime_congr {m' : TimeoutManager} (h : (m'.timeouts t).timeoutType = (m.timeouts t).timeoutType) (c : BitVec 32) :
    m'.relTime c t = m.relTime c t := by rw [relTime, relTime, h]

theorem timeoutDue_congr {m' : TimeoutManager} (h : (m'.timeouts t).timeoutType = (m.timeouts t).timeoutType)
    (c : BitVec 32) : m'.timeoutDue t c = m.timeoutDue t c := by rw [timeoutDue, timeoutDue, relTime_congr h]

theorem moveDueTimeouts_lists (h : Lists m D W) (hturns : W.length < turns) : ∃ m' W₁ W₂,
    moveDueTimeouts c turns m = some m' ∧ W = W₁ ++ W₂ ∧ Lists m' (D ++ W₁) W₂ ∧
      (∀ t, (m'.timeouts t).timeoutType = (m.timeouts t).timeoutType) ∧ (∀ t ∈ W₁, m.timeoutDue t c = true) ∧
      ∀ t ∈ W₂.head?, m.timeoutDue t c = false := by
  induction W generalizing m D turns with
  | nil =>
    obtain _ | turns := turns
    · omega
    have hf : m.timeoutsFirst = none := h.waiting.first_eq
    refine ⟨m, [], [], ?_, rfl, by rwa [append_nil], fun _ => rfl, by simp, by simp⟩
    rw [moveDueTimeouts, hf]
  | cons a W ih =>
    obtain _ | turns := turns
    · omega
    have hf : m.timeoutsFirst = some a := h.waiting.first_eq
    rw [moveDueTimeouts, hf]
    dsimp only
    cases hdue : m.timeoutDue a c with
    | true =>
      obtain ⟨m', W₁, W₂, hm', rfl, hl, htype, hW₁, hW₂⟩ := ih (moveDue_lists h) (by simpa using hturns)
      simp only [timeoutDue_congr (moveDue_type m a _)] at hW₁ hW₂
      refine ⟨m', a :: W₁, W₂, hm', rfl, by simpa using hl, fun t => (htype t).trans (moveDue_type ..), ?_, hW₂⟩
      exact forall_mem_cons.mpr ⟨hdue, hW₁⟩
    | false =>
      refine ⟨m, [], a :: W, rfl, rfl, by rwa [append_nil], fun _ => rfl, by simp, ?_⟩
      rintro t ⟨⟩
      exact hdue

/-- The loop of `util_timeout_arm_ts` ends at the last timeout that is not later. -/
theorem armPred_lists {V U : List Nat} (c us : BitVec 32) (h : Lists m D (V ++ U)) (hturns : V.length < turns) :
    ∃ V₁ V₂, armPred m c us turns V.getLast? = some V₁.getLast? ∧ V = V₁ ++ V₂ ∧
      (∀ t ∈ V₁.getLast?, ¬ us < m.relTime c t) ∧ ∀ t ∈ V₂, us < m.relTime c t := by
  induction V using reverseRecOn generalizing U turns with
  | nil =>
    obtain _ | turns := turns
    · omega
    exact ⟨[], [], rfl, rfl, by simp, by simp⟩
  | append_singleton V a ih =>
    obtain _ | turns := turns
    · omega
    rw [getLast?_concat, armPred]
    by_cases hus : us < m.relTime c a
    · rw [if_pos hus]
      rw [append_assoc] at h
      obtain ⟨V₁, V₂, hp, rfl, hV₁, hV₂⟩ := ih h (by simp at hturns; omega)
      refine ⟨V₁, V₂ ++ [a], ?_, by simp, hV₁, ?_⟩
      · rewrite [← hp, ← h.waiting.prev_eq]
        rfl
      · exact forall_mem_append.mpr ⟨hV₂, forall_mem_singleton.mpr hus⟩
    · rw [if_neg hus]
      refine ⟨V ++ [a], [], by simp, by simp, ?_, by simp⟩
      rw [getLast?_concat]
      rintro t ⟨⟩
      exact hus

/-- What `util_timeout_arm_ts` stores. -/
def armWord (type : BitVec 8) (us ts : BitVec 32) : BitVec 32 :=
  (type.setWidth 32) <<< timeoutBits ||| (((ts &&& timeoutMask) + us) &&& timeoutMask)

/-- `util_timeout_arm_ts` moves those that are due, and puts the timeout behind the last one that
is not later. -/
theorem utilTimeoutArmTs_lists {m₁ : TimeoutManager} {ts : BitVec 32}
    (hm : moveDueTimeouts (ts &&& timeoutMask) turns m = some m₁) (h : Lists m₁ D W) (hturns : W.length < turns)
    (hus : us < 0x8000000) (t : Nat) (type : BitVec 8) : ∃ V₁ V₂, m.utilTimeoutArmTs t us type ts turns =
        some (m₁.armInsert t (armWord type us ts) V₁.getLast? V₂.head?) ∧ W = V₁ ++ V₂ ∧
      (∀ x ∈ V₁.getLast?, ¬ us < m₁.relTime (ts &&& timeoutMask) x) ∧ ∀ x ∈ V₂, us < m₁.relTime (ts &&& timeoutMask) x := by
  obtain ⟨V₁, V₂, hp, rfl, hV₁, hV₂⟩ := @armPred_lists m₁ D turns W [] (ts &&& timeoutMask) us (by rwa [append_nil]) hturns
  have hrange : ¬ us ≥ 1 <<< (timeoutBits - 1) := by
    rw [show (1 <<< (timeoutBits - 1) : BitVec 32) = 0x8000000 from rfl]
    bv_omega
  refine ⟨V₁, V₂, ?_, rfl, hV₁, hV₂⟩
  rw [utilTimeoutArmTs]
  rewrite [if_neg hrange, hm, Option.bind_some, h.waiting.last_eq, hp, Option.map_some, ← h.next_or_first]
  rfl

end TimeoutManager

/-! ## Times -/

theorem toNat_and_timeoutMask (x : BitVec 32) : (x &&& timeoutMask).toNat = x.toNat % 2 ^ 28 := by
  rw [BitVec.toNat_and]
  exact Nat.and_two_pow_sub_one_eq_mod x.toNat 28

theorem timeoutRelTime_apart {c x : BitVec 32} (hc : c.toNat < 2 ^ 28) (hx : x.toNat < 2 ^ 28) :
    Serial.Apart 28 c.toNat x.toNat (timeoutRelTime c x).toInt := by
  have hmiddle : (1 <<< (timeoutBits - 1) : BitVec 32) = 134217728 := by decide
  have hrange : (1 <<< timeoutBits : BitVec 32) = 268435456 := by decide
  have hstart := toNat_and_timeoutMask (c - 134217728)
  have hstop := toNat_and_timeoutMask (c + 134217728)
  unfold timeoutRelTime Serial.Apart
  rw [hmiddle, hrange]
  dsimp only
  generalize (c - 134217728) &&& timeoutMask = start at *
  generalize (c + 134217728) &&& timeoutMask = stop at *
  -- where the middle of the range lies, seen from the current time
  have hlow : c.toNat < 2 ^ 27 → start.toNat = c.toNat + 2 ^ 27 := by bv_omega
  have hhigh : 2 ^ 27 ≤ c.toNat → stop.toNat + 2 ^ 27 = c.toNat := by bv_omega
  clear hstart hstop
  split_ifs <;> rw [BitVec.toInt_eq_toNat_cond] <;> split <;> bv_omega

/-- The type and the time of a timeout, as it stores them. -/
def Armed.word (r : Armed) : BitVec 32 :=
  (r.type.setWidth 32) <<< timeoutBits ||| (BitVec.ofNat 32 r.expiry &&& timeoutMask)

theorem Armed.toNat_word (r : Armed) : r.word.toNat = r.type.toNat % 16 * 2 ^ 28 + r.expiry % 2 ^ 28 := by
  have hshift : ((r.type.setWidth 32) <<< timeoutBits).toNat = (r.type.toNat % 16) <<< 28 := by
    rw [BitVec.toNat_shiftLeft, BitVec.toNat_setWidth, Nat.shiftLeft_eq, Nat.shiftLeft_eq, timeoutBits]
    omega
  have htime : (BitVec.ofNat 32 r.expiry &&& timeoutMask).toNat = r.expiry % 2 ^ 28 := by
    rw [toNat_and_timeoutMask, BitVec.toNat_ofNat]
    omega
  rw [Armed.word, BitVec.toNat_or, hshift, htime, ← Nat.shiftLeft_add_eq_or_of_lt (Nat.mod_lt _ (by decide)),
    Nat.shiftLeft_eq]

theorem Armed.word_time (r : Armed) : (r.word &&& timeoutMask).toNat = r.expiry % 2 ^ 28 := by
  rw [toNat_and_timeoutMask, r.toNat_word]
  omega

theorem Armed.word_type (r : Armed) : (r.word >>> timeoutBits).setWidth 8 = r.type &&& 15 := by
  apply BitVec.eq_of_toNat_eq
  have h15 : (r.type &&& 15).toNat = r.type.toNat % 16 := by
    rw [BitVec.toNat_and]
    exact Nat.and_two_pow_sub_one_eq_mod r.type.toNat 4
  rw [BitVec.toNat_setWidth, BitVec.toNat_ushiftRight, r.toNat_word, h15, Nat.shiftRight_eq_div_pow, timeoutBits]
  omega

namespace TimeoutManager

variable {m : TimeoutManager} {r : Armed} {c : BitVec 32} {now : Nat}

theorem relTime_toInt (hm : (m.timeouts r.id).timeoutType = r.word) (hc : c.toNat = now % 2 ^ 28)
    (hlt : now < r.expiry + 2 ^ 27) (hlt' : r.expiry < now + 2 ^ 27) : (m.relTime c r.id).toInt = r.expiry - now := by
  have ht := r.word_time
  obtain ⟨h₁, h₂⟩ := timeoutRelTime_apart (c := c) (x := r.word &&& timeoutMask) (by omega) (by omega)
  rw [relTime, hm]
  omega

theorem timeoutDue_iff (hm : (m.timeouts r.id).timeoutType = r.word) (hc : c.toNat = now % 2 ^ 28)
    (hlt : now < r.expiry + 2 ^ 27) (hlt' : r.expiry < now + 2 ^ 27) :
    m.timeoutDue r.id c = true ↔ r.expiry ≤ now := by
  rw [timeoutDue, BitVec.sle_iff_toInt_le, show (0 : BitVec 32).toInt = 0 from rfl, relTime_toInt hm hc hlt hlt']
  omega

/-! ## What was armed -/

/-- The lists, as what was armed, and what the timeouts store. -/
structure Holds (m : TimeoutManager) (D W : List Armed) : Prop where
  lists : m.Lists (D.map (·.id)) (W.map (·.id))
  word : ∀ r ∈ D ++ W, (m.timeouts r.id).timeoutType = r.word

variable {D W : List Armed} {turns : Nat}

theorem expiry_of_head {l : List Armed} (hsorted : l.Pairwise (·.expiry ≤ ·.expiry)) (h : ∀ r ∈ l.head?, now < r.expiry) :
    ∀ r ∈ l, now < r.expiry := by
  cases l with
  | nil => simp
  | cons r l =>
    have hr := h r rfl
    refine forall_mem_cons.mpr ⟨hr, fun x hx => ?_⟩
    exact hr.trans_le ((pairwise_cons.mp hsorted).1 x hx)

theorem expiry_of_last {l : List Armed} (hsorted : l.Pairwise (·.expiry ≤ ·.expiry)) (h : ∀ r ∈ l.getLast?, r.expiry ≤ now) :
    ∀ r ∈ l, r.expiry ≤ now := by
  cases l using reverseRecOn with
  | nil => simp
  | append_singleton l r =>
    have hr := h r (by simp)
    refine forall_mem_append.mpr ⟨fun x hx => ?_, forall_mem_singleton.mpr hr⟩
    exact ((pairwise_append.mp hsorted).2.2 x hx r (mem_singleton_self r)).trans hr

/-- `move_due_timeouts` ends, and what has expired is then due. -/
theorem moveDueTimeouts_holds (h : m.Holds D W) (hc : c.toNat = now % 2 ^ 28)
    (hnear : ∀ r ∈ W, now < r.expiry + 2 ^ 27 ∧ r.expiry < now + 2 ^ 27) (hsorted : W.Pairwise (·.expiry ≤ ·.expiry))
    (hturns : W.length < turns) : ∃ m' W₁ W₂, moveDueTimeouts c turns m = some m' ∧ W = W₁ ++ W₂ ∧
      m'.Holds (D ++ W₁) W₂ ∧ (∀ r ∈ W₁, r.expiry ≤ now) ∧ ∀ r ∈ W₂, now < r.expiry := by
  obtain ⟨m', I₁, I₂, hm', hI, hl, htype, hdue, hnot⟩ := @moveDueTimeouts_lists m _ _ turns c h.lists (by simpa using hturns)
  obtain ⟨W₁, W₂, rfl, rfl, rfl⟩ := map_eq_append_iff.mp hI
  have hiff : ∀ r ∈ W₁ ++ W₂, m.timeoutDue r.id c = true ↔ r.expiry ≤ now := fun r hr =>
    timeoutDue_iff (h.word r (mem_append_right _ hr)) hc (hnear r hr).1 (hnear r hr).2
  refine ⟨m', W₁, W₂, hm', rfl, ⟨by rwa [map_append], fun r hr => ?_⟩, fun r hr => ?_,
    expiry_of_head (pairwise_append.mp hsorted).2.1 fun r hr => ?_⟩
  · rw [htype]
    exact h.word r (by rwa [← append_assoc])
  · exact (hiff r (mem_append_left _ hr)).mp (hdue r.id (mem_map_of_mem hr))
  · have hf := hnot r.id (by rw [head?_map]; exact Option.mem_map_of_mem _ hr)
    have hiff := hiff r (mem_append_right _ (mem_of_mem_head? hr))
    rw [hf] at hiff
    exact Nat.lt_of_not_le fun hle => Bool.false_ne_true (hiff.mpr hle)

theorem armWord_eq {ts us : BitVec 32} (hts : ts.toNat % 2 ^ 28 = now % 2 ^ 28) (hr : r.expiry = now + us.toNat) :
    armWord r.type us ts = r.word := by
  rw [armWord, Armed.word]
  congr 1
  apply BitVec.eq_of_toNat_eq
  rw [toNat_and_timeoutMask, toNat_and_timeoutMask, BitVec.toNat_add, toNat_and_timeoutMask, hts, BitVec.toNat_ofNat, hr]
  omega

/-- `util_timeout_arm_ts` puts the timeout behind those that expire no later. -/
theorem utilTimeoutArmTs_holds {m₁ : TimeoutManager} {ts us : BitVec 32}
    (hm : moveDueTimeouts (ts &&& timeoutMask) turns m = some m₁) (h : m₁.Holds D W) (hts : ts.toNat % 2 ^ 28 = now % 2 ^ 28)
    (hW : ∀ x ∈ W, now < x.expiry ∧ x.expiry < now + 2 ^ 27) (hsorted : W.Pairwise (·.expiry ≤ ·.expiry))
    (hturns : W.length < turns) (hus : us.toNat < 2 ^ 27) (hr : r.expiry = now + us.toNat)
    (hid : ∀ x ∈ D ++ W, x.id ≠ r.id) : ∃ m' V₁ V₂, m.utilTimeoutArmTs r.id us r.type ts turns = some m' ∧
      W = V₁ ++ V₂ ∧ m'.Holds D (V₁ ++ r :: V₂) ∧ (∀ x ∈ V₁, x.expiry ≤ r.expiry) ∧ ∀ x ∈ V₂, r.expiry < x.expiry := by
  have hc : (ts &&& timeoutMask).toNat = now % 2 ^ 28 := by rw [toNat_and_timeoutMask, hts]
  have ht : r.id ∉ (D ++ W).map (·.id) := by
    rw [mem_map]
    rintro ⟨x, hx, hxr⟩
    exact hid x hx hxr
  have hlists := h.lists
  obtain ⟨J₁, J₂, hm', hJ, hlast, hlater⟩ := utilTimeoutArmTs_lists hm hlists (by simpa using hturns)
    (BitVec.lt_def.mpr hus) r.id r.type
  rw [hJ] at hlists
  obtain ⟨V₁, V₂, rfl, rfl, rfl⟩ := map_eq_append_iff.mp hJ
  have hrel : ∀ x ∈ V₁ ++ V₂, (m₁.relTime (ts &&& timeoutMask) x.id).toNat = x.expiry - now := fun x hx => by
    obtain ⟨hlt, hlt'⟩ := hW x hx
    have hval := relTime_toInt (h.word x (mem_append_right _ hx)) hc (by omega) hlt'
    rw [BitVec.toInt_eq_toNat_cond] at hval
    split at hval <;> omega
  rw [map_append, map_append, mem_append, not_or] at ht
  refine ⟨_, V₁, V₂, hm', rfl, ⟨?_, fun x hx => ?_⟩, ?_, ?_⟩
  · rw [map_append, map_cons]
    exact armInsert_lists hlists ht.1 ht.2 _
  · rw [armInsert_type, armWord_eq hts hr]
    have hx' : x = r ∨ x ∈ D ++ (V₁ ++ V₂) := by
      simp only [mem_append, mem_cons] at hx ⊢
      tauto
    rcases hx' with rfl | hx'
    · exact if_pos rfl
    · rw [if_neg (hid x hx')]
      exact h.word x hx'
  · refine expiry_of_last (pairwise_append.mp hsorted).1 fun x hx => ?_
    have hle := hlast x.id (by rw [getLast?_map]; exact Option.mem_map_of_mem _ hx)
    have hrel := hrel x (mem_append_left _ (mem_of_mem_getLast? hx))
    rw [BitVec.lt_def] at hle
    omega
  · intro x hx
    have hlt := hlater x.id (mem_map_of_mem hx)
    have hrel := hrel x (mem_append_right _ hx)
    rw [BitVec.lt_def] at hlt
    omega

theorem Holds.nodup (h : m.Holds D W) : ((D ++ W).map (·.id)).Nodup := by
  rw [map_append]
  exact nodup_append'.mpr ⟨h.lists.due.nodup, h.lists.waiting.nodup, h.lists.apart⟩

theorem Holds.mono {m' : TimeoutManager} {D' W' : List Armed} (h : m.Holds D W)
    (hl : m'.Lists (D'.map (·.id)) (W'.map (·.id))) (hw : ∀ c, (m'.timeouts c).timeoutType = (m.timeouts c).timeoutType)
    (hs : D' ++ W' ⊆ D ++ W) : m'.Holds D' W' :=
  ⟨hl, fun x hx => (hw x.id).trans (h.word x (hs hx))⟩

theorem filter_other {l : List Armed} (h : r.id ∉ l.map (·.id)) : l.filter (·.id ≠ r.id) = l := by
  refine filter_eq_self.mpr fun x hx => decide_eq_true fun e => h ?_
  exact e ▸ mem_map_of_mem hx

theorem filter_middle {l₁ l₂ : List Armed} (h : ((l₁ ++ r :: l₂).map (·.id)).Nodup) :
    (l₁ ++ r :: l₂).filter (·.id ≠ r.id) = l₁ ++ l₂ := by
  rw [map_append, map_cons, nodup_middle, nodup_cons, mem_append, not_or] at h
  rw [filter_append, filter_cons_of_neg (by simp), filter_other h.1.1, filter_other h.1.2]

theorem filter_self {l : List Armed} (h : (l.map (·.id)).Nodup) (hr : r ∈ l) : l.filter (·.id = r.id) = [r] := by
  obtain ⟨l₁, l₂, rfl⟩ := append_of_mem hr
  have hother : ∀ x ∈ l₁ ++ l₂, ¬ x.id = r.id := by
    rw [map_append, map_cons, nodup_middle, ← map_append] at h
    exact fun x hx e => (nodup_cons.mp h).1 (e ▸ mem_map_of_mem hx)
  have hnil : ∀ l ⊆ l₁ ++ l₂, l.filter (·.id = r.id) = [] := fun l hl =>
    filter_eq_nil_iff.mpr fun x hx => by simpa using hother x (hl hx)
  rw [filter_append, filter_cons_of_pos (by simp), hnil l₁ (by simp), hnil l₂ (by simp)]
  rfl

/-- `util_timeout_disarm` takes the timeout out of the list it is in. -/
theorem utilTimeoutDisarm_holds (h : m.Holds D W) (hr : r ∈ D ++ W) : ∃ m', m.utilTimeoutDisarm r.id = some m' ∧
    m'.Holds (D.filter (·.id ≠ r.id)) (W.filter (·.id ≠ r.id)) := by
  have hsub : D.filter (·.id ≠ r.id) ++ W.filter (·.id ≠ r.id) ⊆ D ++ W := by
    rw [← filter_append]
    exact filter_subset_self _
  have hlists := h.lists
  rcases mem_append.mp hr with hr | hr
  · have hW : r.id ∉ W.map (·.id) := hlists.apart (mem_map_of_mem hr)
    obtain ⟨D₁, D₂, rfl⟩ := append_of_mem hr
    rw [filter_middle hlists.due.nodup, filter_other hW] at hsub ⊢
    rw [map_append, map_cons] at hlists
    obtain ⟨m', hm', hl, htype⟩ := disarm_due hlists
    exact ⟨m', hm', h.mono (by rwa [map_append]) htype hsub⟩
  · have hD : r.id ∉ D.map (·.id) := fun hD => hlists.apart hD (mem_map_of_mem hr)
    obtain ⟨W₁, W₂, rfl⟩ := append_of_mem hr
    rw [filter_middle hlists.waiting.nodup, filter_other hD] at hsub ⊢
    rw [map_append, map_cons] at hlists
    obtain ⟨m', hm', hl, htype⟩ := disarm_waiting hlists
    exact ⟨m', hm', h.mono (by rwa [map_append]) htype hsub⟩

theorem pollPop_holds (h : m.Holds (r :: D) W) : (m.pollPop r.id).Holds D W :=
  h.mono (pollPop_lists h.lists) (pollPop_type m r.id) fun _ hx => mem_cons_of_mem _ hx

end TimeoutManager

/-! ## Every step keeps the order -/

/-- An earlier expiry, or the same one and armed before. -/
def Armed.before (r x : Armed) : Prop := r.expiry < x.expiry ∨ r.expiry = x.expiry ∧ r.seq < x.seq

namespace TimeoutState

def passedArmed (s : TimeoutState) : List Armed := s.passed.filterMap (·.armed)

def ledger (s : TimeoutState) : List Armed := s.passedArmed ++ (s.armed ++ s.disarmed)

end TimeoutState

/-- A poll passes no more than `MAX_TIMEOUTS` timeouts, and all if they are fewer. -/
def PollDone (p : Poll) (left : Nat) : Prop := p.num ≤ maxTimeouts ∧ (p.num < maxTimeouts → left = 0)

/-- Those that are due expired, and those that wait do so soon; `D` and `W` are the two
lists. -/
structure TimeoutInv (s : TimeoutState) (D W : List Armed) : Prop where
  holds : s.m.Holds D W
  armed : (D ++ W).Perm s.armed
  due : ∀ r ∈ D, r.expiry ≤ s.now
  waiting : ∀ r ∈ W, s.now ≤ r.expiry ∧ r.expiry < s.now + 2 ^ 27
  order : (s.passedArmed ++ (D ++ W)).Pairwise Armed.before
  passed : ∀ x ∈ s.passed, ∃ r, x.armed = some r ∧ r.id = x.id ∧ r.expiry ≤ x.time ∧ x.time ≤ s.now ∧
    x.type = r.type &&& 15
  once : (s.ledger.map (·.seq)).Nodup
  fresh : ∀ r ∈ s.ledger, r.seq < s.seq
  poll : ∀ p, s.poll = some p → p.num ≤ maxTimeouts ∧ p.seq ≤ s.seq ∧ ∀ r ∈ W, r.seq < p.seq → p.time < r.expiry
  polls : ∀ x ∈ s.polls, PollDone x.1 x.2

namespace TimeoutInv

variable {s : TimeoutState} {D W : List Armed}

theorem sorted (h : TimeoutInv s D W) : W.Pairwise (·.expiry ≤ ·.expiry) := by
  have hW := (pairwise_append.mp (pairwise_append.mp h.order).2.1).2.1
  exact hW.imp fun hb => by rcases hb with hb | hb <;> omega

theorem turns (h : TimeoutInv s D W) : W.length < s.armed.length + 1 := by
  rw [← h.armed.length_eq, length_append]
  omega

theorem ids (h : TimeoutInv s D W) : (s.armed.map (·.id)).Nodup := (h.armed.map _).nodup_iff.mp h.holds.nodup

end TimeoutInv

theorem timeoutGap_time (now : Nat) (ts : BitVec 32) : ts.toNat % 2 ^ 28 = (now + timeoutGap now ts) % 2 ^ 28 := by
  simp only [timeoutGap, timeoutBits]
  omega

theorem timeoutStart_inv (timeouts : Nat → Timeout) (ts : BitVec 32) : TimeoutInv (timeoutStart timeouts ts) [] [] := by
  refine ⟨⟨⟨⟨rfl, rfl⟩, ⟨rfl, rfl⟩, ?_⟩, ?_⟩, .nil, ?_, ?_, .nil, ?_, .nil, ?_, ?_, ?_⟩ <;>
    simp [timeoutStart, ledger, passedArmed]

namespace TimeoutInv

variable {s : TimeoutState} {D W : List Armed}

variable (h : TimeoutInv s D W)

include h

theorem near {gap : Nat} (hgap : gap < 2 ^ 27) :
    ∀ r ∈ W, s.now + gap < r.expiry + 2 ^ 27 ∧ r.expiry < s.now + gap + 2 ^ 27 := by
  intro r hr
  have := h.waiting r hr
  omega

theorem earlier : ∀ r ∈ s.passedArmed ++ (D ++ W), r.seq < s.seq := by
  intro r hr
  refine h.fresh r ?_
  have hmem : r ∈ D ++ W ↔ r ∈ s.armed := h.armed.mem_iff
  simp only [ledger, mem_append (s := s.passedArmed)] at hr ⊢
  rcases hr with hr | hr
  · exact .inl hr
  · exact .inr (mem_append_left _ (hmem.mp hr))

theorem passedArmed_le : ∀ r ∈ s.passedArmed, r.expiry ≤ s.now := by
  intro r hr
  obtain ⟨x, hx, hxr⟩ := mem_filterMap.mp hr
  obtain ⟨r', hr', -, hle, hnow, -⟩ := h.passed x hx
  rw [hxr] at hr'
  cases hr'
  omega

omit h in
theorem pairwise_insert {α : Type} {R : α → α → Prop} {l₁ l₂ : List α} {a : α} (h : (l₁ ++ l₂).Pairwise R)
    (h₁ : ∀ x ∈ l₁, R x a) (h₂ : ∀ x ∈ l₂, R a x) : (l₁ ++ a :: l₂).Pairwise R := by
  obtain ⟨hl₁, hl₂, h₁₂⟩ := pairwise_append.mp h
  refine pairwise_append.mpr ⟨hl₁, pairwise_cons.mpr ⟨h₂, hl₂⟩, fun x hx y hy => ?_⟩
  rcases mem_cons.mp hy with rfl | hy
  · exact h₁ x hx
  · exact h₁₂ x hx y hy

omit h in
theorem before_of_le {x r : Armed} (hexp : x.expiry ≤ r.expiry) (hseq : x.seq < r.seq) : x.before r := by
  rcases Nat.lt_or_eq_of_le hexp with hlt | heq
  · exact .inl hlt
  · exact .inr ⟨heq, hseq⟩

/-- Time passes, and what has expired becomes due. -/
theorem move {ts : BitVec 32} (hgap : timeoutGap s.now ts < 2 ^ 27) : ∃ m D' W',
    moveDueTimeouts (ts &&& timeoutMask) (s.armed.length + 1) s.m = some m ∧
      TimeoutInv { s with m := m, now := s.now + timeoutGap s.now ts } D' W' ∧
      ∀ r ∈ W', s.now + timeoutGap s.now ts < r.expiry := by
  have htime := timeoutGap_time s.now ts
  obtain ⟨m', W₁, W₂, hm', rfl, hh, hW₁, hW₂⟩ := moveDueTimeouts_holds h.holds
    (by rw [toNat_and_timeoutMask, htime]) (h.near hgap) h.sorted h.turns
  refine ⟨m', D ++ W₁, W₂, hm', ?_, hW₂⟩
  constructor
  case holds => exact hh
  case armed => simpa using h.armed
  case due =>
    intro x hx
    rcases mem_append.mp hx with hx | hx
    · exact Nat.le_add_right_of_le (h.due x hx)
    · exact hW₁ x hx
  case waiting => exact fun x hx => ⟨Nat.le_of_lt (hW₂ x hx), (h.near hgap x (mem_append_right _ hx)).2⟩
  case order => simpa [passedArmed] using h.order
  case passed =>
    intro x hx
    obtain ⟨r', h₁, h₂, h₃, h₄, h₅⟩ := h.passed x hx
    exact ⟨r', h₁, h₂, h₃, Nat.le_add_right_of_le h₄, h₅⟩
  case once => exact h.once
  case fresh => exact h.fresh
  case poll =>
    intro p hp
    obtain ⟨hnum, hseq, hW⟩ := h.poll p hp
    exact ⟨hnum, hseq, fun r hr => hW r (mem_append_right _ hr)⟩
  case polls => exact h.polls

omit h in
theorem order_arm {V₁ V₂ : List Armed} {r : Armed} (h : TimeoutInv s D (V₁ ++ V₂)) (hseq : s.seq ≤ r.seq)
    (hnow : s.now ≤ r.expiry) (hV₁ : ∀ x ∈ V₁, x.expiry ≤ r.expiry) (hV₂ : ∀ x ∈ V₂, r.expiry < x.expiry) :
    (s.passedArmed ++ (D ++ (V₁ ++ r :: V₂))).Pairwise Armed.before := by
  have hord : ((s.passedArmed ++ (D ++ V₁)) ++ V₂).Pairwise Armed.before := by simpa using h.order
  rw [show s.passedArmed ++ (D ++ (V₁ ++ r :: V₂)) = (s.passedArmed ++ (D ++ V₁)) ++ r :: V₂ by simp]
  refine pairwise_insert hord (fun x hx => ?_) fun x hx => .inl (hV₂ x hx)
  have hlt : x.seq < s.seq := h.earlier x (by simp at hx ⊢; tauto)
  refine before_of_le ?_ (hlt.trans_le hseq)
  simp only [mem_append] at hx
  rcases hx with hx | hx | hx
  · exact (h.passedArmed_le x hx).trans hnow
  · exact (h.due x hx).trans hnow
  · exact hV₁ x hx

theorem arm {t : Nat} {us ts : BitVec 32} {type : BitVec 8} (hok : timeoutOk s (.arm t us type ts)) :
    ∃ s' D' W', timeoutStep s (.arm t us type ts) = some s' ∧ TimeoutInv s' D' W' := by
  obtain ⟨hus, hid, hgap, -⟩ := hok
  have htime := timeoutGap_time s.now ts
  obtain ⟨m, D, W, hm, h', hW⟩ := h.move hgap
  rw [timeoutStep]
  generalize timeoutGap s.now ts = gap at *
  let r : Armed := ⟨t, s.now + gap + us.toNat, type, s.seq⟩
  obtain ⟨m', V₁, V₂, hm', rfl, hh, hV₁, hV₂⟩ := utilTimeoutArmTs_holds (r := r) hm h'.holds htime
    (fun x hx => ⟨hW x hx, (h'.waiting x hx).2⟩) h'.sorted h'.turns hus rfl fun x hx => hid x (h'.armed.mem_iff.mp hx)
  refine ⟨_, D, V₁ ++ r :: V₂, by rw [hm']; rfl, ?_⟩
  have hledger : (s.passedArmed ++ ((s.armed ++ [r]) ++ s.disarmed)).Perm (r :: s.ledger) := by
    rw [ledger, append_assoc s.armed, singleton_append, ← append_assoc, ← append_assoc]
    exact perm_middle
  have hmem : ∀ x ∈ V₁ ++ r :: V₂, x = r ∨ x ∈ V₁ ++ V₂ := fun x hx => by
    simp only [mem_append, mem_cons] at hx ⊢
    tauto
  constructor
  case holds => exact hh
  case armed =>
    rw [← append_assoc]
    refine perm_middle.trans (.trans (.cons r ?_) (perm_append_singleton r s.armed).symm)
    simpa using h'.armed
  case due => exact h'.due
  case waiting =>
    intro x hx
    rcases hmem x hx with rfl | hx
    · exact ⟨Nat.le_add_right .., Nat.add_lt_add_left hus _⟩
    · exact h'.waiting x hx
  case order => exact h'.order_arm (Nat.le_refl _) (Nat.le_add_right ..) hV₁ hV₂
  case passed => exact h'.passed
  case once =>
    refine (hledger.map _).nodup_iff.mpr (nodup_cons.mpr ⟨fun hmem => ?_, h.once⟩)
    obtain ⟨x, hx, hxs⟩ := mem_map.mp hmem
    exact absurd hxs (Nat.ne_of_lt (h.fresh x hx))
  case fresh =>
    intro x hx
    rcases mem_cons.mp (hledger.mem_iff.mp hx) with rfl | hx
    · exact Nat.lt_succ_self _
    · exact Nat.lt_succ_of_lt (h.fresh x hx)
  case poll =>
    intro p hp
    obtain ⟨hnum, hseq, hW⟩ := h'.poll p hp
    refine ⟨hnum, Nat.le_succ_of_le hseq, fun x hx hxp => ?_⟩
    rcases hmem x hx with rfl | hx
    · exact absurd hxp (Nat.not_lt_of_le hseq)
    · exact hW x hx hxp
  case polls => exact h.polls

theorem armed_filter {r : Armed} (hr : r ∈ s.armed) :
    (r :: s.armed.filter (·.id ≠ r.id)).Perm s.armed := by
  have hids := h.ids
  obtain ⟨l₁, l₂, hl⟩ := append_of_mem hr
  rw [hl] at hids ⊢
  rw [filter_middle hids]
  exact perm_middle.symm

theorem disarm {t : Nat} (hok : timeoutOk s (.disarm t)) :
    ∃ s' D' W', timeoutStep s (.disarm t) = some s' ∧ TimeoutInv s' D' W' := by
  obtain ⟨⟨r, hr, rfl⟩, -⟩ := hok
  obtain ⟨m', hm', hh⟩ := utilTimeoutDisarm_holds h.holds (h.armed.mem_iff.mpr hr)
  refine ⟨_, D.filter (·.id ≠ r.id), W.filter (·.id ≠ r.id), by rw [timeoutStep, hm']; rfl, ?_⟩
  have hledger : (s.passedArmed ++ (s.armed.filter (·.id ≠ r.id) ++ (s.disarmed ++ s.armed.filter (·.id = r.id)))).Perm
      s.ledger := by
    rw [filter_self h.ids hr, ← append_assoc (s.armed.filter _)]
    exact .append_left _ ((perm_append_singleton ..).trans ((h.armed_filter hr).append_right _))
  constructor
  case holds => exact hh
  case armed =>
    rw [← filter_append]
    exact h.armed.filter _
  case due => exact fun x hx => h.due x (mem_of_mem_filter hx)
  case waiting => exact fun x hx => h.waiting x (mem_of_mem_filter hx)
  case order =>
    refine h.order.sublist (.append_left ?_ _)
    exact .append filter_sublist filter_sublist
  case passed => exact h.passed
  case once => exact (hledger.map _).nodup_iff.mpr h.once
  case fresh => exact fun x hx => h.fresh x (hledger.mem_iff.mp hx)
  case poll =>
    intro p hp
    obtain ⟨hnum, hseq, hW⟩ := h.poll p hp
    exact ⟨hnum, hseq, fun x hx => hW x (mem_of_mem_filter hx)⟩
  case polls => exact h.polls

theorem pollStart {ts : BitVec 32} (hok : timeoutOk s (.pollStart ts)) :
    ∃ s' D' W', timeoutStep s (.pollStart ts) = some s' ∧ TimeoutInv s' D' W' := by
  obtain ⟨m, D', W', hm, h', hW⟩ := h.move hok.1
  refine ⟨_, D', W', by rw [timeoutStep, hm]; rfl, ?_⟩
  refine { h' with poll := fun p hp => ?_ }
  cases hp
  exact ⟨Nat.zero_le _, Nat.le_refl _, fun x hx _ => hW x hx⟩

theorem pollEnd {p : Poll} (hp : s.poll = some p) (hdone : p.num < maxTimeouts → D = []) :
    TimeoutInv { s with poll := none, polls := s.polls ++ [(p, p.left s.armed)] } D W := by
  refine { h with poll := fun p hp => (by cases hp), polls := fun x hx => ?_ }
  rcases mem_append.mp hx with hx | hx
  · exact h.polls x hx
  obtain ⟨hnum, -, hW⟩ := h.poll p hp
  rw [mem_singleton.mp hx]
  refine ⟨hnum, fun hlt => ?_⟩
  have harmed := h.armed
  rw [hdone hlt, nil_append] at harmed
  rw [Poll.left, ← harmed.countP_eq, countP_eq_zero]
  intro r hr
  have := hW r hr
  simp only [decide_eq_true_eq]
  omega

omit h in
theorem pass {p : Poll} {r : Armed} (h : TimeoutInv s (r :: D) W) (hp : s.poll = some p) (hnum : p.num < maxTimeouts) :
    TimeoutInv { s with
      m := s.m.pollPop r.id
      armed := s.armed.filter (·.id ≠ r.id)
      passed := s.passed ++ [⟨r.id, ((s.m.timeouts r.id).timeoutType >>> timeoutBits).setWidth 8, s.now,
        s.armed.find? (·.id = r.id)⟩]
      poll := some { p with num := p.num + 1 } } D W := by
  have hr : r ∈ s.armed := h.armed.mem_iff.mp (mem_cons_self ..)
  have hfind : s.armed.find? (·.id = r.id) = some r := by
    rw [← head?_filter, filter_self h.ids hr]
    rfl
  have hpassed : ∀ x : Passed, x.armed = some r → (s.passed ++ [x]).filterMap (·.armed) = s.passedArmed ++ [r] := by
    intro x hx
    rw [filterMap_append, filterMap_cons_some hx]
    rfl
  have hledger : (s.passedArmed ++ [r] ++ (s.armed.filter (·.id ≠ r.id) ++ s.disarmed)).Perm s.ledger := by
    rw [append_assoc]
    exact .append_left _ ((h.armed_filter hr).append_right _)
  rw [hfind]
  constructor
  case holds => exact pollPop_holds h.holds
  case armed => exact (h.armed.trans (h.armed_filter hr).symm).cons_inv
  case due => exact fun x hx => h.due x (mem_cons_of_mem _ hx)
  case waiting => exact h.waiting
  case order =>
    have e : s.passedArmed ++ [r] ++ (D ++ W) = s.passedArmed ++ (r :: D ++ W) := by simp
    rw [passedArmed, hpassed _ rfl, e]
    exact h.order
  case passed =>
    intro x hx
    rcases mem_append.mp hx with hx | hx
    · exact h.passed x hx
    · rw [mem_singleton.mp hx, h.holds.word r (by simp), r.word_type]
      exact ⟨r, rfl, rfl, h.due r (mem_cons_self ..), Nat.le_refl _, rfl⟩
  case once =>
    rw [ledger, passedArmed, hpassed _ rfl]
    exact (hledger.map _).nodup_iff.mpr h.once
  case fresh =>
    rw [ledger, passedArmed, hpassed _ rfl]
    exact fun x hx => h.fresh x (hledger.mem_iff.mp hx)
  case poll =>
    intro p' hp'
    cases hp'
    exact ⟨hnum, (h.poll p hp).2⟩
  case polls => exact h.polls

/-- A poll passes the first timeout that is due, or ends. -/
theorem pollNext (hok : timeoutOk s .pollNext) :
    ∃ s' D' W', timeoutStep s .pollNext = some s' ∧ TimeoutInv s' D' W' := by
  obtain ⟨p, hp⟩ := Option.ne_none_iff_exists'.mp hok
  have hf := h.holds.lists.due.first_eq
  rw [timeoutStep, hp]
  cases D with
  | nil =>
    rw [show s.m.dueFirst = none from hf]
    exact ⟨_, [], W, rfl, h.pollEnd hp fun _ => rfl⟩
  | cons r D =>
    rw [show s.m.dueFirst = some r.id from hf]
    dsimp only
    by_cases hnum : p.num < maxTimeouts
    · rw [if_pos hnum]
      exact ⟨_, D, W, rfl, h.pass hp hnum⟩
    · rw [if_neg hnum]
      exact ⟨_, r :: D, W, rfl, h.pollEnd hp fun hlt => absurd hlt hnum⟩

theorem step {op : TimeoutOp} (hok : timeoutOk s op) :
    ∃ s' D' W', timeoutStep s op = some s' ∧ TimeoutInv s' D' W' := by
  cases op with
  | arm t us type ts => exact h.arm hok
  | disarm t => exact h.disarm hok
  | pollStart ts => exact h.pollStart hok
  | pollNext => exact h.pollNext hok

end TimeoutInv

/-- Every run comes to its end, in a state with the invariant. -/
theorem timeoutRun_inv {timeouts : Nat → Timeout} {ts : BitVec 32} {ops : List TimeoutOp}
    (hok : Run.All timeoutStep timeoutOk (timeoutStart timeouts ts) ops) :
    ∃ s, Run.exec timeoutStep (timeoutStart timeouts ts) ops = some s ∧ ∃ D W, TimeoutInv s D W :=
  Run.exec_total (I := fun s => ∃ D W, TimeoutInv s D W)
    (fun s op ⟨D, W, h⟩ hop => by
      obtain ⟨s', D', W', hs', h'⟩ := h.step hop
      exact ⟨s', hs', D', W', h'⟩)
    ⟨[], [], timeoutStart_inv timeouts ts⟩ hok

/-- In every run: no call aborts, and no loop of a call fails to end; each timeout that
is armed is in one of the two lists, and they are ordered by when they expire, behind
those that were passed to the handler; none is passed before it expires, none that was
disarmed is passed, none is passed twice, and each with the low four bits of the
type it was armed with; every poll passes at most 64 of them, and all that were due if it
passes fewer. -/
theorem timeouts_in_order {timeouts : Nat → Timeout} {ts : BitVec 32} {ops : List TimeoutOp}
    (hok : Run.All timeoutStep timeoutOk (timeoutStart timeouts ts) ops) :
    ∃ s, Run.exec timeoutStep (timeoutStart timeouts ts) ops = some s ∧ ∃ D W : List Armed,
      DList s.m.next s.m.prev s.m.dueFirst s.m.dueLast (D.map (·.id)) ∧
      DList s.m.next s.m.prev s.m.timeoutsFirst s.m.timeoutsLast (W.map (·.id)) ∧
      (D ++ W).Perm s.armed ∧ ((D ++ W).map (·.id)).Nodup ∧
      (s.passedArmed ++ (D ++ W)).Pairwise Armed.before ∧
      (∀ x ∈ s.passed, ∃ r, x.armed = some r ∧ r.id = x.id ∧ r.expiry ≤ x.time ∧ x.type = r.type &&& 15) ∧
      (s.ledger.map (·.seq)).Nodup ∧ ∀ x ∈ s.polls, PollDone x.1 x.2 := by
  obtain ⟨s, hs, D, W, h⟩ := timeoutRun_inv hok
  refine ⟨s, hs, D, W, h.holds.lists.due, h.holds.lists.waiting, h.armed, h.holds.nodup, h.order, fun x hx => ?_, h.once,
    h.polls⟩
  obtain ⟨r, h₁, h₂, h₃, -, h₄⟩ := h.passed x hx
  exact ⟨r, h₁, h₂, h₃, h₄⟩

/-- Three timeouts, armed across a wrap of the time; the handler of one arms it again and
disarms another. -/
theorem timeouts_in_order_handler :
    ∃ s, Run.exec timeoutStep (timeoutStart (fun _ => ⟨0, none, none⟩) 268435450)
        [.arm 0 10 1 268435450, .arm 1 2 2 268435451, .arm 2 11 3 268435455, .pollStart 9, .pollNext, .pollNext,
          .arm 0 4 1 9, .disarm 2, .pollNext] = some s ∧ ∃ D W : List Armed,
      DList s.m.next s.m.prev s.m.dueFirst s.m.dueLast (D.map (·.id)) ∧
      DList s.m.next s.m.prev s.m.timeoutsFirst s.m.timeoutsLast (W.map (·.id)) ∧
      (D ++ W).Perm s.armed ∧ ((D ++ W).map (·.id)).Nodup ∧
      (s.passedArmed ++ (D ++ W)).Pairwise Armed.before ∧
      (∀ x ∈ s.passed, ∃ r, x.armed = some r ∧ r.id = x.id ∧ r.expiry ≤ x.time ∧ x.type = r.type &&& 15) ∧
      (s.ledger.map (·.seq)).Nodup ∧ ∀ x ∈ s.polls, PollDone x.1 x.2 :=
  timeouts_in_order (by decide +kernel)

/-- A timeout armed with type 16 is passed with type 0. -/
theorem timeout_type_cut : ¬ ∀ (timeouts : Nat → Timeout) (ts : BitVec 32) (ops : List TimeoutOp),
    Run.All timeoutStep timeoutOk (timeoutStart timeouts ts) ops →
    ∀ s, Run.exec timeoutStep (timeoutStart timeouts ts) ops = some s →
      ∀ x ∈ s.passed, x.armed.all (·.type = x.type) = true := by
  intro h
  have hbad : (Run.exec timeoutStep (timeoutStart (fun _ => ⟨0, none, none⟩) 0)
      [.arm 0 5 16 0, .pollStart 5, .pollNext]).all
        (fun s => decide (∀ x ∈ s.passed, x.armed.all (·.type = x.type) = true)) = false := by
    decide +kernel
  exact Run.not_forall_exec hbad (h _ _ _ (by decide +kernel))

end TasNic
