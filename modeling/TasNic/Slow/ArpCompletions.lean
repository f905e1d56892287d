import Mathlib.Data.Nat.Find
import TasNic.Lib.DLists
import TasNic.Slow.Arp
import TasNic.Utils.TimeoutSet

/-!
# Completions of ARP requests

The completions are described by the list each one is on (`Chains.Family`), through the loop that moves
them from an entry to their queues (`Notified`). `TableInv` is what holds of the table and the timeouts,
which are a set of armed timeouts here (`armedSet`), and `ReqsInv` what holds of the requests; each has
a lemma for every kind of change, from which the steps are put together. That there is a last retry
needs a timeout that grows when it is doubled, which zero does not.
-/

namespace TasNic.Arp

open Function IdxList TimeoutManager List Option ArpTable
open Chains (Family)

/-! ## The lists of completions -/

/-- The first completions of the lists: those of the entries and the queues. -/
def heads (compl queues : Nat → Option Nat) : Place → Option Nat
  | .entry e => compl e
  | .queue q => queues q

section

variable {compl queues : Nat → Option Nat} {place : Nat → Option Place}

theorem heads_entry (e : Nat) (o : Option Nat) :
    heads (update compl e o) queues = update (heads compl queues) (.entry e) o := by
  refine eq_update_iff.mpr ⟨update_self .., fun i hi => ?_⟩
  cases i with
  | queue q => rfl
  | entry d => exact update_of_ne (fun hd => hi (congrArg _ hd)) ..

theorem heads_queue (q : Nat) (o : Option Nat) :
    heads compl (update queues q o) = update (heads compl queues) (.queue q) o := by
  refine eq_update_iff.mpr ⟨update_self .., fun i hi => ?_⟩
  cases i with
  | entry e => rfl
  | queue d => exact update_of_ne (fun hd => hi (congrArg _ hd)) ..

theorem enq_lists {m : ArpTable} {c : Nat} (h : Family m.link (heads compl m.queues) place) (hc : place c = none) (q : Nat) :
    Family (m.nbqueueEnq q c).link (heads compl (m.nbqueueEnq q c).queues) (update place c (some (.queue q))) := by
  have := h.push hc (.queue q)
  rwa [← heads_queue] at this

theorem nbqueueLast_eq {link : Nat → Option Nat} {l : List Nat} {c el turns : Nat} (p : Option Nat)
    (hc : Chain link (some el) (l ++ [c])) (ht : l.length < turns) :
    ArpTable.nbqueueLast link turns p el = some (l.getLast?.or p, c) := by
  induction l generalizing el p turns with
  | nil =>
    obtain ⟨turns, rfl⟩ := Nat.exists_eq_succ_of_ne_zero (Nat.ne_of_gt ht)
    cases hc.1
    rw [nbqueueLast, chain_nil.mp hc.2]
    rfl
  | cons a l ih =>
    obtain ⟨turns, rfl⟩ := Nat.exists_eq_succ_of_ne_zero (Nat.ne_of_gt (Nat.zero_lt_of_lt ht))
    obtain ⟨ha, hc⟩ := hc
    cases ha
    cases hn : link a with
    | none =>
      rw [hn] at hc
      cases l <;> cases hc.1
    | some b =>
      rw [hn] at hc
      rw [nbqueueLast, hn]
      dsimp only
      rw [ih (some a) hc (Nat.lt_of_succ_lt_succ ht), getLast?_cons]
      cases l.getLast? <;> rfl

theorem deq_lists {m : ArpTable} (h : Family m.link (heads compl m.queues) place) (hb : ∀ c, place c ≠ none → c < m.bound)
    (q : Nat) : ∃ link queues r, m.nbqueueDeq q = some ({ m with link := link, queues := queues }, r) ∧
      (∀ c, r = some c → place c = some (.queue q)) ∧
      Family link (heads compl queues) (match r with | some c => update place c none | none => place) := by
  obtain ⟨l, hl, hm⟩ := h.list (.queue q)
  have hq : m.queues q = l.head? := hl.head_eq
  rcases eq_nil_or_concat l with rfl | ⟨l, c, rfl⟩
  · refine ⟨m.link, m.queues, none, ?_, by simp, h⟩
    rewrite [nbqueueDeq, hq]
    rfl
  · rw [concat_eq_append] at hl hm hq
    have hlen : l.length < m.turns := by
      have := Chains.length_lt_of_below hl.nodup fun c hc => hb c (by rw [(hm c).mp hc]; simp)
      rw [length_append] at this
      exact Nat.lt_of_succ_lt this
    obtain ⟨el, hel⟩ : ∃ el, m.queues q = some el := by
      cases l <;> exact ⟨_, hq⟩
    have hchain : Chain m.link (some el) (l ++ [c]) := hel ▸ hl
    have hlast := nbqueueLast_eq none hchain hlen
    have hdrop := h.dropLast hl
    have hc : place c = some (.queue q) := (hm c).mp (by simp)
    rw [nbqueueDeq, hel]
    dsimp only
    rw [hlast, or_none, map_some]
    cases hp : l.getLast? with
    | none =>
      rw [hp, ← heads_queue] at hdrop
      exact ⟨m.link, update m.queues q none, some c, rfl, by simpa using hc, hdrop⟩
    | some p =>
      rw [hp] at hdrop
      exact ⟨update m.link p none, m.queues, some c, rfl, by simpa using hc, hdrop⟩

end

theorem setMac_mac (m : ArpTable) (p : Nat) (mac : BitVec 48) : ((m.setMac p mac).macs p).setWidth 48 = mac := by
  have hmask : (0xffff000000000000 : BitVec 64).setWidth 48 = 0#48 := by decide
  simp only [setMac, update_self]
  rw [BitVec.setWidth_or, BitVec.setWidth_and, hmask, BitVec.and_zero, BitVec.zero_or,
    BitVec.setWidth_setWidth_of_le _ (by decide), BitVec.setWidth_eq]

variable {m : ArpTable} {place : Nat → Option Place}

theorem setMac_keep {p r : Nat} {mac : BitVec 48} (h : (m.macs r).setWidth 48 = mac) :
    ((m.setMac p mac).macs r).setWidth 48 = mac := by
  by_cases hr : r = p
  · subst hr
    exact setMac_mac ..
  · simp only [setMac]
    rwa [update_of_ne hr]

/-- The table of `m`, with the completions of `m'`. -/
def ArpTable.withComps (m m' : ArpTable) : ArpTable :=
  { m with link := m'.link, comps := m'.comps, queues := m'.queues, macs := m'.macs }

/-- The completions `m'` that `notify` leaves: those of `l` are on their queues, with
their status and, if there is one, the address in their variables. -/
structure Notified (m m' : ArpTable) (compl : Nat → Option Nat) (place : Nat → Option Place) (e : Nat) (status : Int)
    (mac : Option (BitVec 48)) (l : List Nat) : Prop where
  nodup : l.Nodup
  mem : ∀ c, c ∈ l ↔ place c = some (.entry e)
  comps : ∀ c, m'.comps c = if c ∈ l then { m.comps c with status := status } else m.comps c
  macs : ∀ a, mac = some a → ∀ c ∈ l, (m'.macs (m.comps c).ptr).setWidth 48 = a
  kept : ∀ a, mac = some a → ∀ p, (m.macs p).setWidth 48 = a → (m'.macs p).setWidth 48 = a
  lists : Family m'.link (heads (update compl e none) m'.queues)
    fun c => if c ∈ l then some (.queue (m.comps c).q) else place c

section

variable {m m' : ArpTable} {compl : Nat → Option Nat} {place : Nat → Option Place} {e : Nat} {status : Int}
  {mac : Option (BitVec 48)} {l : List Nat}

theorem Notified.same (h : Notified m m' compl place e status mac l) (c : Nat) :
    (m'.comps c).q = (m.comps c).q ∧ (m'.comps c).ptr = (m.comps c).ptr := by
  rw [h.comps]
  split <;> exact ⟨rfl, rfl⟩

theorem Notified.status_eq (h : Notified m m' compl place e status mac l) {c : Nat} (hc : c ∈ l) :
    (m'.comps c).status = status := by
  rw [h.comps, if_pos hc]

end

/-- A turn of `notify`, without its queue. -/
def turn (status : Int) (mac : Option (BitVec 48)) (m : ArpTable) (comp : Nat) : ArpTable :=
  let x := m.comps comp
  let m := match mac with
    | some a => m.setMac x.ptr a
    | none => m
  { m with comps := update m.comps comp { x with status := status } }

theorem notify_cons (status : Int) (mac : Option (BitVec 48)) (turns : Nat) (m : ArpTable) (c : Nat) :
    m.notify status mac (turns + 1) (some c) = (((turn status mac m c).nbqueueEnq (m.comps c).q c).notify status mac turns
      (m.link c)).map fun r => (r.1, c :: r.2) := by
  cases mac <;> rfl

section

variable (status : Int) (mac : Option (BitVec 48)) (m : ArpTable) (c : Nat)

@[simp] theorem turn_link : (turn status mac m c).link = m.link := by cases mac <;> rfl
@[simp] theorem turn_queues : (turn status mac m c).queues = m.queues := by cases mac <;> rfl

theorem turn_comps (d : Nat) :
    (turn status mac m c).comps d = if d = c then { m.comps c with status := status } else m.comps d := by
  by_cases hd : d = c <;> cases mac <;> simp [turn, setMac, hd]

end

theorem place_entry {c e q : Nat} (d : Nat) :
    update place c (some (.queue q)) d = some (.entry e) ↔ d ≠ c ∧ place d = some (.entry e) := by
  by_cases hd : d = c <;> simp [hd]

theorem Notified.cons {m' : ArpTable} {compl : Nat → Option Nat} {e c : Nat} {status : Int} {mac : Option (BitVec 48)}
    {l : List Nat} (hc : place c = some (.entry e))
    (hn : Notified ((turn status mac m c).nbqueueEnq (m.comps c).q c) m' compl
      (update place c (some (.queue (m.comps c).q))) e status mac l) : Notified m m' compl place e status mac (c :: l) := by
  have hcl : c ∉ l := fun hm => ((place_entry c).mp ((hn.mem c).mp hm)).1 rfl
  have hcomps : ∀ d, d ≠ c → ((turn status mac m c).nbqueueEnq (m.comps c).q c).comps d = m.comps d :=
    fun d hd => (turn_comps ..).trans (if_neg hd)
  constructor
  · exact nodup_cons.mpr ⟨hcl, hn.nodup⟩
  · intro d
    rw [mem_cons, hn.mem, place_entry]
    by_cases hd : d = c
    · simp [hd, hc]
    · simp [hd]
  · intro d
    have := hn.comps d
    by_cases hd : d = c
    · subst hd
      rw [if_neg hcl] at this
      rw [if_pos (mem_cons_self ..), this]
      exact (turn_comps ..).trans (if_pos rfl)
    · rw [this, hcomps d hd]
      simp [hd]
  · rintro a rfl d hd
    rcases mem_cons.mp hd with rfl | hd
    · exact hn.kept a rfl _ (setMac_mac ..)
    · have := hn.macs a rfl d hd
      rwa [hcomps d (ne_of_mem_of_not_mem hd hcl)] at this
  · rintro a rfl p hp
    exact hn.kept a rfl p (setMac_keep hp)
  · convert hn.lists using 2 with d
    by_cases hd : d = c
    · subst hd
      rw [if_pos (mem_cons_self ..), if_neg hcl, update_self]
    · by_cases hdl : d ∈ l
      · rw [if_pos (mem_cons_of_mem _ hdl), if_pos hdl, hcomps d hd]
      · rw [if_neg (by simp [hd, hdl]), if_neg hdl, update_of_ne hd]

theorem notify_notified {compl : Nat → Option Nat} {e turns : Nat} {o : Option Nat} (status : Int) (mac : Option (BitVec 48))
    (h : Family m.link (heads (update compl e o) m.queues) place)
    (ht : ∀ l : List Nat, l.Nodup → (∀ c ∈ l, place c = some (.entry e)) → l.length < turns) :
    ∃ m' l, m.notify status mac turns o = some (m.withComps m', l) ∧ Notified m m' compl place e status mac l := by
  induction turns generalizing m place o with
  | zero => exact absurd (ht [] nodup_nil (by simp)) (Nat.lt_irrefl 0)
  | succ turns ih =>
    cases o with
    | none =>
      have hnone : ∀ c, place c ≠ some (.entry e) := fun c hc => by
        obtain ⟨d, hd⟩ := h.head_some hc
        rw [heads_entry, update_self] at hd
        cases hd
      refine ⟨m, [], rfl, nodup_nil, by simpa using hnone, by simp, by simp, fun _ _ _ hp => hp, ?_⟩
      simpa using h
    | some c =>
      rw [heads_entry] at h
      obtain ⟨hc, hpop⟩ := h.pop (update_self ..)
      rw [update_idem, ← heads_entry] at hpop
      have hq := enq_lists (m := turn status mac m c) (by simpa using hpop) (update_self ..) (m.comps c).q
      rw [update_idem] at hq
      -- the completion is no longer on the entry's list, so one turn less is enough
      obtain ⟨m', l, hm', hn⟩ := ih hq fun l hl hle => by
        have hcl : c ∉ l := fun hm => ((place_entry c).mp (hle c hm)).1 rfl
        refine Nat.lt_of_succ_lt_succ (ht (c :: l) (nodup_cons.mpr ⟨hcl, hl⟩) fun d hd => ?_)
        rcases mem_cons.mp hd with rfl | hd
        · exact hc
        · exact ((place_entry d).mp (hle d hd)).2
      refine ⟨m', c :: l, ?_, hn.cons hc⟩
      rw [notify_cons, hm', map_some]
      cases mac <;> rfl

/-! ## The table and the timeouts -/

def ArpTable.waits (m : ArpTable) (e : Nat) : Bool := m.used e && (m.entries e).status == 1

theorem waits_iff {e : Nat} : m.waits e = true ↔ m.used e = true ∧ (m.entries e).status = 1 := by
  simp [waits]

def ArpTable.compl (m : ArpTable) (e : Nat) : Option Nat := if m.used e then (m.entries e).compl else none

@[simp] theorem setEntry_waits (m : ArpTable) (e : Nat) (x : ArpEntry) :
    (m.setEntry e x).waits = update m.waits e (m.used e && x.status == 1) := by
  funext d
  by_cases hd : d = e <;> simp [waits, setEntry, hd]

@[simp] theorem setEntry_compl (m : ArpTable) (e : Nat) (x : ArpEntry) :
    (m.setEntry e x).compl = update m.compl e (if m.used e then x.compl else none) := by
  funext d
  by_cases hd : d = e <;> simp [ArpTable.compl, ArpTable.setEntry, hd]

theorem insert_eq (m : ArpTable) (ae : Nat) : m.insert ae = { m with
    arpTable := some ae
    next := update m.next ae m.arpTable
    prev := match m.arpTable with
      | none => update m.prev ae none
      | some q => update (update m.prev ae none) q (some ae) } := by
  cases h : m.arpTable <;> simp [ArpTable.insert, h]

theorem remove_eq {ae : Nat} (hne : m.prev ae ≠ some ae) : m.remove ae = { m with
    arpTable := match m.prev ae with | none => m.next ae | some _ => m.arpTable
    next := match m.prev ae with | none => m.next | some q => update m.next q (m.next ae)
    prev := match m.next ae with | none => m.prev | some q => update m.prev q (m.prev ae) } := by
  cases hp : m.prev ae with
  | none => cases hn : m.next ae <;> simp [remove, hp, hn]
  | some p =>
    have hap : ae ≠ p := fun e => hne (e ▸ hp)
    cases hn : m.next ae <;> simp [remove, hp, hn, update_of_ne hap]

/-- The timeouts that are to be armed, with their types. -/
def armedSet (waits : Nat → Bool) (others : Nat → Option (BitVec 8)) (t : Nat) : Option (BitVec 8) :=
  if t % 2 = 0 then if waits (t / 2) then some toArpReq else none else others (t / 2)

section

variable (waits : Nat → Bool) (others : Nat → Option (BitVec 8))

theorem armedSet_arpTimer (e : Nat) : armedSet waits others (arpTimer e) = if waits e then some toArpReq else none := by
  simp [armedSet, arpTimer]

theorem armedSet_tcpTimer (k : Nat) : armedSet waits others (tcpTimer k) = others k := by
  simp [armedSet, tcpTimer, Nat.add_mod, show (2 * k + 1) / 2 = k by omega]

theorem armedSet_waits (e : Nat) (b : Bool) : armedSet (update waits e b) others =
    update (armedSet waits others) (arpTimer e) (if b then some toArpReq else none) := by
  refine eq_update_iff.mpr ⟨by rw [armedSet_arpTimer, update_self], fun t ht => ?_⟩
  rw [armedSet, armedSet]
  by_cases h2 : t % 2 = 0
  · rw [if_pos h2, if_pos h2, update_of_ne fun he => ht (by rw [arpTimer]; omega)]
  · rw [if_neg h2, if_neg h2]

theorem armedSet_others (k : Nat) (o : Option (BitVec 8)) : armedSet waits (update others k o) =
    update (armedSet waits others) (tcpTimer k) o := by
  refine eq_update_iff.mpr ⟨by rw [armedSet_tcpTimer, update_self], fun t ht => ?_⟩
  rw [armedSet, armedSet]
  by_cases h2 : t % 2 = 0
  · rw [if_pos h2, if_pos h2]
  · rw [if_neg h2, if_neg h2, update_of_ne fun he => ht (by rw [tcpTimer]; omega)]

end

/-- The timeout of an entry after it fired `n` times, each time short of the maximum. -/
structure Backoff (cfg : Config) (timeout : BitVec 32) (n : Nat) : Prop where
  eq : timeout.toNat = cfg.arpTo.toNat * 2 ^ n
  before : ∀ i < n, cfg.arpTo.toNat * 2 ^ (i + 1) < cfg.arpToMax.toNat

theorem Backoff.lt {cfg : Config} {timeout : BitVec 32} {n : Nat} (h : Backoff cfg timeout n) (hto : cfg.arpTo < 0x4000000)
    (hmax : cfg.arpToMax < 0x4000000) : timeout.toNat < 0x4000000 := by
  have hto : cfg.arpTo.toNat < 0x4000000 := hto
  rw [h.eq]
  cases n with
  | zero => simpa using hto
  | succ n => exact Nat.lt_trans (h.before n (Nat.lt_succ_self n)) hmax

/-- The table is the list `l` of the entries, with one entry for an address, and the
timeouts of those that wait are armed. -/
structure TableInv (cfg : Config) (m : ArpTable) (others : Nat → Option (BitVec 8)) (fired : Nat → Nat) (l : List Nat) :
    Prop where
  list : DFamily m.next m.prev (fun _ : Unit => m.arpTable) (fun _ => l) fun e => if m.used e then some () else none
  below : ∀ e, m.used e = true → e < m.bound
  ips : ∀ e e', m.used e = true → m.used e' = true → (m.entries e).ip = (m.entries e').ip → e = e'
  status : ∀ e, m.used e = true → (m.entries e).status = 0 ∨ (m.entries e).status = 1
  timers : m.timeoutMgr.Keeps (armedSet m.waits others)
  others : ∀ k type, others k = some type → k < m.bound ∧ toArpReq < type ∧ type ≤ toTcpClosed
  backoff : ∀ e, m.waits e = true → Backoff cfg (m.entries e).timeout (fired e)

namespace TableInv

variable {cfg : Config} {m : ArpTable} {others : Nat → Option (BitVec 8)} {fired : Nat → Nat} {l : List Nat}

section

variable (h : TableInv cfg m others fired l)

include h

theorem chain : Chain m.next m.arpTable l := (h.list.list ()).forward

theorem mem_iff (e : Nat) : e ∈ l ↔ m.used e = true := by
  rw [h.list.mem e ()]
  cases m.used e <;> simp

/-- `ae_lookup` finds the entry for an address. -/
theorem aeLookup (ip : BitVec 32) : ∃ r, m.aeLookup ip = .ok r ∧
    (∀ e, r = some e → m.used e = true ∧ (m.entries e).ip = ip) ∧
    (r = none → ∀ e, m.used e = true → (m.entries e).ip ≠ ip) := by
  have hused : ∀ e ∈ l, m.used e = true := fun e he => (h.mem_iff e).mp he
  have hlen := Chains.length_lt_of_below h.chain.nodup fun e he => h.below e (hused e he)
  refine ⟨_, Chains.find_eq h.chain hused hlen, fun e he => ?_, fun hn e he => ?_⟩
  · exact ⟨hused e (List.mem_of_find?_eq_some he), by simpa using List.find?_some he⟩
  · simpa using List.find?_eq_none.mp hn e ((h.mem_iff e).mpr he)

/-- There are few enough timeouts for a walk to end. -/
theorem fits : Keeps.Fits (armedSet m.waits others) m.timerTurns := by
  intro ts hnd hts
  refine Chains.length_lt_of_below hnd fun t ht => ?_
  have := hts t ht
  rw [armedSet] at this
  split at this
  · split at this
    · rename_i hw
      have := h.below (t / 2) (by simp [waits] at hw; exact hw.1)
      omega
    · exact absurd rfl this
  · obtain ⟨type, hk⟩ := ne_none_iff_exists'.mp this
    have := (h.others _ _ hk).1
    omega

end

variable {t : TimeoutManager}

variable (h : TableInv cfg m others fired l)

include h

theorem setTimers {others' : Nat → Option (BitVec 8)}
    (ht : t.Keeps (armedSet m.waits others'))
    (ho : ∀ k type, others' k = some type → k < m.bound ∧ toArpReq < type ∧ type ≤ toTcpClosed) :
    TableInv cfg { m with timeoutMgr := t } others' fired l :=
  { h with timers := ht, others := ho }

/-- Entry `ae` changes, is added, or is removed. -/
theorem change {m' : ArpTable} {l' : List Nat} {ae n : Nat} {b : Bool} {x : ArpEntry}
    (hl : DFamily m'.next m'.prev (fun _ : Unit => m'.arpTable) (fun _ => l')
      fun e => if update m.used ae b e then some () else none)
    (hu : m'.used = update m.used ae b) (he : m'.entries = update m.entries ae x) (hbd : m'.bound = m.bound)
    (hb : b = true → ae < m.bound) (hip : b = true → ∀ e, e ≠ ae → m.used e = true → (m.entries e).ip ≠ x.ip)
    (hst : b = true → x.status = 0 ∨ x.status = 1)
    (ht : m'.timeoutMgr.Keeps (update (armedSet m.waits others) (arpTimer ae)
      (if b && x.status == 1 then some toArpReq else none)))
    (hback : b = true → x.status = 1 → Backoff cfg x.timeout n) : TableInv cfg m' others (update fired ae n) l' := by
  -- what holds of this entry and of the others holds of all
  have hall : ∀ P : Nat → ArpEntry → Prop, (b = true → P ae x) → (∀ e, e ≠ ae → m.used e = true → P e (m.entries e)) →
      ∀ e, m'.used e = true → P e (m'.entries e) := by
    intro P hae hother e hue
    rw [hu] at hue
    rw [he]
    by_cases hd : e = ae
    · subst hd
      rw [update_self] at hue ⊢
      exact hae hue
    · rw [update_of_ne hd] at hue ⊢
      exact hother e hd hue
  have hw : m'.waits = update m.waits ae (b && x.status == 1) := by
    funext d
    by_cases hd : d = ae <;> simp [waits, hu, he, hd]
  constructor
  · rw [hu]
    exact hl
  · rw [hbd]
    exact hall (fun e _ => e < m.bound) hb fun e _ => h.below e
  · intro e e' hue hue'
    refine hall (fun e y => y.ip = (m'.entries e').ip → e = e') (fun hb' => ?_) (fun e hd hue => ?_) e hue
    · exact hall (fun e' y => x.ip = y.ip → ae = e') (fun _ _ => rfl)
        (fun e' hd hue' heq => absurd heq.symm (hip hb' e' hd hue')) e' hue'
    · exact hall (fun e' y => (m.entries e).ip = y.ip → e = e') (fun hb' heq => absurd heq (hip hb' e hd hue))
        (fun e' _ hue' => h.ips e e' hue hue') e' hue'
  · exact hall (fun _ y => y.status = 0 ∨ y.status = 1) hst fun e _ => h.status e
  · rw [hw, armedSet_waits]
    exact ht
  · rw [hbd]
    exact h.others
  · intro e hwe
    obtain ⟨hue, hs⟩ := waits_iff.mp hwe
    refine hall (fun e y => y.status = 1 → Backoff cfg y.timeout (update fired ae n e)) (fun hb' hs => ?_)
      (fun e hd hue hs => ?_) e hue hs
    · rw [update_self]
      exact hback hb' hs
    · rw [update_of_ne hd]
      exact h.backoff e (waits_iff.mpr ⟨hue, hs⟩)

theorem setEntry {ae n : Nat} {x : ArpEntry} (hae : m.used ae = true)
    (hip : x.ip = (m.entries ae).ip) (hst : x.status = 0 ∨ x.status = 1)
    (ht : t.Keeps (update (armedSet m.waits others) (arpTimer ae) (if x.status == 1 then some toArpReq else none)))
    (hback : x.status = 1 → Backoff cfg x.timeout n) :
    TableInv cfg ({ m with timeoutMgr := t }.setEntry ae x) others (update fired ae n) l := by
  have hu : m.used = update m.used ae true := by rw [← hae, update_eq_self]
  refine h.change (b := true) (by rw [← hu]; exact h.list) hu rfl rfl (fun _ => h.below ae hae) (fun _ e hd hue heq => ?_)
    (fun _ => hst) ht fun _ => hback
  exact hd (h.ips e ae hue hae (heq.trans hip))

/-- The completions at an entry may change. -/
theorem setCompl {ae : Nat} (hae : m.used ae = true) (o : Option Nat) :
    TableInv cfg (m.setEntry ae { m.entries ae with compl := o }) others fired l := by
  have harmed : armedSet m.waits others (arpTimer ae) = if (m.entries ae).status == 1 then some toArpReq else none := by
    rw [armedSet_arpTimer, waits, hae, Bool.true_and]
  have := h.setEntry (x := { m.entries ae with compl := o }) hae rfl (h.status ae hae)
    (by rw [← harmed, update_eq_self]; exact h.timers) fun hst => h.backoff ae (waits_iff.mpr ⟨hae, hst⟩)
  rwa [update_eq_self] at this

theorem insert {ae : Nat} {x : ArpEntry} (hae : m.used ae = false) (hb : ae < m.bound)
    (hip : ∀ e, m.used e = true → (m.entries e).ip ≠ x.ip) (hst : x.status = 1) (hto : x.timeout = cfg.arpTo)
    (ht : t.Keeps (update (armedSet m.waits others) (arpTimer ae) (some toArpReq))) :
    TableInv cfg (({ m with used := update m.used ae true, timeoutMgr := t }.setEntry ae x).insert ae) others
      (update fired ae 0) (ae :: l) := by
  have hplace : (if m.used ae = true then some () else none) = none := by simp [hae]
  rw [insert_eq]
  refine h.change (b := true) ?_ rfl rfl rfl (fun _ => hb) (fun _ e _ => hip e) (fun _ => .inr hst) (by rw [hst]; exact ht)
    fun _ _ => ⟨by simp [hto], by simp⟩
  refine (h.list.pushFront (c := ae) hplace ()).congr rfl rfl (fun _ => rfl) (by funext i; rfl) fun c => ?_
  by_cases hc : c = ae <;> simp [hc]

theorem remove {ae : Nat} (hae : m.used ae = true) (n : Nat)
    (ht : t.Keeps (update (armedSet m.waits others) (arpTimer ae) none)) :
    TableInv cfg { ({ m with timeoutMgr := t } : ArpTable).remove ae with used := update m.used ae false } others
      (update fired ae n) (l.erase ae) := by
  have hplace : (if m.used ae = true then some () else none) = some () := by simp [hae]
  rw [remove_eq (m := { m with timeoutMgr := t }) (h.list.prev_ne hplace)]
  refine h.change (b := false) ?_ rfl (update_eq_self ae m.entries).symm rfl (by simp) (by simp) (by simp) ht (by simp)
  refine (h.list.remove hplace).congr rfl rfl (fun i => ?_) (by funext i; rfl) fun c => ?_
  · cases m.prev ae <;> rfl
  · by_cases hc : c = ae <;> simp [hc]

end TableInv

/-! ## The requests -/

/-- The timeout of an entry fires for the last time after it fired `k` times. -/
structure LastRetry (cfg : Config) (k : Nat) : Prop where
  reached : cfg.arpToMax.toNat ≤ cfg.arpTo.toNat * 2 ^ (k + 1)
  before : ∀ i < k, cfg.arpTo.toNat * 2 ^ (i + 1) < cfg.arpToMax.toNat

/-- What a requester for `ip` is told: status 0 and the address of the reply, or status
-1 after the last retry. -/
def Outcome (cfg : Config) (ip : BitVec 32) (status : Int) (mac : BitVec 48) : Cause → Prop
  | .reply p => (p.wellFormed = true ∧ p.oper = arpOperReply ∧ p.spa = ip) ∧ status = 0 ∧ mac = p.sha
  | .timeout k => status = -1 ∧ LastRetry cfg k

/-- A request was answered on its queue and in its variable. -/
def Done.Answers (cfg : Config) (d : Done) (r : Req) : Prop :=
  d.q = r.q ∧ d.ptr = r.ptr ∧ Outcome cfg r.ip d.status d.mac d.cause

/-- Request `n` waits at an entry. -/
def ArpState.Pending (s : ArpState) (n : Nat) : Prop := ∃ c e, s.place c = some (.entry e) ∧ s.cur c = n

/-- Every completion is where `place` says, and every request is pending or was answered. -/
structure ReqsInv (cfg : Config) (s : ArpState) : Prop where
  lists : Family s.arp.link (heads s.arp.compl s.arp.queues) s.place
  below : ∀ c, s.place c ≠ none → c < s.arp.bound
  pending : ∀ c e, s.place c = some (.entry e) → s.arp.waits e = true ∧
    s.reqs[s.cur c]? = some ⟨c, (s.arp.comps c).q, (s.arp.entries e).ip, (s.arp.comps c).ptr⟩ ∧
    s.cur c ∉ s.done.map (·.req)
  queued : ∀ c q, s.place c = some (.queue q) → (s.arp.comps c).q = q
  once : ∀ n < s.reqs.length, s.Pending n ∨ (s.done.map (·.req)).count n = 1
  answered : ∀ d ∈ s.done, ∃ r, s.reqs[d.req]? = some r ∧ d.Answers cfg r

namespace ReqsInv

variable {cfg : Config} {s : ArpState} {m : ArpTable}

variable (h : ReqsInv cfg s)

include h

theorem cur_inj {c d e e' : Nat} (hc : s.place c = some (.entry e)) (hd : s.place d = some (.entry e'))
    (hcd : s.cur c = s.cur d) : c = d := by
  have h₁ := (h.pending c e hc).2.1
  have h₂ := (h.pending d e' hd).2.1
  rw [hcd, h₂] at h₁
  exact (congrArg Req.comp (some.inj h₁)).symm

/-- The table may change as long as the lists and the completions stay, and the entries
that wait with their addresses. -/
theorem congr (hl : m.link = s.arp.link) (hc : m.compl = s.arp.compl) (hq : m.queues = s.arp.queues)
    (hb : m.bound = s.arp.bound) (hcomps : ∀ c, s.place c ≠ none → m.comps c = s.arp.comps c)
    (hw : ∀ e, s.arp.waits e = true → m.waits e = true ∧ (m.entries e).ip = (s.arp.entries e).ip)
    (others : Nat → Option (BitVec 8)) (fired : Nat → Nat) :
    ReqsInv cfg { s with arp := m, others := others, fired := fired } where
  lists := by rw [hl, hc, hq]; exact h.lists
  below := by rw [hb]; exact h.below
  pending c e hce := by
    obtain ⟨hwait, hr, hd⟩ := h.pending c e hce
    rw [hcomps c (ne_none_iff_exists'.mpr ⟨_, hce⟩), (hw e hwait).2]
    exact ⟨(hw e hwait).1, hr, hd⟩
  queued c q hcq := by
    rw [hcomps c (ne_none_iff_exists'.mpr ⟨_, hcq⟩)]
    exact h.queued c q hcq
  once := h.once
  answered := h.answered

theorem asked {r : Req} {ae : Nat} (hc : s.place r.comp = none) (hb : r.comp < s.arp.bound)
    (hbound : m.bound = s.arp.bound) (hlink : m.link = update s.arp.link r.comp (s.arp.compl ae))
    (hcompl : m.compl = update s.arp.compl ae (some r.comp)) (hq : m.queues = s.arp.queues)
    (hcomp : (m.comps r.comp).q = r.q ∧ (m.comps r.comp).ptr = r.ptr)
    (hcomps : ∀ c, c ≠ r.comp → m.comps c = s.arp.comps c)
    (hw : ∀ e, s.arp.waits e = true → m.waits e = true ∧ (m.entries e).ip = (s.arp.entries e).ip)
    (hae : m.waits ae = true ∧ (m.entries ae).ip = r.ip) (new : Bool) :
    ReqsInv cfg (s.asked r m (.waits ae new)) := by
  have hlast : ∀ d ∈ s.done, d.req < s.reqs.length := fun d hd => by
    obtain ⟨r, hr, -⟩ := h.answered d hd
    exact (List.getElem?_eq_some_iff.mp hr).1
  have hplace : ∀ c, c ≠ r.comp → (s.asked r m (.waits ae new)).place c = s.place c := fun c hne => update_of_ne hne ..
  have hcur : ∀ c, c ≠ r.comp → (s.asked r m (.waits ae new)).cur c = s.cur c := fun c hne => update_of_ne hne ..
  constructor
  · have := h.lists.push hc (.entry ae)
    rw [← heads_entry] at this
    simp only [ArpState.asked, hlink, hcompl, hq]
    exact this
  · intro c hp
    by_cases hd : c = r.comp
    · exact hd ▸ hbound ▸ hb
    · rw [hplace c hd] at hp
      exact hbound ▸ h.below c hp
  · intro c e hp
    by_cases hd : c = r.comp
    · subst hd
      simp only [ArpState.asked, update_self, some.injEq, Place.entry.injEq] at hp ⊢
      subst hp
      refine ⟨hae.1, ?_, fun hm => ?_⟩
      · rw [List.getElem?_concat_length, hae.2, hcomp.1, hcomp.2]
      · obtain ⟨d, hd, hreq⟩ := mem_map.mp hm
        exact absurd (hlast d hd) (by omega)
    · rw [hplace c hd] at hp
      obtain ⟨hwait, hr, hdone⟩ := h.pending c e hp
      rw [hcur c hd]
      refine ⟨(hw e hwait).1, ?_, hdone⟩
      have hlt := (List.getElem?_eq_some_iff.mp hr).1
      simp only [ArpState.asked]
      rw [List.getElem?_append_left hlt, hr, hcomps c hd, (hw e hwait).2]
  · intro c q hp
    by_cases hd : c = r.comp
    · simp [ArpState.asked, hd] at hp
    · rw [hplace c hd] at hp
      simp only [ArpState.asked, hcomps c hd]
      exact h.queued c q hp
  · intro n hn
    simp only [ArpState.asked, length_append, length_singleton] at hn
    by_cases hlt : n = s.reqs.length
    · exact .inl ⟨r.comp, ae, update_self .., hlt ▸ update_self ..⟩
    · refine (h.once n (by omega)).imp_left fun hp => ?_
      obtain ⟨c, e, hce, hcn⟩ := hp
      have hd : c ≠ r.comp := fun e => by simp [e, hc] at hce
      exact ⟨c, e, (hplace c hd).trans hce, (hcur c hd).trans hcn⟩
  · intro d hd
    obtain ⟨r', hr, ha⟩ := h.answered d hd
    refine ⟨r', ?_, ha⟩
    simp only [ArpState.asked]
    rw [List.getElem?_append_left (hlast d hd), hr]

/-- A request that waits at entry `e` is answered then, and the others stay pending or answered. -/
theorem complete_once (cause : Cause) {e : Nat} {l : List Nat} (hnd : l.Nodup)
    (hl : ∀ c, c ∈ l ↔ s.place c = some (.entry e)) {n : Nat} (hn : n < s.reqs.length) :
    (s.complete cause m l).Pending n ∨ (s.done.map (·.req) ++ l.map s.cur).count n = 1 := by
  rw [count_append]
  rcases h.once n hn with ⟨c, d, hp, hc⟩ | hcount
  · by_cases hcl : c ∈ l
    · right
      subst hc
      have hnd' : (l.map s.cur).Nodup := by
        refine List.Nodup.map_on (fun x hx y hy hxy => ?_) hnd
        exact h.cur_inj ((hl x).mp hx) ((hl y).mp hy) hxy
      rw [count_eq_zero.mpr (h.pending c d hp).2.2, count_eq_one_of_mem hnd' (mem_map_of_mem hcl)]
    · exact .inl ⟨c, d, by simp [ArpState.complete, hcl, hp], hc⟩
  · right
    have : n ∉ l.map s.cur := fun hm => by
      obtain ⟨c, hc, rfl⟩ := mem_map.mp hm
      have := (h.pending c e ((hl c).mp hc)).2.2
      rw [count_eq_zero.mpr this] at hcount
      cases hcount
    rw [hcount, count_eq_zero.mpr this]

theorem complete (cause : Cause) {e : Nat} {l : List Nat} (hnd : l.Nodup)
    (hl : ∀ c, c ∈ l ↔ s.place c = some (.entry e))
    (hlists : Family m.link (heads m.compl m.queues) fun c => if c ∈ l then some (.queue (s.arp.comps c).q) else s.place c)
    (hbound : m.bound = s.arp.bound)
    (hcomps : ∀ c, (m.comps c).q = (s.arp.comps c).q ∧ (m.comps c).ptr = (s.arp.comps c).ptr)
    (hw : ∀ d, d ≠ e → s.arp.waits d = true → m.waits d = true ∧ (m.entries d).ip = (s.arp.entries d).ip)
    (hout : ∀ c ∈ l, Outcome cfg (s.arp.entries e).ip (m.comps c).status
      ((m.macs (m.comps c).ptr).setWidth 48) cause) :
    ReqsInv cfg (s.complete cause m l) := by
  have hreq : (s.complete cause m l).done.map (·.req) = s.done.map (·.req) ++ l.map s.cur := by
    simp [ArpState.complete]
  -- a completion that still waits is at another entry
  have hplace : ∀ c d, (s.complete cause m l).place c = some (.entry d) → c ∉ l ∧ s.place c = some (.entry d) := by
    intro c d hp
    simp only [ArpState.complete] at hp
    split at hp
    · cases hp
    · exact ⟨‹_›, hp⟩
  have hcur : ∀ c d, c ∉ l → s.place c = some (.entry d) → s.cur c ∉ l.map s.cur := by
    intro c d hcl hp hm
    obtain ⟨c', hc', he⟩ := mem_map.mp hm
    exact hcl (h.cur_inj ((hl c').mp hc') hp he ▸ hc')
  constructor
  · simp only [ArpState.complete, (hcomps _).1]
    exact hlists
  · intro c hp
    simp only [ArpState.complete] at hp ⊢
    rw [hbound]
    split at hp
    · exact h.below c (by rw [(hl c).mp ‹_›]; simp)
    · exact h.below c hp
  · intro c d hp
    obtain ⟨hcl, hp⟩ := hplace c d hp
    obtain ⟨hwait, hr, hdone⟩ := h.pending c d hp
    have hde : d ≠ e := fun e => hcl ((hl c).mpr (e ▸ hp))
    refine ⟨(hw d hde hwait).1, ?_, ?_⟩
    · simp only [ArpState.complete]
      rw [(hcomps c).1, (hcomps c).2, (hw d hde hwait).2]
      exact hr
    · rw [hreq, mem_append, not_or]
      exact ⟨hdone, hcur c d hcl hp⟩
  · intro c q hp
    simp only [ArpState.complete] at hp ⊢
    split at hp
    · simpa using hp
    · rw [(hcomps c).1]
      exact h.queued c q hp
  · intro n hn
    rw [hreq]
    exact h.complete_once cause hnd hl hn
  · intro d hd
    simp only [ArpState.complete] at hd ⊢
    rcases mem_append.mp hd with hd | hd
    · exact h.answered d hd
    · obtain ⟨c, hc, rfl⟩ := mem_map.mp hd
      have hp := (h.pending c e ((hl c).mp hc)).2.1
      exact ⟨_, hp, (hcomps c).1, (hcomps c).2, hout c hc⟩

theorem enq {c : Nat} (hc : s.place c = none) (hb : c < s.arp.bound) (q : Nat) :
    ReqsInv cfg { s with
      arp := { s.arp with comps := update s.arp.comps c { s.arp.comps c with q := q } }.nbqueueEnq q c
      place := update s.place c (some (.queue q)) } where
  lists := enq_lists (m := { s.arp with comps := _ }) h.lists hc q
  below d hd := by
    by_cases hdc : d = c
    · exact hdc ▸ hb
    · exact h.below d (by simpa [hdc] using hd)
  pending d e hd := by
    have hdc : d ≠ c := fun e => by simp [e] at hd
    simp only [nbqueueEnq, update_of_ne hdc] at hd ⊢
    exact h.pending d e hd
  queued d r hd := by
    by_cases hdc : d = c
    · simpa [nbqueueEnq, hdc] using hd
    · simp only [nbqueueEnq, update_of_ne hdc] at hd ⊢
      exact h.queued d r hd
  once n hn := (h.once n hn).imp_left fun hp => by
    obtain ⟨d, e, hd, hn⟩ := hp
    have hdc : d ≠ c := fun e => by simp [e, hc] at hd
    exact ⟨d, e, (update_of_ne hdc ..).trans hd, hn⟩
  answered := h.answered

theorem deq (q : Nat) : ∃ link queues r,
    s.arp.nbqueueDeq q = some ({ s.arp with link := link, queues := queues }, r) ∧
    ReqsInv cfg { s with
      arp := { s.arp with link := link, queues := queues }
      place := match r with
        | some comp => update s.place comp none
        | none => s.place } := by
  obtain ⟨link, queues, r, hr, hplace, hl⟩ := deq_lists h.lists h.below q
  refine ⟨link, queues, r, hr, ?_⟩
  cases r with
  | none => exact { h with lists := hl }
  | some c =>
    have hc := hplace c rfl
    have hsub : ∀ d i, update s.place c none d = some i → s.place d = some i := fun d i hd => by
      by_cases hdc : d = c
      · simp [hdc] at hd
      · simpa [hdc] using hd
    exact {
      lists := hl
      below := fun d hd => by
        obtain ⟨i, hi⟩ := ne_none_iff_exists'.mp hd
        exact h.below d (by simp [hsub d i hi])
      pending := fun d e hd => h.pending d e (hsub d _ hd)
      queued := fun d q hd => h.queued d q (hsub d _ hd)
      once := fun n hn => (h.once n hn).imp_left fun hp => by
        obtain ⟨d, e, hd, hn⟩ := hp
        have hdc : d ≠ c := fun e => by simp [e, hc] at hd
        exact ⟨d, e, (update_of_ne hdc ..).trans hd, hn⟩
      answered := h.answered }

end ReqsInv

/-! ## The steps -/

def ArpInv (cfg : Config) (s : ArpState) : Prop := (∃ l, TableInv cfg s.arp s.others s.fired l) ∧ ReqsInv cfg s

section

variable {cfg : Config} {s : ArpState} {l : List Nat}

theorem complete_nil (s : ArpState) (cause : Cause) (m : ArpTable) : s.complete cause m [] = { s with arp := m } := by
  simp [ArpState.complete]

theorem ArpInv.prepare (h : ArpInv cfg s) {comps : Nat → Completion} (hcomps : ∀ c, s.place c ≠ none → comps c = s.arp.comps c)
    (macs : Nat → BitVec 64) : ArpInv cfg { s with arp := { s.arp with comps := comps, macs := macs } } := by
  obtain ⟨⟨l, ht⟩, hr⟩ := h
  refine ⟨⟨l, { ht with }⟩, ?_⟩
  exact hr.congr (m := { s.arp with comps := comps, macs := macs }) rfl rfl rfl rfl hcomps (fun e he => ⟨he, rfl⟩) _ _

variable {ae : Nat} {ts : BitVec 32} {tm : TimeoutManager}

theorem join_step {comp : Nat} (h : ArpInv cfg s) (hc : s.place comp = none) (hb : comp < s.arp.bound)
    (hae : s.arp.waits ae = true) (mac : Nat) :
    ArpInv cfg (s.asked ⟨comp, (s.arp.comps comp).q, (s.arp.entries ae).ip, mac⟩ (joinEntry s.arp comp mac ae)
      (.waits ae false)) := by
  obtain ⟨⟨l, ht⟩, hr⟩ := h
  have hused : s.arp.used ae = true := (Bool.and_eq_true_iff.mp hae).1
  have hip : ∀ e, ((joinEntry s.arp comp mac ae).entries e).ip = (s.arp.entries e).ip := fun e => by
    by_cases he : e = ae <;> simp [joinEntry, setEntry, he]
  have hwaits : (joinEntry s.arp comp mac ae).waits = s.arp.waits :=
    (setEntry_waits ..).trans (update_eq_self ae s.arp.waits)
  refine ⟨⟨l, { ht.setCompl hused (some comp) with }⟩, ?_⟩
  refine hr.asked (m := joinEntry s.arp comp mac ae) (r := ⟨comp, _, _, mac⟩) hc hb rfl ?_ ?_ rfl ?_
    (fun c hne => update_of_ne hne ..) ?_ ?_ false
  · simp [joinEntry, ArpTable.setEntry, ArpTable.compl, hused]
  · rw [joinEntry, setEntry_compl]
    exact congrArg _ (if_pos hused)
  · simp [joinEntry, setEntry]
  · intro e he
    rw [hwaits]
    exact ⟨he, hip e⟩
  · rw [hwaits]
    exact ⟨hae, hip ae⟩

theorem new_step {comp : Nat} {ip : BitVec 32} (hto : cfg.arpTo < 0x4000000) (h : ArpInv cfg s) (hc : s.place comp = none)
    (hb : comp < s.arp.bound) (hae : s.arp.used ae = false) (hab : ae < s.arp.bound)
    (hip : ∀ e, s.arp.used e = true → (s.arp.entries e).ip ≠ ip) (mac : Nat) (ts : BitVec 32) :
    ∃ m, newEntry cfg s.arp comp ip mac ae ts = some m ∧
      ArpInv cfg (s.asked ⟨comp, (s.arp.comps comp).q, ip, mac⟩ m (.waits ae true)) := by
  obtain ⟨⟨l, ht⟩, hr⟩ := h
  have hwait : s.arp.waits ae = false := by simp [ArpTable.waits, hae]
  have hnone : armedSet s.arp.waits s.others (arpTimer ae) = none := by simp [armedSet_arpTimer, hwait]
  obtain ⟨t, harm, hk⟩ := ht.timers.arm ht.fits hnone (show cfg.arpTo < 0x8000000 by bv_omega) toArpReq ts
  let x : ArpEntry := { s.arp.entries ae with status := 1, ip := ip, compl := some comp, timeout := cfg.arpTo }
  let m : ArpTable := { s.arp with
    used := update s.arp.used ae true
    comps := update s.arp.comps comp { s.arp.comps comp with ptr := mac }
    link := update s.arp.link comp none
    entries := update s.arp.entries ae x
    timeoutMgr := t
    out := s.arp.out ++ [.request ip] }
  have hnew : newEntry cfg s.arp comp ip mac ae ts = some (m.insert ae) := by
    have hx : (update s.arp.entries ae x ae).timeout = cfg.arpTo := by rw [update_self]
    rw [← hx] at harm
    simp only [newEntry, ArpTable.arm, ArpTable.setEntry, ArpTable.send]
    exact (congrArg _ (congrArg _ harm)).trans rfl
  have hins := ht.insert (x := x) hae hab hip rfl rfl hk
  refine ⟨m.insert ae, hnew, ⟨ae :: l, ?_⟩, ?_⟩
  · rw [insert_eq] at hins ⊢
    exact { hins with }
  · have hne : ∀ e, s.arp.waits e = true → e ≠ ae := fun e he e' => by simp [e', hwait] at he
    rw [insert_eq]
    refine hr.asked (m := { m with arpTable := _, next := _, prev := _ }) (r := ⟨comp, _, ip, mac⟩) hc hb rfl ?_ ?_ rfl
      ?_ ?_ ?_ ?_ true
    · simp [m, ArpTable.compl, hae]
    · funext e
      by_cases he : e = ae <;> simp [m, x, ArpTable.compl, he]
    · simp [m]
    · exact fun c hc => update_of_ne hc ..
    · intro e he
      have hd := hne e he
      simpa [m, ArpTable.waits, hd] using he
    · simp [m, x, ArpTable.waits]

theorem request_step {comp q mac : Nat} {ip : BitVec 32} {block : Option Nat} (hto : cfg.arpTo < 0x4000000)
    (h : ArpInv cfg s) (hok : arpOk s (.request comp q ip mac block ts)) :
    ∃ s', arpStep cfg s (.request comp q ip mac block ts) = some s' ∧ ArpInv cfg s' := by
  obtain ⟨hc, hb, hblock⟩ := hok
  let m : ArpTable := { s.arp with
    comps := update s.arp.comps comp { s.arp.comps comp with q := q }
    macs := update s.arp.macs mac 0 }
  have hcomps : ∀ c, s.place c ≠ none → m.comps c = s.arp.comps c := fun c hp => by
    have hne : c ≠ comp := fun e => hp (e ▸ hc)
    exact update_of_ne hne ..
  have h₁ : ArpInv cfg { s with arp := m } := h.prepare hcomps _
  have hq : (m.comps comp).q = q := by simp [m]
  obtain ⟨l, ht⟩ := h₁.1
  obtain ⟨r, hlook, hsome, hnone⟩ := ht.aeLookup ip
  have hstep : arpStep cfg s (.request comp q ip mac block ts) = (arpRequestFrom cfg m comp ip mac block ts).map
      fun r => ArpState.asked { s with arp := m } ⟨comp, q, ip, mac⟩ r.1 r.2 := rfl
  rw [hstep, arpRequestFrom.eq_def, hlook]
  cases r with
  | none =>
    cases block with
    | none => exact ⟨_, rfl, h₁⟩
    | some ae =>
      simp only [all_some, Bool.and_eq_true, Bool.not_eq_true', decide_eq_true_eq] at hblock
      obtain ⟨m', hm', h'⟩ := new_step hto h₁ hc hb hblock.1 hblock.2 (hnone rfl) mac ts
      rw [hq] at h'
      dsimp only
      rw [hm']
      exact ⟨_, rfl, h'⟩
  | some ae =>
    obtain ⟨hused, hip⟩ := hsome ae rfl
    dsimp only
    by_cases hst : (m.entries ae).status = 0
    · rw [if_pos hst]
      exact ⟨_, rfl, h₁.prepare (fun _ _ => rfl) _⟩
    · rw [if_neg hst]
      have hwait : m.waits ae = true := waits_iff.mpr ⟨hused, (ht.status ae hused).resolve_left hst⟩
      have h' := join_step h₁ hc hb hwait mac
      rw [hq, hip] at h'
      exact ⟨_, rfl, h'⟩

theorem notify_entry {m : ArpTable} (hr : ReqsInv cfg s) (hae : s.arp.used ae = true) (hlink : m.link = s.arp.link)
    (hq : m.queues = s.arp.queues) (hb : m.bound = s.arp.bound) (status : Int) (mac : Option (BitVec 48)) :
    ∃ m' l, m.notify status mac m.turns (s.arp.entries ae).compl = some (m.withComps m', l) ∧
      Notified m m' s.arp.compl s.place ae status mac l := by
  refine notify_notified status mac ?_ fun l hl hle => ?_
  · have hcompl : update s.arp.compl ae (s.arp.entries ae).compl = s.arp.compl := by
      rw [← update_eq_self ae s.arp.compl]
      simp [ArpTable.compl, hae]
    rw [hlink, hq, hcompl]
    exact hr.lists
  · rw [ArpTable.turns, hb]
    exact Chains.length_lt_of_below hl fun c hc => hr.below c (by simp [hle c hc])

section

variable (ht : TableInv cfg s.arp s.others s.fired l)

include ht

theorem disarmReq_eq (hae : s.arp.used ae = true) :
    ∃ t, disarmReq s.arp ae = some { s.arp with timeoutMgr := t } ∧
      t.Keeps (update (armedSet s.arp.waits s.others) (arpTimer ae) none) := by
  rw [disarmReq]
  by_cases hst : (s.arp.entries ae).status = 1
  · have harmed : armedSet s.arp.waits s.others (arpTimer ae) ≠ none := by
      simp [armedSet_arpTimer, waits, hae, hst]
    obtain ⟨t, hdis, hk⟩ := ht.timers.disarm harmed
    rw [if_pos hst, hdis]
    exact ⟨t, rfl, hk⟩
  · have hnone : armedSet s.arp.waits s.others (arpTimer ae) = none := by
      simp [armedSet_arpTimer, waits, hst]
    rw [if_neg hst, ← hnone, update_eq_self]
    exact ⟨_, rfl, ht.timers⟩

theorem resolve_step {p : ArpHdr} (hr : ReqsInv cfg s)
    (hae : s.arp.used ae = true) (hip : (s.arp.entries ae).ip = p.spa) (hwf : p.wellFormed = true)
    (hop : p.oper = arpOperReply) :
    ∃ r, resolve s.arp ae p.sha = some r ∧ ArpInv cfg (s.complete (.reply p) r.1 r.2) := by
  obtain ⟨t, hdis, hk⟩ := disarmReq_eq ht hae
  let x : ArpEntry := { s.arp.entries ae with mac := p.sha, status := 0 }
  let m : ArpTable := ArpTable.setEntry { s.arp with timeoutMgr := t } ae x
  have hx : (m.entries ae).compl = (s.arp.entries ae).compl := by simp [m, x, ArpTable.setEntry]
  obtain ⟨m', comps, hnot, hn⟩ := notify_entry (m := m) hr hae rfl rfl rfl 0 (some p.sha)
  have htab := ht.setEntry (t := t) (x := x) (n := s.fired ae) hae rfl (.inl rfl) hk (fun h => absurd h (by simp [x]))
  rw [update_eq_self] at htab
  let m₁ : ArpTable := (m.withComps m').setEntry ae { m.entries ae with compl := none }
  have hres : resolve s.arp ae p.sha = some (m₁, comps) := by
    have hmap : resolve s.arp ae p.sha = (m.notify 0 (some p.sha) m.turns (m.entries ae).compl).map fun r =>
        (r.1.setEntry ae { r.1.entries ae with compl := none }, r.2) := by
      rw [resolve, hdis]
      rfl
    rw [hmap, hx, hnot]
    rfl
  refine ⟨_, hres, ⟨l, { htab.setCompl hae none with }⟩, ?_⟩
  refine hr.complete _ (m := m₁) hn.nodup hn.mem ?_ rfl (fun c => ?_) (fun d hd hw => ?_) fun c hc => ?_
  · have hcompl : m₁.compl = update s.arp.compl ae none := by
      funext e
      by_cases he : e = ae <;> simp [m₁, m, ArpTable.compl, ArpTable.setEntry, ArpTable.withComps, he]
    rw [hcompl]
    exact hn.lists
  · exact hn.same c
  · simpa [m₁, m, ArpTable.waits, ArpTable.setEntry, ArpTable.withComps, hd] using hw
  · have hptr : (m₁.comps c).ptr = (s.arp.comps c).ptr := (hn.same c).2
    have hst : (m₁.comps c).status = 0 := hn.status_eq hc
    rw [hptr, hst]
    exact ⟨⟨hwf, hop, hip.symm⟩, rfl, hn.macs p.sha rfl c hc⟩

theorem giveUp_step (hr : ReqsInv cfg s) (hw : s.arp.waits ae = true)
    (hk : tm.Keeps (update (armedSet s.arp.waits s.others) (arpTimer ae) none))
    (hmax : (s.arp.entries ae).timeout * 2 ≥ cfg.arpToMax) (hlast : LastRetry cfg (s.fired ae)) :
    ∃ r, arpTimeout cfg { s.arp with timeoutMgr := tm } ae ts = some r ∧
      ArpInv cfg { s.complete (.timeout (s.fired ae)) r.1 r.2 with
        fired := update s.fired ae (s.fired ae + 1) } := by
  obtain ⟨hae, hst⟩ := waits_iff.mp hw
  obtain ⟨m', comps, hnot, hn⟩ := notify_entry (m := { s.arp with timeoutMgr := tm }) hr hae rfl rfl rfl (-1) none
  have hprev : s.arp.prev ae ≠ some ae := ht.list.prev_ne (i := ()) (by simp [hae])
  let m : ArpTable := withComps { s.arp with timeoutMgr := tm } m'
  have hres : arpTimeout cfg { s.arp with timeoutMgr := tm } ae ts =
      some ({ m.remove ae with used := update (m.remove ae).used ae false }, comps) := by
    simp only [arpTimeout]
    rw [if_neg (by simp [hst]), if_pos hmax, hnot, map_some]
  have htab := ht.remove hae (s.fired ae + 1) hk
  rw [remove_eq (m := m) hprev] at hres
  rw [remove_eq (m := { s.arp with timeoutMgr := tm }) hprev] at htab
  refine ⟨_, hres, ⟨_, { htab with }⟩, ?_⟩
  have hc := hr.complete (.timeout (s.fired ae)) (m := { m with
      arpTable := match m.prev ae with | none => m.next ae | some _ => m.arpTable
      next := match m.prev ae with | none => m.next | some q => update m.next q (m.next ae)
      prev := match m.next ae with | none => m.prev | some q => update m.prev q (m.prev ae)
      used := update m.used ae false }) hn.nodup hn.mem ?_ rfl hn.same (fun d hd hwait => ?_) fun c hc => ?_
  · exact { hc with }
  · have hcompl : ArpTable.compl { m with used := update m.used ae false } = update s.arp.compl ae none := by
      funext e
      by_cases he : e = ae <;> simp [m, ArpTable.compl, ArpTable.withComps, he]
    exact Eq.subst (motive := fun f => Family m'.link (heads f m'.queues) _) hcompl.symm hn.lists
  · have hdae : update s.arp.used ae false d = s.arp.used d := update_of_ne hd ..
    refine ⟨?_, rfl⟩
    rw [← hwait, waits, waits, ← hdae]
    rfl
  · exact ⟨hn.status_eq hc, hlast⟩

theorem retry_step (hr : ReqsInv cfg s) (hw : s.arp.waits ae = true)
    (hk : tm.Keeps (update (armedSet s.arp.waits s.others) (arpTimer ae) none))
    (hmax : ¬ (s.arp.entries ae).timeout * 2 ≥ cfg.arpToMax)
    (hback : Backoff cfg ((s.arp.entries ae).timeout * 2) (s.fired ae + 1))
    (hus : (s.arp.entries ae).timeout * 2 < 0x8000000) :
    ∃ r, arpTimeout cfg { s.arp with timeoutMgr := tm } ae ts = some r ∧
      ArpInv cfg { s.complete (.timeout (s.fired ae)) r.1 r.2 with
        fired := update s.fired ae (s.fired ae + 1) } := by
  obtain ⟨hae, hst⟩ := waits_iff.mp hw
  obtain ⟨t, harm, hk'⟩ := hk.arm (ht.fits.erase (arpTimer ae)) (update_self ..) hus toArpReq ts
  rw [update_idem] at hk'
  let x : ArpEntry := { s.arp.entries ae with timeout := (s.arp.entries ae).timeout * 2 }
  let m : ArpTable := setEntry { s.arp with timeoutMgr := t, out := s.arp.out ++ [.request x.ip] } ae x
  have hres : arpTimeout cfg { s.arp with timeoutMgr := tm } ae ts = some (m, []) := by
    have hx : (update s.arp.entries ae x ae).timeout = (s.arp.entries ae).timeout * 2 := by rw [update_self]
    rw [← hx] at harm
    simp only [arpTimeout]
    rw [if_neg (by simp [hst]), if_neg hmax]
    simp only [arm, setEntry, send, Option.map_map]
    exact (congrArg _ harm).trans rfl
  have hx : (if (x.status == 1) = true then some toArpReq else none) = some toArpReq := if_pos (beq_iff_eq.mpr hst)
  have htab := ht.setEntry (t := t) (x := x) hae rfl (.inr hst) (by rw [hx]; exact hk') fun _ => hback
  refine ⟨_, hres, ?_⟩
  rw [complete_nil]
  refine ⟨⟨l, { htab with }⟩, ?_⟩
  refine hr.congr (m := m) rfl ?_ rfl rfl (fun _ _ => rfl) (fun e he => ?_) _ _
  · rw [setEntry_compl, ← update_eq_self ae s.arp.compl]
    rfl
  · by_cases hd : e = ae
    · subst hd
      exact ⟨waits_iff.mpr (by simp [m, x, setEntry, hae, hst]), by simp [m, x, setEntry]⟩
    · simpa [m, waits, setEntry, hd] using he

end

/-- `arp_timeout` does not find an entry that is ready. -/
theorem timeout_step (ts : BitVec 32) (hto : cfg.arpTo < 0x4000000) (hmax : cfg.arpToMax < 0x4000000)
    (ht : TableInv cfg s.arp s.others s.fired l) (hr : ReqsInv cfg s) (hw : s.arp.waits ae = true)
    (hk : tm.Keeps (update (armedSet s.arp.waits s.others) (arpTimer ae) none)) :
    ∃ r, arpTimeout cfg { s.arp with timeoutMgr := tm } ae ts = some r ∧
      ArpInv cfg { s.complete (.timeout (s.fired ae)) r.1 r.2 with
        fired := update s.fired ae (s.fired ae + 1) } := by
  have hback := ht.backoff ae hw
  have hlt := hback.lt hto hmax
  have htwice : ((s.arp.entries ae).timeout * 2).toNat = cfg.arpTo.toNat * 2 ^ (s.fired ae + 1) := by
    have hmul : ((s.arp.entries ae).timeout * 2).toNat = (s.arp.entries ae).timeout.toNat * 2 := by bv_omega
    rw [hmul, hback.eq, Nat.pow_succ, Nat.mul_assoc]
  by_cases hge : (s.arp.entries ae).timeout * 2 ≥ cfg.arpToMax
  · exact giveUp_step ht hr hw hk hge ⟨htwice ▸ hge, hback.before⟩
  · have hge' : cfg.arpTo.toNat * 2 ^ (s.fired ae + 1) < cfg.arpToMax.toNat := htwice ▸ BitVec.not_le.mp hge
    refine retry_step ht hr hw hk hge ⟨htwice, fun i hi => ?_⟩ (by bv_omega)
    rcases Nat.lt_succ_iff_lt_or_eq.mp hi with hi | rfl
    · exact hback.before i hi
    · exact hge'

theorem packet_step (h : ArpInv cfg s) (p : ArpHdr) : ∃ s', arpStep cfg s (.packet p) = some s' ∧ ArpInv cfg s' := by
  obtain ⟨⟨l, ht⟩, hr⟩ := h
  have hsame : ArpInv cfg (s.complete (.reply p) s.arp []) := by
    rw [complete_nil]
    exact ⟨⟨l, ht⟩, hr⟩
  rw [arpStep, arpPacket]
  by_cases hwf : p.wellFormed = true
  · rw [if_neg (by simpa using hwf)]
    by_cases hreq : p.oper = arpOperRequest
    · rw [if_pos hreq]
      by_cases hme : p.tpa ≠ cfg.ip ∧ p.tpa ≠ cfg.nicIp
      · rw [if_pos hme]
        exact ⟨_, rfl, hsame⟩
      · rw [if_neg hme]
        refine ⟨_, rfl, ?_⟩
        dsimp only
        rw [complete_nil]
        exact ⟨⟨l, { ht with }⟩,
          hr.congr (m := s.arp.send _) rfl rfl rfl rfl (fun _ _ => rfl) (fun e he => ⟨he, rfl⟩) _ _⟩
    · rw [if_neg hreq]
      by_cases hop : p.oper = arpOperReply
      · rw [if_pos hop]
        obtain ⟨r, hlook, hsome, -⟩ := ht.aeLookup p.spa
        rw [hlook]
        cases r with
        | none => exact ⟨_, rfl, hsame⟩
        | some ae =>
          obtain ⟨hae, hip⟩ := hsome ae rfl
          obtain ⟨r, hres, hinv⟩ := resolve_step ht hr hae hip hwf hop
          dsimp only
          rw [hres]
          exact ⟨_, rfl, hinv⟩
      · rw [if_neg hop]
        exact ⟨_, rfl, hsame⟩
  · rw [if_pos (by simpa using hwf)]
    exact ⟨_, rfl, hsame⟩

theorem ArpInv.setTimers (h : ArpInv cfg s) {t : TimeoutManager} {others : Nat → Option (BitVec 8)}
    (ht : t.Keeps (armedSet s.arp.waits others))
    (ho : ∀ k type, others k = some type → k < s.arp.bound ∧ toArpReq < type ∧ type ≤ toTcpClosed) :
    ArpInv cfg { s with arp := { s.arp with timeoutMgr := t }, others := others } := by
  obtain ⟨⟨l, htab⟩, hr⟩ := h
  refine ⟨⟨l, htab.setTimers ht ho⟩, ?_⟩
  exact hr.congr (m := { s.arp with timeoutMgr := t }) rfl rfl rfl rfl (fun _ _ => rfl) (fun e he => ⟨he, rfl⟩) _ _

/-- A timeout of a connection may be armed or not. -/
theorem ArpInv.setOther (h : ArpInv cfg s) {t : TimeoutManager} {k : Nat} {o : Option (BitVec 8)}
    (hk : t.Keeps (update (armedSet s.arp.waits s.others) (tcpTimer k) o))
    (ho : ∀ type, o = some type → k < s.arp.bound ∧ toArpReq < type ∧ type ≤ toTcpClosed) :
    ArpInv cfg { s with arp := { s.arp with timeoutMgr := t }, others := update s.others k o } := by
  obtain ⟨l, ht⟩ := h.1
  refine h.setTimers (by rwa [armedSet_others]) fun j type hj => ?_
  by_cases hjk : j = k
  · subst hjk
    rw [update_self] at hj
    exact ho type hj
  · rw [update_of_ne hjk] at hj
    exact ht.others j type hj

theorem type_low {type : BitVec 8} (h : type ≤ toTcpClosed) : type &&& 15 = type := by
  have : ∀ type : BitVec 8, type ≤ toTcpClosed → type &&& 15 = type := by decide +kernel
  exact this type h

theorem pollNext_step (hto : cfg.arpTo < 0x4000000) (hmax : cfg.arpToMax < 0x4000000) (h : ArpInv cfg s) :
    ∃ s', arpStep cfg s (.pollNext ts) = some s' ∧ ArpInv cfg s' := by
  obtain ⟨l, ht⟩ := h.1
  rw [arpStep]
  cases hdue : s.arp.timeoutMgr.dueFirst with
  | none => exact ⟨s, rfl, h⟩
  | some t =>
    obtain ⟨harmed, hk⟩ := ht.timers.pop hdue
    have htype : ∀ type, armedSet s.arp.waits s.others t = some type →
        ((s.arp.timeoutMgr.timeouts t).timeoutType >>> timeoutBits).setWidth 8 = type &&& 15 := ht.timers.type t
    dsimp only
    by_cases heven : t % 2 = 0
    · obtain ⟨ae, rfl⟩ : ∃ ae, t = arpTimer ae := ⟨t / 2, by rw [arpTimer]; omega⟩
      have hhalf : arpTimer ae / 2 = ae := by rw [arpTimer]; omega
      have hw : s.arp.waits ae = true := by
        rw [armedSet_arpTimer] at harmed
        by_contra hw
        exact harmed (if_neg hw)
      obtain ⟨r, hres, hinv⟩ := timeout_step ts hto hmax ht h.2 hw hk
      rw [timeoutTrigger, htype toArpReq (by rw [armedSet_arpTimer, if_pos hw]), if_pos (by decide), hhalf, hres]
      exact ⟨_, rfl, hinv⟩
    · obtain ⟨k, rfl⟩ : ∃ k, t = tcpTimer k := ⟨t / 2, by rw [tcpTimer]; omega⟩
      have hhalf : tcpTimer k / 2 = k := by rw [tcpTimer]; omega
      rw [armedSet_tcpTimer] at harmed
      obtain ⟨type, hk'⟩ := ne_none_iff_exists'.mp harmed
      obtain ⟨-, hne, hle⟩ := ht.others k type hk'
      rw [timeoutTrigger, htype type (by rw [armedSet_tcpTimer, hk']), type_low hle, if_neg (by bv_omega), if_pos hle, hhalf]
      exact ⟨_, rfl, h.setOther hk (by simp)⟩

theorem ArpInv.step (hto : cfg.arpTo < 0x4000000) (hmax : cfg.arpToMax < 0x4000000) (h : ArpInv cfg s) {op : ArpOp}
    (hok : arpOk s op) : ∃ s', arpStep cfg s op = some s' ∧ ArpInv cfg s' := by
  obtain ⟨⟨l, ht⟩, hr⟩ := id h
  cases op with
  | request comp q ip mac block ts => exact request_step hto h hok
  | packet p => exact packet_step h p
  | pollStart ts =>
    obtain ⟨t, hm, hk⟩ := ht.timers.moveDueTimeouts ht.fits (ts &&& timeoutMask)
    rw [arpStep, hm]
    exact ⟨_, rfl, h.setTimers hk ht.others⟩
  | pollNext ts => exact pollNext_step hto hmax h
  | enq comp q =>
    refine ⟨_, rfl, ⟨l, { ht with }⟩, hr.enq hok.1 hok.2 q⟩
  | deq q =>
    obtain ⟨link, queues, r, hd, hr'⟩ := hr.deq q
    rw [arpStep, hd]
    exact ⟨_, rfl, ⟨l, { ht with }⟩, hr'⟩
  | tcpArm k us type ts =>
    obtain ⟨hnone, hk, hus, hne, hle⟩ := hok
    obtain ⟨t, hm, hkeep⟩ := ht.timers.arm ht.fits (t := tcpTimer k) (by rw [armedSet_tcpTimer, hnone]) hus type ts
    rw [arpStep, hm]
    refine ⟨_, rfl, h.setOther hkeep fun ty hty => ?_⟩
    cases hty
    exact ⟨hk, hne, hle⟩
  | tcpDisarm k =>
    have harmed : armedSet s.arp.waits s.others (tcpTimer k) ≠ none := by
      rw [armedSet_tcpTimer]
      exact hok
    obtain ⟨t, hm, hkeep⟩ := ht.timers.disarm harmed
    rw [arpStep, hm]
    exact ⟨_, rfl, h.setOther hkeep (by simp)⟩

end

theorem arpStart_inv (cfg : Config) (mac : BitVec 48) (hb : 0 < m.bound) :
    ArpInv cfg (arpStart cfg mac m) := by
  have hused : ∀ e, (arpStart cfg mac m).arp.used e = true ↔ e = 0 := fun e => by
    by_cases he : e = 0 <;> simp [arpStart, arpInit, he]
  have hwaits : (arpStart cfg mac m).arp.waits = fun _ => false := by
    funext e
    by_cases he : e = 0 <;> simp [arpStart, arpInit, ArpTable.waits, he]
  have hset : armedSet (fun _ => false) (fun _ => none) = fun _ => none := by
    funext t
    simp [armedSet]
  have hcompl : (arpStart cfg mac m).arp.compl = fun _ => none := by
    funext e
    by_cases he : e = 0 <;> simp [arpStart, arpInit, ArpTable.compl, he]
  have hnext : (arpStart cfg mac m).arp.next 0 = none := by simp [arpStart, arpInit]
  have hprev : (arpStart cfg mac m).arp.prev 0 = none := by simp [arpStart, arpInit]
  refine ⟨⟨[0], ?_⟩, ?_⟩
  · constructor
    · refine ⟨fun _ => ⟨⟨rfl, hnext⟩, ⟨rfl, hprev⟩⟩, fun e i => ?_⟩
      by_cases he : e = 0 <;> simp [arpStart, arpInit, he]
    · intro e he
      exact (hused e).mp he ▸ hb
    · intro e e' he he' _
      rw [(hused e).mp he, (hused e').mp he']
    · intro e he
      rw [(hused e).mp he]
      exact .inl (by simp [arpStart, arpInit])
    · rw [hwaits]
      exact hset ▸ Keeps.init _
    · intro k type hk
      cases hk
    · intro e he
      rw [hwaits] at he
      cases he
  · constructor
    · rw [hcompl]
      exact ⟨fun i => ⟨[], by cases i <;> rfl, fun c => by simp [arpStart]⟩⟩
    all_goals simp [arpStart]

/-! ## Every request is answered once -/

/-- The table is well linked, with at most one entry for an address; an entry has status 1
exactly when its timeout is armed. Every completion is on the list `place` says, one
that waits at the entry for its address and one on a queue on its own; every request is
pending, or was answered once, as `Done.Answers` says. An entry that waits is given up after
it fired less than 26 times. -/
structure ArpExact (cfg : Config) (s : ArpState) : Prop where
  table : ∃ l, DList s.arp.next s.arp.prev s.arp.arpTable l.getLast? l ∧ ∀ e, e ∈ l ↔ s.arp.used e = true
  oneEntry : ∀ e e', s.arp.used e = true → s.arp.used e' = true → (s.arp.entries e).ip = (s.arp.entries e').ip → e = e'
  armed : ∃ D W, s.arp.timeoutMgr.Lists D W ∧
    ∀ e, arpTimer e ∈ D ++ W ↔ s.arp.used e = true ∧ (s.arp.entries e).status = 1
  lists : Family s.arp.link (heads s.arp.compl s.arp.queues) s.place
  waiting : ∀ c e, s.place c = some (.entry e) → s.arp.waits e = true ∧
    s.reqs[s.cur c]? = some ⟨c, (s.arp.comps c).q, (s.arp.entries e).ip, (s.arp.comps c).ptr⟩
  queued : ∀ c q, s.place c = some (.queue q) → (s.arp.comps c).q = q
  once : ∀ n < s.reqs.length, (s.Pending n ∧ n ∉ s.done.map (·.req)) ∨
    (¬ s.Pending n ∧ (s.done.map (·.req)).count n = 1)
  answered : ∀ d ∈ s.done, ∃ r, s.reqs[d.req]? = some r ∧ d.Answers cfg r
  lastRetry : ∀ e, s.arp.waits e = true → ∃ k < 26, s.fired e ≤ k ∧ LastRetry cfg k

section

variable {cfg : Config} {s : ArpState}

/-- The retries end, unless the timeout is zero and stays so. -/
theorem Backoff.lastRetry {timeout : BitVec 32} {n : Nat} (h : Backoff cfg timeout n) (hmax : cfg.arpToMax < 0x4000000)
    (hcfg : 0 < cfg.arpTo ∨ cfg.arpToMax = 0) : ∃ k < 26, n ≤ k ∧ LastRetry cfg k := by
  have hreach : cfg.arpToMax.toNat ≤ cfg.arpTo.toNat * 2 ^ (25 + 1) := by
    have hmax : cfg.arpToMax.toNat < 0x4000000 := hmax
    rcases hcfg with hpos | hzero
    · have hpos : 0 < cfg.arpTo.toNat := hpos
      omega
    · rw [hzero]
      exact Nat.zero_le _
  have hex : ∃ k, cfg.arpToMax.toNat ≤ cfg.arpTo.toNat * 2 ^ (k + 1) := ⟨25, hreach⟩
  refine ⟨Nat.find hex, Nat.lt_succ_of_le (Nat.find_min' hex hreach), ?_, Nat.find_spec hex, fun i hi => ?_⟩
  · by_contra hlt
    have := h.before _ (Nat.lt_of_not_le hlt)
    exact absurd (Nat.find_spec hex) (Nat.not_le_of_lt this)
  · exact Nat.lt_of_not_le (Nat.find_min hex hi)

theorem ArpInv.exact (h : ArpInv cfg s) (hmax : cfg.arpToMax < 0x4000000) (hcfg : 0 < cfg.arpTo ∨ cfg.arpToMax = 0) :
    ArpExact cfg s := by
  obtain ⟨⟨l, ht⟩, hr⟩ := h
  obtain ⟨D, W, hl, hmem⟩ := ht.timers.lists
  exact {
    table := ⟨l, ht.list.list (), ht.mem_iff⟩
    oneEntry := ht.ips
    armed := by
      refine ⟨D, W, hl, fun e => ?_⟩
      rw [hmem, armedSet_arpTimer, ← waits_iff]
      simp
    lists := hr.lists
    waiting := fun c e hc => ⟨(hr.pending c e hc).1, (hr.pending c e hc).2.1⟩
    queued := hr.queued
    once := fun n hn => by
      rcases hr.once n hn with ⟨c, e, hc, rfl⟩ | hcount
      · exact .inl ⟨⟨c, e, hc, rfl⟩, (hr.pending c e hc).2.2⟩
      · refine .inr ⟨?_, hcount⟩
        rintro ⟨c, e, hc, rfl⟩
        rw [count_eq_zero.mpr (hr.pending c e hc).2.2] at hcount
        cases hcount
    answered := hr.answered
    lastRetry := fun e he => (ht.backoff e he).lastRetry hmax hcfg }

theorem arp_run {mac : BitVec 48} {m : ArpTable} {ops : List ArpOp} (hto : cfg.arpTo < 0x4000000)
    (hmax : cfg.arpToMax < 0x4000000) (hb : 0 < m.bound) (hops : Run.All (arpStep cfg) arpOk (arpStart cfg mac m) ops) :
    ∃ s, Run.exec (arpStep cfg) (arpStart cfg mac m) ops = some s ∧ ArpInv cfg s :=
  Run.exec_total (I := ArpInv cfg) (fun _ _ h hok => h.step hto hmax hok) (arpStart_inv cfg mac hb) hops

/-- Every run with retries that end goes through, without an abort, and is exact. -/
theorem arp_completions_exact {mac : BitVec 48} {m : ArpTable} {ops : List ArpOp} (hto : cfg.arpTo < 0x4000000)
    (hmax : cfg.arpToMax < 0x4000000) (hcfg : 0 < cfg.arpTo ∨ cfg.arpToMax = 0) (hb : 0 < m.bound)
    (hops : Run.All (arpStep cfg) arpOk (arpStart cfg mac m) ops) :
    ∃ s, Run.exec (arpStep cfg) (arpStart cfg mac m) ops = some s ∧ ArpExact cfg s := by
  obtain ⟨s, hs, hinv⟩ := arp_run hto hmax hb hops
  exact ⟨s, hs, hinv.exact hmax hcfg⟩

end

/-- Memory with room for `n` blocks. -/
def emptyMemory (n : Nat) : ArpTable where
  bound := n
  arpTable := none
  next := fun _ => none
  prev := fun _ => none
  used := fun _ => false
  entries := fun _ => ⟨0, none, 0, 0, 0⟩
  timeoutMgr := utilTimeoutInit fun _ => ⟨0, none, none⟩
  link := fun _ => none
  comps := fun _ => ⟨0, 0, 0⟩
  queues := fun _ => none
  macs := fun _ => 0
  out := []

/-- Two requesters for one address get the reply; one for another address is told that
there is none, after the timeout fired twice. -/
def twoAddresses : List ArpOp :=
  [.request 0 0 5 0 (some 1) 0, .request 1 0 5 1 none 10, .request 2 1 6 2 (some 2) 20,
    .packet ⟨1, 0x0800, 6, 4, 2, 0xabc, 5, 1⟩, .pollStart 600, .pollNext 600, .deq 0, .pollStart 2000, .pollNext 2000]

theorem arp_completions_exact_two_addresses : ∃ s,
    (Run.exec (arpStep ⟨1, 2, 500, 1500⟩) (arpStart ⟨1, 2, 500, 1500⟩ 7 (emptyMemory 4)) twoAddresses = some s ∧
      ArpExact ⟨1, 2, 500, 1500⟩ s) ∧
    s.done.map (fun d => (d.req, d.q, d.status, d.mac)) = [(1, 0, 0, 0xabc), (0, 0, 0, 0xabc), (2, 1, -1, 0)] := by
  have hops : Run.All (arpStep ⟨1, 2, 500, 1500⟩) arpOk (arpStart ⟨1, 2, 500, 1500⟩ 7 (emptyMemory 4)) twoAddresses := by
    decide +kernel
  obtain ⟨s, hs, hex⟩ := arp_completions_exact (by decide) (by decide) (by decide) (by decide) hops
  exact ⟨s, ⟨hs, hex⟩, Run.forall_exec
    (P := fun s => s.done.map (fun d => (d.req, d.q, d.status, d.mac)) = [(1, 0, 0, 0xabc), (0, 0, 0, 0xabc), (2, 1, -1, 0)])
    (by decide +kernel) hs⟩

/-- One request with a timeout of zero, which fires `n` times. -/
def zeroRun (n : Nat) : List ArpOp :=
  .request 0 0 5 0 (some 1) 0 :: (List.replicate n [.pollStart 0, .pollNext 0]).flatten

/-- With a first timeout of zero, which twice itself is, no run ever tells a requester that
there was no reply; it waits while the timeout fires and fires. -/
theorem arp_zero_timeout_never_given_up :
    (∀ ops s, Run.All (arpStep ⟨1, 2, 0, 10000000⟩) arpOk (arpStart ⟨1, 2, 0, 10000000⟩ 7 (emptyMemory 4)) ops →
      Run.exec (arpStep ⟨1, 2, 0, 10000000⟩) (arpStart ⟨1, 2, 0, 10000000⟩ 7 (emptyMemory 4)) ops = some s →
      ∀ d ∈ s.done, d.status ≠ -1) ∧
    Run.All (arpStep ⟨1, 2, 0, 10000000⟩) arpOk (arpStart ⟨1, 2, 0, 10000000⟩ 7 (emptyMemory 4)) (zeroRun 40) ∧
    ∃ s, Run.exec (arpStep ⟨1, 2, 0, 10000000⟩) (arpStart ⟨1, 2, 0, 10000000⟩ 7 (emptyMemory 4)) (zeroRun 40) = some s ∧
      s.fired 1 = 40 ∧ s.place 0 = some (.entry 1) ∧ s.done = [] ∧ ¬ ArpExact ⟨1, 2, 0, 10000000⟩ s := by
  refine ⟨fun ops s hops hs d hd hst => ?_, by decide +kernel, ?_⟩
  · obtain ⟨s', hs', -, hr⟩ := arp_run (by decide) (by decide) (by decide) hops
    rw [hs] at hs'
    cases hs'
    obtain ⟨r, -, -, -, hout⟩ := hr.answered d hd
    rw [hst] at hout
    cases hcause : d.cause with
    | reply p =>
      rw [hcause] at hout
      exact absurd hout.2.1 (by decide)
    | timeout k =>
      rw [hcause] at hout
      exact absurd hout.2.reached (by simp)
  · obtain ⟨s, hs, hend⟩ : ∃ s, Run.exec (arpStep ⟨1, 2, 0, 10000000⟩) (arpStart ⟨1, 2, 0, 10000000⟩ 7 (emptyMemory 4))
        (zeroRun 40) = some s ∧ s.fired 1 = 40 ∧ s.place 0 = some (.entry 1) ∧ s.done = [] ∧ s.arp.waits 1 = true := by
      decide +kernel
    refine ⟨s, hs, hend.1, hend.2.1, hend.2.2.1, fun hex => ?_⟩
    obtain ⟨k, -, -, hlast⟩ := hex.lastRetry 1 hend.2.2.2
    exact absurd hlast.reached (by simp)

end TasNic.Arp
