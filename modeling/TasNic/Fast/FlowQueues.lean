import TasNic.Fast.Stall
import TasNic.Slow.FlowTable

/-!
# One queue for each flow (`tas_nic/fast/fast_flows.c`)

A call of the fast path on a flow (`FlowEntry`) is made on some core and may change queues of that
core's queue manager. Some calls get the number of the flow as the difference of two pointers, in
16 bits, and there are `2¹⁷` flows.
-/

namespace TasNic

open Function List

/-- `fast_flows_qman_fwd`, for the flow with number `flowId`. -/
def fastFlowsQmanFwd (fs : FlowSt) (flowId : BitVec 32) : FlowResult :=
  ⟨fs, 0, [.qmanSet ⟨(flowId.setWidth 16).setWidth 32, fs.txRate, tcpTxavail fs none, tcpMss.setWidth 16,
    qmanSetRate ||| qmanSetMaxchunk ||| qmanSetAvail⟩]⟩

inductive FlowEntry where
  | call (c : FlowCall)
  | qmanFwd

namespace FlowEntry

def run (fs : FlowSt) (flowId : BitVec 32) : FlowEntry → Option FlowResult
  | call c => c.run fs flowId
  | qmanFwd => some (fastFlowsQmanFwd fs flowId)

/-- The number of the flow is the difference of two pointers, in 16 bits. -/
def byPointer : FlowEntry → Bool
  | call (.packet ..) => true
  | call _ => false
  | qmanFwd => true

end FlowEntry

/-- A call of the fast path on a core, for a flow. -/
structure FlowQueueCall where
  core : Nat
  flowId : BitVec 32
  entry : FlowEntry

namespace FlowQueueCall

/-- The number that the call has for its flow. -/
def queue (e : FlowQueueCall) : BitVec 32 := if e.entry.byPointer then (e.flowId.setWidth 16).setWidth 32 else e.flowId

/-- The number of the flow fits the call. -/
def Fits (e : FlowQueueCall) : Prop := e.entry.byPointer = true → e.flowId.toNat < 2 ^ 16
deriving Decidable

theorem queue_eq_iff (e : FlowQueueCall) : e.queue = e.flowId ↔ e.Fits := by
  unfold queue Fits
  split
  · rename_i hp
    refine ⟨fun h _ => ?_, fun h => setWidth_flowId (h hp)⟩
    rw [← h, BitVec.toNat_setWidth_of_le (by decide)]
    exact (e.flowId.setWidth 16).isLt
  · rename_i hp
    exact iff_of_true rfl fun h => absurd h hp

end FlowQueueCall

/-- The flows and the queue managers of the cores, with the calls of `qman_set` made so
far and the calls they were made in. -/
structure FlowQueues where
  flows : Nat → FlowSt
  qman : Nat → QmanThread
  sets : List (FlowQueueCall × QmanSet)

def flowQueueStep (s : FlowQueues) (e : FlowQueueCall) : Option FlowQueues :=
  (e.entry.run (s.flows e.flowId.toNat) e.flowId).bind fun r =>
    (applySets (s.qman e.core) r.out).map fun t =>
      { flows := update s.flows e.flowId.toNat r.fs
        qman := update s.qman e.core t
        sets := s.sets ++ (r.out.filterMap (·.qmanSet?)).map (e, ·) }

/-! ## What a call changes -/

section Queues

variable {t t' : QmanThread} {idx j : Nat}

theorem setQueue_ne (t : QmanThread) (q : QmanQueue) (h : j ≠ idx) : (t.setQueue idx q).queues j = t.queues j :=
  update_of_ne h _ _

theorem queueActivateNolimit_ne (h : queueActivateNolimit t idx = some t') (hj : j ≠ idx) :
    t'.queues j = t.queues j := by
  simp only [queueActivateNolimit] at h
  split at h
  · cases h
  · split at h <;> cases h <;> exact setQueue_ne t _ hj

theorem queueActivateSkiplist_ne (h : queueActivateSkiplist t idx = some t') (hj : j ≠ idx) :
    t'.queues j = t.queues j := by
  simp only [queueActivateSkiplist] at h
  split at h
  · cases h
  · split at h <;> cases h
    exact (setQueue_ne _ _ hj).trans (setQueue_ne t _ hj)

theorem queueActivate_ne (h : queueActivate t idx = some t') (hj : j ≠ idx) : t'.queues j = t.queues j := by
  simp only [queueActivate] at h
  split at h
  · exact queueActivateNolimit_ne h hj
  · exact queueActivateSkiplist_ne h hj

theorem qmanSet_ne {c : QmanSet} {ret : Int} (h : qmanSet t c = some (t', ret)) (hj : j ≠ c.id.toNat) :
    t'.queues j = t.queues j := by
  simp only [qmanSet] at h
  split at h
  · cases h
    rfl
  · obtain ⟨t₁, h₁, e⟩ := Option.map_eq_some_iff.mp h
    cases e
    simp only [setImpl] at h₁
    split at h₁
    · exact (queueActivate_ne h₁ hj).trans (setQueue_ne t _ hj)
    · cases h₁
      exact setQueue_ne t _ hj

theorem applySets_ne {out : List FlowEffect} (hj : ∀ c ∈ out.filterMap (·.qmanSet?), j ≠ c.id.toNat)
    (h : applySets t out = some t') : t'.queues j = t.queues j := by
  rw [applySets] at h
  generalize out.filterMap (·.qmanSet?) = cs at h hj
  induction cs generalizing t with
  | nil =>
    cases h
    rfl
  | cons c cs ih =>
    obtain ⟨t₁, h₁, h₂⟩ := Option.bind_eq_some_iff.mp h
    obtain ⟨⟨t₂, ret⟩, hset, he⟩ := Option.bind_eq_some_iff.mp h₁
    split at he
    · cases he
      have hrest := ih h₂ fun c' hc' => hj c' (mem_cons_of_mem c hc')
      exact hrest.trans (qmanSet_ne hset (hj c mem_cons_self))
    · cases he

end Queues

section Own

variable {fs : FlowSt} {flowId : BitVec 32} {c : QmanSet}

theorem id_of_qmanMore {id old new : BitVec 32} (h : c ∈ (qmanMore fs id old new).filterMap (·.qmanSet?)) :
    c.id = id := by
  rw [qmanMore] at h
  split at h
  · obtain rfl := mem_singleton.mp h
    rfl
  · cases h

theorem flowCall_own {k : FlowCall} {r : FlowResult} (hk : (FlowEntry.call k).byPointer = false)
    (h : k.run fs flowId = some r) (hc : c ∈ r.out.filterMap (·.qmanSet?)) : c.id = flowId := by
  cases k with
  | packet p ts env => cases hk
  | bump bumpSeq txBump flags ts =>
    cases h
    rcases fastFlowsBump_sets fs flowId bumpSeq txBump flags ts with ⟨-, hout⟩ | ⟨-, hout⟩
    · rw [hout] at hc
      cases hc
    · rw [hout] at hc
      exact id_of_qmanMore hc
  | qman ctxId newCore ts =>
    rcases fastFlowsQman_cases h with rfl | rfl | ⟨-, -, rfl⟩
    · obtain rfl := mem_singleton.mp hc
      rfl
    · cases hc
    · cases hc
  | retransmit =>
    cases h
    rcases fastFlowsRetransmit_sets fs flowId with ⟨-, hout⟩ | ⟨-, hout⟩
    · rw [hout] at hc
      cases hc
    · rw [hout] at hc
      exact id_of_qmanMore hc

theorem fastFlowsPacket_queue {p : RxPacket} {ts : BitVec 32} {env : RdmaEnv} {r : FlowResult}
    (h : fastFlowsPacket fs flowId p ts env = some r) (hc : c ∈ r.out.filterMap (·.qmanSet?)) :
    c.id = (flowId.setWidth 16).setWidth 32 := by
  rcases fastFlowsPacket_sets h with ⟨-, hout⟩ | ⟨-, hout⟩
  · rw [hout] at hc
    cases hc
  · rw [hout] at hc
    exact id_of_qmanMore hc

theorem flowEntry_queue {e : FlowQueueCall} {r : FlowResult} (h : e.entry.run fs e.flowId = some r)
    (hc : c ∈ r.out.filterMap (·.qmanSet?)) : c.id = e.queue := by
  obtain ⟨core, flowId, entry⟩ := e
  cases entry with
  | qmanFwd =>
    cases h
    obtain rfl := mem_singleton.mp hc
    rfl
  | call k =>
    have h : k.run fs flowId = some r := h
    cases k with
    | packet p ts env => exact fastFlowsPacket_queue h hc
    | bump | qman | retransmit => exact (flowCall_own (by rfl) h hc :)

end Own

/-! ## Runs -/

/-- What the queues are after calls, from what they were: a queue that is none of `js` is as before, and
`qman_set` was called for the queue of each call only. -/
def OwnQueues (js : Nat → Prop) (s s' : FlowQueues) : Prop :=
  (∀ x ∈ s'.sets, x ∈ s.sets ∨ x.2.id = x.1.queue) ∧ ∀ j, ¬ js j → ∀ k, (s'.qman k).queues j = (s.qman k).queues j

theorem flowQueueStep_own {s s' : FlowQueues} {e : FlowQueueCall} (h : flowQueueStep s e = some s') :
    OwnQueues (· = e.queue.toNat) s s' := by
  obtain ⟨r, hr, h₁⟩ := Option.bind_eq_some_iff.mp h
  obtain ⟨t, ht, rfl⟩ := Option.map_eq_some_iff.mp h₁
  refine ⟨fun x hx => ?_, fun j hj k => ?_⟩
  · rcases mem_append.mp hx with hx | hx
    · exact .inl hx
    · obtain ⟨c, hc, rfl⟩ := mem_map.mp hx
      exact .inr (flowEntry_queue hr hc)
  · by_cases hk : k = e.core
    · subst hk
      have hne : ∀ c ∈ r.out.filterMap (·.qmanSet?), j ≠ c.id.toNat := by
        intro c hc
        rw [flowEntry_queue hr hc]
        exact hj
      exact (congrArg (QmanThread.queues · j) (update_self e.core t s.qman)).trans (applySets_ne hne ht)
    · exact congrArg (QmanThread.queues · j) (update_of_ne hk t s.qman)

theorem flowQueueExec_own {es : List FlowQueueCall} {s s' : FlowQueues} (h : Run.exec flowQueueStep s es = some s') :
    OwnQueues (fun j => ∃ e ∈ es, j = e.queue.toNat) s s' := by
  induction es generalizing s with
  | nil =>
    cases h
    exact ⟨fun x hx => .inl hx, fun _ _ _ => rfl⟩
  | cons e es ih =>
    obtain ⟨s₁, h₁, h₂⟩ := Run.exec_cons h
    obtain ⟨hsets₁, hq₁⟩ := flowQueueStep_own h₁
    obtain ⟨hsets, hq⟩ := ih h₂
    refine ⟨fun x hx => ?_, fun j hj k => ?_⟩
    · rcases hsets x hx with hx | hx
      · exact hsets₁ x hx
      · exact .inr hx
    · have hhead : j ≠ e.queue.toNat := fun hje => hj ⟨e, mem_cons_self, hje⟩
      have htail : ¬ ∃ e ∈ es, j = e.queue.toNat := fun ⟨e', he', hje⟩ => hj ⟨e', mem_cons_of_mem e he', hje⟩
      exact (hq j htail k).trans (hq₁ j hhead k)

/-- In every run, from any flows and queues, calls change queues with the numbers that they have for their
flows and no others, on any core. That is the flow's own queue exactly if its number fits the call. -/
theorem queue_own (s : FlowQueues) (es : List FlowQueueCall) (s' : FlowQueues) (hsets : s.sets = [])
    (h : Run.exec flowQueueStep s es = some s') :
    (∀ x ∈ s'.sets, x.2.id = x.1.queue ∧ (x.2.id = x.1.flowId ↔ x.1.Fits)) ∧
    ∀ j, (∀ e ∈ es, e.queue.toNat ≠ j) → ∀ k, (s'.qman k).queues j = (s.qman k).queues j := by
  obtain ⟨hset, hq⟩ := flowQueueExec_own h
  refine ⟨fun x hx => ?_, fun j hj => hq j ?_⟩
  · have hid : x.2.id = x.1.queue := (hset x hx).resolve_left (by rw [hsets]; exact not_mem_nil)
    exact ⟨hid, by rw [hid, x.1.queue_eq_iff]⟩
  · exact fun ⟨e, he, hje⟩ => hj e he hje.symm

/-- Flows with nothing sent, and queue managers with nothing in them. -/
def idleQueues (fs : FlowSt) : FlowQueues := ⟨fun _ => fs, fun _ => qmanThreadInit 0 (fun _ => 0) true, []⟩

/-- A flow with ten bytes to send, and a window of the given size. -/
def tenBytesFlow (wnd : BitVec 32) : FlowSt :=
  match txPublish (zeroedFlow 64 0 1000).tx [0, 1, 2, 3, 4, 5, 6, 7, 8, 9] with
  | some q => { zeroedFlow 64 0 1000 with tx := q, rxRemoteAvail := wnd }
  | none => zeroedFlow 64 0 1000

/-- A packet opens the window of the flow with the number 7, which was moved from core 0 to core 1, and
may send there; flow 65543 is moved to core 1, too. -/
def movedFlow : List FlowQueueCall :=
  [⟨0, 7, .call (.packet (.ofStream countingBytes 0 0 0 1000 56) 0 fun _ => (0, 0))⟩, ⟨0, 7, .call (.qman 0 1 0)⟩,
    ⟨1, 7, .qmanFwd⟩, ⟨1, 7, .call (.qman 1 1 0)⟩, ⟨1, 7, .call .retransmit⟩, ⟨1, 65543, .qmanFwd⟩]

theorem queue_own_moved :
    ∃ s', Run.exec flowQueueStep (idleQueues (tenBytesFlow 0)) movedFlow = some s' ∧ s'.sets.length = 4 ∧
      (∀ x ∈ s'.sets, x.2.id = x.1.queue ∧ (x.2.id = x.1.flowId ↔ x.1.Fits)) ∧
      (s'.qman 1).queues 65543 = ⟨0, 0, 0, 0, false, false⟩ := by
  obtain ⟨s', hs', hlen⟩ : ∃ s', Run.exec flowQueueStep (idleQueues (tenBytesFlow 0)) movedFlow = some s' ∧
      s'.sets.length = 4 := by decide +kernel
  obtain ⟨hids, hq⟩ := queue_own _ _ s' rfl hs'
  exact ⟨s', hs', hlen, hids, hq 65543 (by decide) 1⟩

/-- Flow 65536 has ten bytes to send. When it is moved to a core, and when a packet opens its window, the
bytes are added to queue 0. -/
theorem queue_of_another :
    (∃ s', flowQueueStep (idleQueues (tenBytesFlow 56)) ⟨0, 65536, .qmanFwd⟩ = some s' ∧
      ((s'.qman 0).queues 0).avail = 10 ∧ ((s'.qman 0).queues 65536).avail = 0) ∧
    ∃ s', flowQueueStep (idleQueues (tenBytesFlow 0))
        ⟨0, 65536, .call (.packet (.ofStream countingBytes 0 0 0 1000 56) 0 fun _ => (0, 0))⟩ = some s' ∧
      ((s'.qman 0).queues 0).avail = 10 ∧ ((s'.qman 0).queues 65536).avail = 0 := by
  decide +kernel

end TasNic
