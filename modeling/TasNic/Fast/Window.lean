import Mathlib.Algebra.BigOperators.Group.List.Basic
import TasNic.Fast.Receive
import TasNic.Rdma.Paired

/-!
# The advertised window

A flow whose receive queue `rx` is the transmitter's side of a pair; the other side is the
application's. A packet's bytes are flushed to the application before the packet is acknowledged, so
that between calls nothing is left in `rx`, and `rq_nbytes_empty`, which counts the bytes not flushed
yet, gives the whole buffer. The bytes that the application has not dequeued are not counted.

A peer that was told of a window of 0 sends nothing until it is told of another. `fast_flows_bump`
sends a segment for that only if it finds no free space, so never after space was freed.
-/

namespace TasNic

open Circ RdmaQueue List

/-! ## Runs -/

/-- A window that was advertised, and the bytes that the application's queue held. -/
structure Advert where
  wnd : BitVec 16
  held : Nat
deriving DecidableEq

/-- A flow with the number of bytes flushed to the application and dequeued by it, and
the windows advertised. -/
structure WindowRun where
  fs : FlowSt
  flushed : Nat
  dequeued : Nat
  adverts : List Advert

/-- A call of the fast path, a dequeue by the application, or any change of the transmit
queue by its other side. While a packet is processed the application dequeues bytes, too:
some before the flow may read its offset, some before the acknowledgement is sent. -/
inductive WindowOp where
  | packet (p : RxPacket) (ts : BitVec 32) (early late : Nat)
  | bump (bumpSeq : BitVec 16) (txBump : BitVec 32) (flags : BitVec 8) (ts : BitVec 32)
  | qman (ctxId newCore : BitVec 16) (ts : BitVec 32)
  | retransmit
  | dequeue (sz : Nat)
  | setTx (q : RdmaQueue)

def FlowEffect.wnd? : FlowEffect → Option (BitVec 16)
  | .segment t => some t.wnd
  | .ack a => some a.wnd
  | _ => none

/-- The bytes flushed, of which the application is notified. -/
def FlowEffect.rxBump : FlowEffect → Nat
  | .arx u => u.rxBump.toNat
  | _ => 0

namespace WindowRun

/-- The bytes dequeued when the application dequeues up to `n` more. -/
def take (s : WindowRun) (n : Nat) : Nat := min (s.dequeued + n) s.flushed

/-- After a call, behind which the application dequeues up to `late` bytes. -/
def after (s : WindowRun) (r : FlowResult) (late : Nat) : WindowRun :=
  let s : WindowRun := { s with fs := r.fs, flushed := s.flushed + (r.out.map FlowEffect.rxBump).sum }
  { s with
    dequeued := s.take late
    adverts := s.adverts ++ (r.out.filterMap FlowEffect.wnd?).map fun w => ⟨w, s.flushed - s.take late⟩ }

/-- What RDMA operations give while a packet is processed: they succeed, and the
application's offset is that after `early` more bytes. -/
def env (s : WindowRun) (early : Nat) : RdmaEnv := fun _ => (0, pos s.fs.rx.bufferSize (s.take early))

end WindowRun

def windowStep (flowId : BitVec 32) (s : WindowRun) : WindowOp → Option WindowRun
  | .packet p ts early late => (fastFlowsPacket s.fs flowId p ts (s.env early)).map fun r =>
      { s with dequeued := s.take early }.after r late
  | .bump bumpSeq txBump flags ts => some (s.after (fastFlowsBump s.fs flowId bumpSeq txBump flags ts) 0)
  | .qman ctxId newCore ts => (fastFlowsQman s.fs flowId ctxId newCore ts).map fun r => s.after r 0
  | .retransmit => some (s.after (fastFlowsRetransmit s.fs flowId) 0)
  | .dequeue sz => some { s with dequeued := s.take sz }
  | .setTx q => some { s with fs := { s.fs with tx := q } }

/-- A flow before its first packet, with a new queue paired with a new queue of the
application. -/
structure WindowFresh (fs : FlowSt) : Prop where
  alloc : ∃ addr mem nbytes lkey rkey q, rqAllocateInPlace addr mem nbytes lkey rkey = some q ∧
    ∃ addr' mem' lkey' rkey' q', rqAllocateInPlace addr' mem' nbytes lkey' rkey' = some q' ∧
      fs.rx = (rqPairReceiver q q'.endpoints.rx 0).1
  pad : rdmaQueuePad < fs.rx.bufferSize

def windowStart (fs : FlowSt) : WindowRun := ⟨fs, 0, 0, []⟩

/-- Every window advertised was free in the application's queue of `B` bytes. -/
def WindowRun.Honest (B : Nat) (s : WindowRun) : Prop :=
  ∀ a ∈ s.adverts, a.wnd.toNat + a.held + rdmaQueuePad ≤ B
deriving Decidable

/-- The assertion behind the flush of a packet, `n_flushed == rx_bump`. -/
def FlushWhole (fs : FlowSt) (p : RxPacket) (ts : BitVec 32) (env : RdmaEnv) : Prop :=
  ∀ st ∈ packetReceived fs p ts env,
    ((rqNflush st.fs.rx st.rxBump.toNat).eval st.env).map (·.2.1) = some (st.rxBump.toNat : Int)
deriving Decidable

/-! ## What a run has to meet -/

/-- A queue of `B` bytes that holds `held` has room for any window: it is empty, or the
largest window fits. -/
def RoomForWindow (B held : Nat) : Prop := held = 0 ∨ held + 0xFFFF + rdmaQueuePad ≤ B
deriving Decidable

/-- A packet's bytes fit into the room that the flow knows of, or it knows of none and they
fit into the room there is when the application's queue holds `held` bytes. -/
def FlushFits (q : RdmaQueue) (held bump : Nat) : Prop :=
  bump ≤ rqNbytesMaxFlush q ∨ rqNbytesMaxFlush q = 0 ∧ held + bump + rdmaQueuePad ≤ q.bufferSize
deriving Decidable

/-- The bytes of a packet fit, and there is room for a window when one is advertised. -/
def windowOk (s : WindowRun) : WindowOp → Prop
  | .packet p ts early late => ∀ st ∈ packetReceived s.fs p ts (s.env early),
      FlushFits s.fs.rx (s.flushed - s.take early) st.rxBump.toNat ∧
      (st.triggerAck = true → RoomForWindow s.fs.rx.bufferSize
        (s.flushed + st.rxBump.toNat - min (s.take early + late) (s.flushed + st.rxBump.toNat)))
  | .qman .. => RoomForWindow s.fs.rx.bufferSize (s.flushed - s.dequeued)
  | _ => True

instance (s : WindowRun) : ∀ op, Decidable (windowOk s op)
  | .packet .. => inferInstanceAs (Decidable (∀ st ∈ _, _ ∧ (_ → _)))
  | .qman .. => inferInstanceAs (Decidable (RoomForWindow _ _))
  | .bump .. | .retransmit | .dequeue _ | .setTx _ => isTrue trivial

/-! ## The queue of the flow -/

theorem Rdma.eval_map {α β : Type} (f : α → β) (p : Rdma α) (env : RdmaEnv) :
    (p.map f).eval env = (p.eval env).map fun r => (r.1, f r.2.1, r.2.2) := by
  induction p generalizing env with
  | done => rfl
  | abort => rfl
  | write q src dst sz k ih => simp [Rdma.map, Rdma.eval, ih]
  | read q dst src sz k ih => simp [Rdma.map, Rdma.eval, ih]

namespace TxOf

variable {B b : Nat} {q q' : RdmaQueue} {T F : Nat}

section

variable (h : TxOf B b q T F)

include h

theorem setBuffer (m : Nat → Byte) : TxOf B b (q.setBuffer m) T F :=
  { h with }

theorem maxFlush_eq {T' : Nat} (h' : TxOf B b q' T' F) (ho : q'.rxOffset = q.rxOffset) :
    rqNbytesMaxFlush q' = rqNbytesMaxFlush q := by
  simp [rqNbytesMaxFlush, rqNbytes, h.flush, h'.flush, h.size, h'.size, ho]

theorem maxFlush_read {D : Nat} (hD : D ≤ F) (hF : F < D + B) :
    F - D + rqNbytesMaxFlush (q.setRxOffset (pos B D)) + rdmaQueuePad ≥ B := by
  have e : rqNbytesMaxFlush (q.setRxOffset (pos B D)) =
      if D = F then B - rdmaQueuePad else B - (F - D) := by
    have hs := h.size
    subst hs
    simp only [rqNbytesMaxFlush, RdmaQueue.setRxOffset, h.flush]
    exact rqNbytes_room (q := q.setRxOffset (pos q.bufferSize D)) hD hF
  rw [e]
  split <;> omega

theorem enqueue_fits (hB : B < 2 ^ 31) {sz : Nat} (hsz : sz ≤ rqNbytesEmpty q) (env : RdmaEnv) :
    ∃ q', (rqTryEnqueue q none sz).eval env = some (q', 0, env) ∧ TxOf B b q' (T + sz) F ∧
      q'.rxOffset = q.rxOffset := by
  have h₁ := h.room; have h₂ := h.flushed; have h₃ := h.size
  have hsz' := hsz
  rw [h.empty hB] at hsz'
  rw [rqTryEnqueue_fits none h.txAddr (by rw [h₃]; exact h.size_pos) (by rw [h₃]; exact h.tx) hsz
    (by rw [h₃]; omega), h₃]
  exact ⟨_, rfl, { h with tx := rfl, flushed := by omega, room := by omega }, rfl⟩

theorem enqueue_eval (hB : B < 2 ^ 31) {sz : Nat} {env env' : RdmaEnv}
    (he : (rqTryEnqueue q none sz).eval env = some (q', 0, env')) :
    TxOf B b q' (T + sz) F ∧ q'.rxOffset = q.rxOffset ∧ env' = env := by
  by_cases hsz : sz ≤ rqNbytesEmpty q
  · obtain ⟨q₁, e, h', ho⟩ := h.enqueue_fits hB hsz env
    rw [e] at he
    cases he
    exact ⟨h', ho, rfl⟩
  · -- the queue is flushed instead, and the result is not 0
    have e : rqTryEnqueue q none sz = (rqFlush q).map fun r => if r < 0 then -1 else 1 := by
      simp [rqTryEnqueue, h.txAddr, Nat.lt_of_not_le hsz]
    rw [e, Rdma.eval_map, Option.map_eq_some_iff] at he
    obtain ⟨r, -, hr⟩ := he
    simp only [Prod.mk.injEq] at hr
    have := hr.2.1
    split at this <;> cases this

theorem write_eval {n : Nat} (hn : F + n ≤ T) {env : RdmaEnv} (henv : ∀ i, (env i).1 = 0) :
    ∃ q' env', (nflushWrite q n (nflushPublish · n)).eval env = some (q', (n : Int), env') ∧
      TxOf B b q' T (F + n) := by
  have publish (q' : RdmaQueue) (env : RdmaEnv) :
      ∃ env', (nflushPublish q' n).eval env = some (q', (n : Int), env') := by
    unfold nflushPublish
    split <;> exact ⟨_, rfl⟩
  have h₁ := h.room
  have hadv := adv_pos (n := F) (k := n) h.size_pos (by omega)
  unfold nflushWrite
  split
  · generalize hb : (if q.flushOffset + n > q.bufferSize then q.bufferSize - q.flushOffset else n) = b1
    have hoff := split_eq_adv (by rw [h.flush, h.size]; exact pos_le h.size_pos F) hb
    rw [h.flush, h.size, hadv] at hoff
    simp only [Rdma.eval, henv, Int.lt_irrefl, if_false]
    split
    · rename_i h2
      rw [if_pos h2] at hoff
      obtain ⟨env', e⟩ := publish (q.setFlushOffset (n - b1)) fun i => env (i + 1 + 1)
      refine ⟨_, env', ?_, h.setFlushOffset hoff hn⟩
      simp only [Rdma.eval, henv, Int.lt_irrefl, if_false]
      exact e
    · rename_i h2
      rw [if_neg h2] at hoff
      obtain ⟨env', e⟩ := publish (q.setFlushOffset (q.flushOffset + b1)) fun i => env (i + 1)
      exact ⟨_, env', e, h.setFlushOffset (by rw [h.flush, hoff]) hn⟩
  · obtain rfl : n = 0 := by omega
    obtain ⟨env', e⟩ := publish q env
    exact ⟨q, env', e, h⟩

end

theorem flush_eval {D bump : Nat} (h : TxOf B b q (F + bump) F) (hD : D ≤ F) (hfit : FlushFits q (F - D) bump) :
    ∃ q' env', (rqNflush q bump).eval (fun _ => (0, pos B D)) = some (q', (bump : Int), env') ∧
      TxOf B b q' (F + bump) (F + bump) := by
  rw [h.nflush_eq, show min bump (F + bump - F) = bump by omega]
  rcases hfit with hfit | ⟨h0, hfit⟩
  · rw [nflushLoop_fits 1 hfit]
    exact h.write_eval (Nat.le_refl _) fun _ => rfl
  · rcases Nat.eq_zero_or_pos bump with rfl | hpos
    · rw [nflushLoop_nothing]
      exact ⟨q, _, rfl, h⟩
    · rw [nflushLoop_none h0 hpos]
      rw [h.size] at hfit
      have hr := h.maxFlush_read hD (by omega)
      have hle : min bump (rqNbytesMaxFlush (q.setRxOffset (pos B D))) = bump := by omega
      simp only [nflushReread, readRxOffset, Rdma.eval, ne_eq, not_true_eq_false, if_false, nflushLoop_last, hle]
      exact (h.setRxOffset _).write_eval (Nat.le_refl _) fun _ => rfl

end TxOf

/-! ## Packets -/

/-- `bump` bytes were enqueued into a queue without bytes to flush, and nothing was read. -/
structure Enqueued (B b F : Nat) (q q' : RdmaQueue) (bump : BitVec 32) : Prop where
  tx : TxOf B b q' (F + bump.toNat) F
  offset : q'.rxOffset = q.rxOffset

section Packet

variable {B b F : Nat} {q : RdmaQueue} {fs : FlowSt} {env : RdmaEnv} {ts : BitVec 32} {p : RxPacket}

theorem Enqueued.none (h : TxOf B b q F F) : Enqueued B b F q q 0 := ⟨h, rfl⟩

theorem packetCatchUp_enqueued (hB : B < 2 ^ 31) {bump : BitVec 32} (h : Enqueued B b F q fs.rx bump)
    {r : SegResult} (hr : packetCatchUp fs bump env = some r) :
    Enqueued B b F q r.fs.rx r.rxBump ∧ r.env = env := by
  unfold packetCatchUp at hr
  split at hr
  · cases hr
    exact ⟨h, rfl⟩
  split at hr
  · cases hr
    exact ⟨h, rfl⟩
  simp only at hr
  split at hr
  · split at hr
    · cases hr
    · rename_i q' rv env' he
      split at hr
      · cases hr
      · rename_i hrv
        cases hr
        obtain rfl : rv = 0 := not_not.mp hrv
        obtain ⟨h', ho, rfl⟩ := h.tx.enqueue_eval hB he
        have hroom := h'.room
        refine ⟨⟨?_, ho.trans h.offset⟩, rfl⟩
        rw [BitVec.toNat_add_of_lt (by omega), ← Nat.add_assoc]
        exact h'
  · cases hr
    exact ⟨h, rfl⟩

theorem packetPayload_enqueued (fs : FlowSt) (hB : B < 2 ^ 31) (h : TxOf B b fs.rx F F) {bytes : BitVec 32}
    {payload : Nat → Byte} {r : SegResult} (hr : packetPayload fs bytes payload env = some r) :
    Enqueued B b F fs.rx r.fs.rx r.rxBump ∧ r.env = env := by
  unfold packetPayload at hr
  split at hr
  · cases hr
  rename_i hsz
  simp only [flowRxWrite] at hr
  obtain ⟨q', e, h', ho⟩ := (h.setBuffer (ringWrite fs.rx.bufferSize fs.rx.buffer
    (BitVec.ofNat 32 fs.rx.txOffset).toNat (bytes.setWidth 16).toNat payload)).enqueue_fits hB (Nat.le_of_not_lt hsz) env
  rw [e] at hr
  exact packetCatchUp_enqueued (q := fs.rx) hB ⟨h', ho⟩ hr

theorem packetFin_rx (fs : FlowSt) (p : RxPacket) : (packetFin fs p).1.rx = fs.rx := by
  unfold packetFin
  split <;> rfl

/-- A packet that arrives at `unlock` has enqueued `rx_bump` bytes and flushed none. -/
theorem packetReceived_enqueued (hB : B < 2 ^ 31) (h : TxOf B b fs.rx F F) {st : PacketState}
    (hst : packetReceived fs p ts env = some st) : Enqueued B b F fs.rx st.fs.rx st.rxBump ∧ st.env = env := by
  obtain ⟨-, a, ha, harr⟩ := packetReceived_arrives hst
  rw [← (packetAck_same ha).rx] at h ⊢
  cases harr with
  | reset | outside | dropped => exact ⟨.none h, rfl⟩
  | outOfOrder =>
    obtain ⟨_, _, _, e⟩ := packetOoo_eq a.fs _ _ _
    rw [e]
    exact ⟨⟨h.setBuffer _, rfl⟩, rfl⟩
  | taken _ _ _ hseg =>
    simp only [packetFin_rx]
    split at hseg
    · exact packetPayload_enqueued (packetWindow a.fs p ts) hB h hseg
    · cases hseg
      exact ⟨.none h, rfl⟩

theorem packetReceived_flush (hB : B < 2 ^ 31) (h : TxOf B b fs.rx F F) {D : Nat} (hD : D ≤ F) {st : PacketState}
    (hst : packetReceived fs p ts (fun _ => (0, pos B D)) = some st)
    (hfit : FlushFits fs.rx (F - D) st.rxBump.toNat) :
    ∃ q' env', (rqNflush st.fs.rx st.rxBump.toNat).eval st.env = some (q', (st.rxBump.toNat : Int), env') ∧
      TxOf B b q' (F + st.rxBump.toNat) (F + st.rxBump.toNat) := by
  obtain ⟨he, henv⟩ := packetReceived_enqueued hB h hst
  rw [henv]
  refine he.tx.flush_eval hD ?_
  unfold FlushFits
  rw [h.maxFlush_eq he.tx he.offset, he.tx.size, ← h.size]
  exact hfit

end Packet

/-! ## Steps -/

theorem toNat_wnd_le (rxwnd : BitVec 32) :
    (if rxwnd < 0xFFFF then rxwnd.setWidth 16 else 0xFFFF : BitVec 16).toNat ≤ rxwnd.toNat := by
  split
  · rw [BitVec.toNat_setWidth]
    exact Nat.mod_le _ _
  · rename_i h
    exact BitVec.le_def.mp (BitVec.not_lt.mp h)

theorem qmanMore_wnd (fs : FlowSt) (id oldAvail newAvail : BitVec 32) :
    (qmanMore fs id oldAvail newAvail).filterMap FlowEffect.wnd? = [] := by
  unfold qmanMore
  split <;> rfl

theorem qmanMore_rxBump (fs : FlowSt) (id oldAvail newAvail : BitVec 32) :
    ((qmanMore fs id oldAvail newAvail).map FlowEffect.rxBump).sum = 0 := by
  unfold qmanMore
  split <;> rfl

theorem fastFlowsBump_silent (fs : FlowSt) (flowId : BitVec 32) (bumpSeq : BitVec 16) (txBump : BitVec 32)
    (flags : BitVec 8) (ts : BitVec 32) (h : rqNbytesEmpty fs.rx ≠ 0) :
    ((fastFlowsBump fs flowId bumpSeq txBump flags ts).out.map FlowEffect.rxBump).sum = 0 ∧
      (fastFlowsBump fs flowId bumpSeq txBump flags ts).out.filterMap FlowEffect.wnd? = [] := by
  obtain ⟨fs', old, new, ⟨-, e⟩ | ⟨-, hfull, -⟩⟩ := fastFlowsBump_out fs flowId bumpSeq txBump flags ts
  · rw [e]
    exact ⟨qmanMore_rxBump .., qmanMore_wnd ..⟩
  · exact absurd hfull h

theorem fastFlowsQman_wnd {fs : FlowSt} {flowId ts : BitVec 32} {ctxId newCore : BitVec 16} {r : FlowResult}
    (hr : fastFlowsQman fs flowId ctxId newCore ts = some r) :
    (r.out.map FlowEffect.rxBump).sum = 0 ∧
      ∀ w ∈ r.out.filterMap FlowEffect.wnd?, w.toNat ≤ rqNbytesEmpty fs.rx := by
  rcases fastFlowsQman_cases hr with rfl | rfl | ⟨-, -, rfl⟩
  · exact ⟨rfl, by simp [FlowEffect.wnd?]⟩
  · exact ⟨rfl, by simp⟩
  · refine ⟨rfl, fun w hw => ?_⟩
    obtain rfl := mem_singleton.mp hw
    refine Nat.le_trans (toNat_wnd_le _) ?_
    rw [BitVec.toNat_ofNat]
    exact Nat.mod_le _ _

/-- Nothing is left to flush, and every window advertised was free. -/
structure WindowInv (B b : Nat) (s : WindowRun) : Prop where
  tx : TxOf B b s.fs.rx s.flushed s.flushed
  dequeued : s.dequeued ≤ s.flushed
  honest : s.Honest B

section Steps

variable {B b : Nat} {s : WindowRun}

theorem RoomForWindow.fits {held : Nat} (h : RoomForWindow B held) {w : BitVec 16}
    (hw : w.toNat + rdmaQueuePad ≤ B) : w.toNat + held + rdmaQueuePad ≤ B := by
  rcases h with rfl | h <;> omega

theorem WindowInv.after (hI : WindowInv B b s) {r : FlowResult} {late bump : Nat}
    (hbump : (r.out.map FlowEffect.rxBump).sum = bump) (htx : TxOf B b r.fs.rx (s.flushed + bump) (s.flushed + bump))
    (hw : ∀ w ∈ r.out.filterMap FlowEffect.wnd?, w.toNat + rdmaQueuePad ≤ B ∧
      RoomForWindow B (s.flushed + bump - min (s.dequeued + late) (s.flushed + bump))) :
    WindowInv B b (s.after r late) := by
  subst hbump
  refine ⟨htx, Nat.min_le_right _ _, fun a ha => ?_⟩
  rcases mem_append.mp ha with ha | ha
  · exact hI.honest a ha
  · obtain ⟨w, hmem, rfl⟩ := mem_map.mp ha
    exact (hw w hmem).2.fits (hw w hmem).1

theorem WindowInv.silent (hI : WindowInv B b s) {r : FlowResult} (hrx : r.fs.rx = s.fs.rx)
    (hbump : (r.out.map FlowEffect.rxBump).sum = 0) (hw : r.out.filterMap FlowEffect.wnd? = []) (late : Nat) :
    WindowInv B b (s.after r late) :=
  hI.after hbump (by rw [hrx]; exact hI.tx) (by rw [hw]; exact fun w hm => absurd hm (not_mem_nil))

theorem WindowInv.dequeue (hI : WindowInv B b s) (n : Nat) : WindowInv B b { s with dequeued := s.take n } :=
  ⟨hI.tx, Nat.min_le_right _ _, hI.honest⟩

theorem WindowInv.env (hI : WindowInv B b s) (early : Nat) : s.env early = fun _ => (0, pos B (s.take early)) := by
  funext i
  rw [WindowRun.env, hI.tx.size]

theorem WindowInv.empty (hI : WindowInv B b s) (hB : B < 2 ^ 31) : rqNbytesEmpty s.fs.rx = B - rdmaQueuePad := by
  rw [hI.tx.empty hB, Nat.sub_self, Nat.sub_zero]

/-- What a packet hands out: a notification `arx`, and an acknowledgement with the window
computed from the receive queue. -/
theorem packetOut_spec (fs : FlowSt) {arx : List FlowEffect} (id oldAvail newAvail : BitVec 32) (t : Bool)
    (p : RxPacket) (ts : BitVec 32) (hw : arx.filterMap FlowEffect.wnd? = []) :
    let out := arx ++ qmanMore fs id oldAvail newAvail ++ if t then [.ack (flowTxAck p fs.txNextSeq fs.rxNextSeq
      (BitVec.ofNat 32 (rqNbytesEmpty fs.rx)) fs.txNextTs ts)] else []
    (out.map FlowEffect.rxBump).sum = (arx.map FlowEffect.rxBump).sum ∧
      ∀ w ∈ out.filterMap FlowEffect.wnd?, t = true ∧ w.toNat ≤ rqNbytesEmpty fs.rx := by
  simp only [map_append, sum_append, filterMap_append, qmanMore_rxBump, qmanMore_wnd, hw,
    nil_append]
  cases t with
  | false => exact ⟨rfl, fun w h => absurd h not_mem_nil⟩
  | true =>
    refine ⟨rfl, fun w h => ⟨rfl, ?_⟩⟩
    obtain rfl := mem_singleton.mp h
    refine Nat.le_trans (toNat_wnd_le _) ?_
    rw [BitVec.toNat_ofNat]
    exact Nat.mod_le _ _

theorem packetUnlock_cases {st : PacketState} {q' : RdmaQueue} {env' : RdmaEnv}
    (hq : (rqNflush st.fs.rx st.rxBump.toNat).eval st.env = some (q', (st.rxBump.toNat : Int), env'))
    {flowId ts rxPos oldAvail txBump : BitVec 32} {p : RxPacket} {r : FlowResult}
    (hr : packetUnlock st flowId p ts rxPos oldAvail txBump = some r) :
    (r.fs.rx = q' ∨ st.rxBump = 0 ∧ r.fs.rx = st.fs.rx) ∧
    (r.out.map FlowEffect.rxBump).sum = st.rxBump.toNat ∧
    ∀ w ∈ r.out.filterMap FlowEffect.wnd?, st.triggerAck = true ∧ w.toNat ≤ rqNbytesEmpty r.fs.rx := by
  obtain ⟨rx, arx, rfl, ⟨⟨_, he⟩, rfl⟩ | ⟨h0, rfl, rfl⟩⟩ := packetUnlock_eq hr
  · rw [hq] at he
    cases he
    exact ⟨.inl rfl, packetOut_spec _ _ _ _ _ _ _ rfl⟩
  · refine ⟨.inr ⟨h0, rfl⟩, ?_⟩
    rw [h0]
    exact packetOut_spec _ _ _ _ _ _ _ rfl

theorem packet_inv (hB : B < 2 ^ 31) (hI : WindowInv B b s) {p : RxPacket} {flowId ts : BitVec 32} {early late : Nat}
    (hok : windowOk s (.packet p ts early late)) {r : FlowResult}
    (hr : fastFlowsPacket s.fs flowId p ts (s.env early) = some r) :
    WindowInv B b ({ s with dequeued := s.take early }.after r late) := by
  have hI' := hI.dequeue early
  rcases fastFlowsPacket_cases hr with ⟨-, hfs, -, hout⟩ | ⟨st, txBump, hst, hun⟩
  · have hrx : r.fs.rx = s.fs.rx := hfs.elim (congrArg FlowSt.rx) (congrArg FlowSt.rx)
    exact hI'.silent hrx (by rw [hout]; rfl) (by rw [hout]; rfl) late
  · obtain ⟨hfit, hroom⟩ := hok st hst
    rw [hI.env early] at hst
    obtain ⟨q', env', hq, htx⟩ := packetReceived_flush hB hI.tx (Nat.min_le_right _ _) hst hfit
    obtain ⟨hrx, hbump, hw⟩ := packetUnlock_cases hq hun
    have htx' : TxOf B b r.fs.rx (s.flushed + st.rxBump.toNat) (s.flushed + st.rxBump.toNat) := by
      rcases hrx with hrx | ⟨h0, hrx⟩
      · rw [hrx]; exact htx
      · have := (packetReceived_enqueued hB hI.tx hst).1.tx
        rw [hrx]
        rw [h0] at this ⊢
        exact this
    rw [hI.tx.size] at hroom
    have hpad := hI.tx.pad_le
    refine hI'.after hbump htx' fun w hmem => ?_
    obtain ⟨ht, hle⟩ := hw w hmem
    rw [htx'.empty hB] at hle
    exact ⟨by omega, hroom ht⟩

theorem windowStep_inv (hB : B < 2 ^ 31) (hpad : rdmaQueuePad < B) (flowId : BitVec 32) (s : WindowRun) (op : WindowOp)
    (s' : WindowRun) (hI : WindowInv B b s) (hok : windowOk s op) (hs : windowStep flowId s op = some s') :
    WindowInv B b s' := by
  have hempty := hI.empty hB
  cases op with
  | packet p ts early late =>
    obtain ⟨r, hr, rfl⟩ := Option.map_eq_some_iff.mp hs
    exact packet_inv hB hI hok hr
  | bump bumpSeq txBump flags ts =>
    cases hs
    have hrx := (fastFlowsBump_same s.fs flowId bumpSeq txBump flags ts).rx
    obtain ⟨h₁, h₂⟩ := fastFlowsBump_silent s.fs flowId bumpSeq txBump flags ts (by omega)
    exact hI.silent hrx h₁ h₂ 0
  | qman ctxId newCore ts =>
    obtain ⟨r, hr, rfl⟩ := Option.map_eq_some_iff.mp hs
    have hrx := (fastFlowsQman_same hr).rx
    simp only [windowOk, hI.tx.size] at hok
    obtain ⟨h₁, h₂⟩ := fastFlowsQman_wnd hr
    refine hI.after h₁ (by rw [hrx]; exact hI.tx) fun w hw => ⟨?_, ?_⟩
    · have := h₂ w hw
      omega
    · have := hI.dequeued
      rwa [Nat.add_zero, Nat.add_zero, Nat.min_eq_left this]
  | retransmit =>
    cases hs
    have hrx := (fastFlowsRetransmit_same s.fs flowId).rx
    refine hI.silent hrx ?_ ?_ 0 <;> simp only [fastFlowsRetransmit] <;> split <;>
      simp [qmanMore_rxBump, qmanMore_wnd]
  | dequeue n =>
    cases hs
    exact hI.dequeue n
  | setTx q =>
    cases hs
    exact { hI with }

theorem WindowInv.flushWhole (hB : B < 2 ^ 31) (hI : WindowInv B b s) {p : RxPacket} {ts : BitVec 32}
    {early late : Nat} (hok : windowOk s (.packet p ts early late)) : FlushWhole s.fs p ts (s.env early) := by
  intro st hst
  have hst' : packetReceived s.fs p ts (fun _ => (0, pos B (s.take early))) = some st := by
    rw [← hI.env early]
    exact hst
  obtain ⟨q', env', hq, -⟩ := packetReceived_flush hB hI.tx (Nat.min_le_right _ _) hst' (hok st hst).1
  rw [hq]
  rfl

end Steps

theorem windowStart_inv {fs : FlowSt} (h : WindowFresh fs) :
    ∃ b, WindowInv fs.rx.bufferSize b (windowStart fs) ∧ fs.rx.bufferSize < 2 ^ 31 := by
  obtain ⟨addr, mem, nbytes, lkey, rkey, q, hq, addr', mem', lkey', rkey', q', hq', hrx⟩ := h.alloc
  obtain ⟨-, hlt, hq⟩ := rqAllocateInPlace_some hq
  have hpad := h.pad
  have hB : fs.rx.bufferSize = q.bufferSize := by rw [hrx]; rfl
  rw [hB] at hpad
  rw [hB]
  refine ⟨q'.endpoints.rx.addr, ⟨?_, Nat.le_refl _, fun a ha => absurd ha not_mem_nil⟩, hlt⟩
  simp only [windowStart, hrx]
  rw [hq]
  exact ⟨rfl, rfl, rfl, rfl, rfl, (pos_zero _).symm, (pos_zero _).symm, Nat.le_refl _,
    Nat.add_le_add_left (Nat.le_of_lt hpad) 0⟩

/-- In every run of a flow from before its first packet in which there is room for a window
when one is advertised and the bytes of packets fit, every window advertised was free in the
application's queue, and the bytes of a packet that fits are flushed whole. -/
theorem window_honest {fs : FlowSt} (hfresh : WindowFresh fs) (flowId : BitVec 32) (ops : List WindowOp)
    (hok : Run.All (windowStep flowId) windowOk (windowStart fs) ops) :
    ∀ s, Run.exec (windowStep flowId) (windowStart fs) ops = some s →
      s.Honest fs.rx.bufferSize ∧
      ∀ p ts early late, windowOk s (.packet p ts early late) → FlushWhole s.fs p ts (s.env early) := by
  intro s hs
  obtain ⟨b, hI, hB⟩ := windowStart_inv hfresh
  have hI' := Run.exec_inv (windowStep_inv hB hfresh.pad flowId) hI hok hs
  exact ⟨hI'.honest, fun p ts early late h => hI'.flushWhole hB h⟩

/-- A flow whose receive queue is paired with a queue of the application, both new. -/
def pairedFlow (size : Nat) : FlowSt :=
  { zeroedFlow size 0 1000 with
    rx := (rqPairReceiver (zeroedQueue 4096 size) (zeroedQueue 12288 size).endpoints.rx 0).1 }

theorem windowFresh_paired : WindowFresh (pairedFlow 64) :=
  ⟨⟨4096, fun _ => 0, 152, 0, 0, _, rfl, 12288, fun _ => 0, 0, 0, _, rfl, rfl⟩, by decide⟩

/-- Three packets fill the ring once and a part of it again; the application reads each
before it is acknowledged. -/
theorem window_honest_read_at_once :
    WindowFresh (pairedFlow 64) ∧
    ∃ s, Run.exec (windowStep 0) (windowStart (pairedFlow 64))
        [.packet (.ofStream countingBytes 0 0 40 1000 56) 0 0 40, .packet (.ofStream countingBytes 0 40 24 1000 56) 0 0 24,
          .packet (.ofStream countingBytes 0 64 30 1000 56) 0 0 30] = some s ∧
      s.Honest 64 ∧ FlushWhole s.fs (.ofStream countingBytes 0 94 20 1000 56) 0 (s.env 0) := by
  refine ⟨windowFresh_paired, Run.exists_exec (by decide +kernel) fun s hs => ?_⟩
  obtain ⟨h₁, h₂⟩ := window_honest windowFresh_paired 0 _ (by decide +kernel) s hs
  have hok := Run.forall_exec (P := fun s => windowOk s (.packet (.ofStream countingBytes 0 94 20 1000 56) 0 0 20))
    (by decide +kernel) hs
  exact ⟨h₁, h₂ _ _ _ 20 hok⟩

/-- Forty bytes fill a queue of 64, and a window of 56 is advertised. Even if the application
has read them, the next packet, of 30 bytes and within the window, is flushed in two parts:
24 bytes up to the end of the ring and, because the second part starts again from the full
amount, 30 more. -/
theorem window_too_large :
    (¬ ∀ fs, WindowFresh fs → ∀ (flowId : BitVec 32) (ops : List WindowOp),
      ∀ s, Run.exec (windowStep flowId) (windowStart fs) ops = some s → s.Honest fs.rx.bufferSize) ∧
    ¬ ∀ fs, WindowFresh fs → ∀ (flowId : BitVec 32) (ops : List WindowOp) (p : RxPacket) (ts : BitVec 32),
      ∀ s, Run.exec (windowStep flowId) (windowStart fs) ops = some s →
        p.seqno = s.fs.rxNextSeq ∧ (∀ a ∈ s.adverts.getLast?, p.payloadBytes.toNat ≤ a.wnd.toNat) →
        FlushWhole s.fs p ts (s.env 0) := by
  refine ⟨fun h => ?_, fun h => ?_⟩
  · exact Run.not_forall_exec (by decide +kernel) (h (pairedFlow 64) windowFresh_paired 0
      [.packet (.ofStream countingBytes 0 0 40 1000 56) 0 0 0])
  · exact Run.not_forall_exec (by decide +kernel) (h (pairedFlow 64) windowFresh_paired 0
      [.packet (.ofStream countingBytes 0 0 40 1000 56) 0 0 40] (.ofStream countingBytes 0 40 30 1000 56) 0)

/-! ## Window updates -/

/-- No bump sends a segment with a window other than 0, from any state of a flow. -/
theorem window_never_updated (fs : FlowSt) (flowId : BitVec 32) (bumpSeq : BitVec 16) (txBump : BitVec 32)
    (flags : BitVec 8) (ts : BitVec 32) :
    ¬ ∃ seg, FlowEffect.segment seg ∈ (fastFlowsBump fs flowId bumpSeq txBump flags ts).out ∧ 0 < seg.wnd.toNat := by
  rintro ⟨seg, hseg, hwnd⟩
  have hw : seg.wnd ∈ (fastFlowsBump fs flowId bumpSeq txBump flags ts).out.filterMap FlowEffect.wnd? :=
    mem_filterMap.mpr ⟨_, hseg, rfl⟩
  obtain ⟨fs', old, new, ⟨-, e⟩ | ⟨-, -, t, ht, e⟩⟩ := fastFlowsBump_out fs flowId bumpSeq txBump flags ts
  · rw [e, qmanMore_wnd] at hw
    cases hw
  · rw [e, filterMap_append, qmanMore_wnd, nil_append] at hw
    rw [mem_singleton.mp hw, ht] at hwnd
    cases hwnd

/-- A flow, with the window of the last segment or acknowledgement sent. -/
structure AdvertRun where
  fs : FlowSt
  last : Option (BitVec 16)

/-- A call of the fast path, or one of the application's: bytes taken out of the receive
buffer, which both sides share, or a change of the transmit buffer. -/
inductive AdvertOp where
  | call (c : FlowCall)
  | dequeue (sz : Nat)
  | setTx (q : RdmaQueue)

def advertStep (flowId : BitVec 32) (s : AdvertRun) : AdvertOp → Option AdvertRun
  | .call c => (c.run s.fs flowId).map fun r => ⟨r.fs, (r.out.filterMap FlowEffect.wnd?).getLast? <|> s.last⟩
  | .dequeue sz => (rqTryDequeue s.fs.rx false sz).map fun d => { s with fs := { s.fs with rx := d.queue } }
  | .setTx q => some { s with fs := { s.fs with tx := q } }

/-- A bump that `fast_flows_bump` goes on with: not out of order, and if it closes
transmission, with a byte for the FIN. -/
def BumpTaken (fs : FlowSt) (bumpSeq : BitVec 16) (txBump : BitVec 32) (flags : BitVec 8) : Prop :=
  bumpStale fs bumpSeq = false ∧ (flags &&& atxFltxdone = atxFltxdone → fs.has flowstTxfin = false → txBump ≠ 0)
deriving Decidable

/-- 56 bytes arrive in a buffer with as much space, and the acknowledgement says that it is full. The
application takes all of them out and bumps: the peer is not told. -/
theorem window_not_updated :
    ¬ ∀ (flowId : BitVec 32) (fs : FlowSt) (ops : List AdvertOp) (s : AdvertRun),
      Run.exec (advertStep flowId) ⟨fs, none⟩ ops = some s → s.last = some 0 →
      ∀ (sz : Nat) (d : Dequeued), 0 < sz → rqTryDequeue s.fs.rx false sz = some d → d.rv = 0 →
      ∀ (bumpSeq : BitVec 16) (txBump : BitVec 32) (flags : BitVec 8) (ts : BitVec 32),
        BumpTaken s.fs bumpSeq txBump flags → tcpTxavail s.fs none = 0 →
        ∃ seg, FlowEffect.segment seg ∈
            (fastFlowsBump { s.fs with rx := d.queue } flowId bumpSeq txBump flags ts).out ∧ 0 < seg.wnd.toNat := by
  intro h
  obtain ⟨s, hs, hlast, htaken, hnone, d, hd, hrv, hsilent⟩ : ∃ s,
      Run.exec (advertStep 0) ⟨zeroedFlow 64 0 1000, none⟩
        [.call (.packet (.ofStream countingBytes 0 0 56 1000 56) 0 fun _ => (0, 0))] = some s ∧ s.last = some 0 ∧
      BumpTaken s.fs 1 0 0 ∧ tcpTxavail s.fs none = 0 ∧ ∃ d, rqTryDequeue s.fs.rx false 56 = some d ∧ d.rv = 0 ∧
        (fastFlowsBump { s.fs with rx := d.queue } 0 1 0 0 0).out = [] := by decide +kernel
  obtain ⟨seg, hseg, -⟩ := h 0 _ _ s hs hlast 56 d (by decide) hd hrv 1 0 0 0 htaken hnone
  rw [hsilent] at hseg
  cases hseg

end TasNic
