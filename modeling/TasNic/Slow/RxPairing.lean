import TasNic.Rdma.Queue

/-!
# The receive queue of a connection and its peer

A remote application asks for a connection with the address and the keys of its own receive queue, with which
the NIC's is to be paired. The request has 64 bits for the address, of which `conn_alloc` takes 32.
-/

namespace TasNic

/-- How `conn_alloc` fails to return: the queue is `NULL`, or the pairing that is asserted fails. -/
inductive PairStop where
  | null
  | unposted

/-- The fields `opaque_rx`, `lkey` and `rkey` that requests to open and to accept a connection have. -/
structure RxRequest where
  opaqueRx : BitVec 64
  lkey : BitVec 32
  rkey : BitVec 32

/-- The memory for the receive queue, and the keys of `tas_shm_mr`. -/
structure RxMemory where
  addr : Nat
  mem : Nat → Byte
  rxbufLen : BitVec 32
  lkey : BitVec 32
  rkey : BitVec 32

/-- `conn->rx` after `conn_alloc`; `rc` is the result of posting the pairing. -/
def connAllocRx (s : RxMemory) (rqAddr lkey rkey : BitVec 32) (rc : Int) : Except PairStop (Option RdmaQueue) :=
  let localLkey := if rqAddr = 0 then -1 else s.lkey
  let localRkey := if rqAddr = 0 then -1 else s.rkey
  let rx := rqAllocateInPlace s.addr s.mem (s.rxbufLen + rdmaQueueHdr) localLkey localRkey
  if rqAddr ≠ 0 then
    match rx with
    | none => .error .null
    | some q =>
      let (q, rv) := rqPairReceiver q ⟨rqAddr.toNat, 0, lkey, rkey⟩ rc
      if rv = 0 then .ok (some q) else .error .unposted
  else .ok rx

/-- `conn->rx` after `tcp_open`. -/
def tcpOpenRx (s : RxMemory) (req : RxRequest) (rc : Int) : Except PairStop (Option RdmaQueue) :=
  connAllocRx s (req.opaqueRx.setWidth 32) req.lkey req.rkey rc

/-- `conn->rx` after `tcp_accept`. -/
def tcpAcceptRx (s : RxMemory) (req : RxRequest) (rc : Int) : Except PairStop (Option RdmaQueue) :=
  connAllocRx s (req.opaqueRx.setWidth 32) req.lkey req.rkey rc

/-- The queue is paired with the one of the request, or not at all if that has none. -/
def RxRequest.PairedWith (req : RxRequest) (q : RdmaQueue) : Prop :=
  (req.opaqueRx ≠ 0 → q.endpoints.rx = ⟨req.opaqueRx.toNat, 0, req.lkey, req.rkey⟩) ∧
    (q.paired = false ↔ req.opaqueRx = 0)

/-- The queue of `conn_alloc` is paired with the address it takes. -/
theorem connAllocRx_ok {s : RxMemory} {a lkey rkey : BitVec 32} {rc : Int} {q : RdmaQueue}
    (h : connAllocRx s a lkey rkey rc = .ok (some q)) :
    (a ≠ 0 → q.endpoints.rx = ⟨a.toNat, 0, lkey, rkey⟩) ∧ (q.paired = false ↔ a = 0) := by
  simp only [connAllocRx] at h
  split at h
  · rename_i ha
    split at h
    · cases h
    · simp only [rqPairReceiver] at h
      split at h
      · cases h
      · cases h
        exact ⟨fun _ => rfl, fun h => Bool.noConfusion h, fun h => absurd h ha⟩
  · rename_i ha
    obtain ⟨-, -, e⟩ := rqAllocateInPlace_some (Except.ok.inj h)
    rw [e]
    exact ⟨fun h => absurd h ha, fun _ => Decidable.not_not.mp ha, fun _ => rfl⟩

/-- The receive queue is paired as the request says if its address has only 32 bits, and else not. -/
theorem connRx_paired_iff {s : RxMemory} {req : RxRequest} {rc : Int} {q : RdmaQueue}
    (h : tcpOpenRx s req rc = .ok (some q) ∨ tcpAcceptRx s req rc = .ok (some q)) :
    req.PairedWith q ↔ req.opaqueRx.toNat < 2 ^ 32 := by
  obtain ⟨hrx, hp⟩ := connAllocRx_ok (or_self_iff.mp h)
  constructor
  · rintro ⟨hrx', hp'⟩
    by_cases h0 : req.opaqueRx = 0
    · rw [h0]
      decide
    · have ha : req.opaqueRx.setWidth 32 ≠ 0 := fun e => h0 (hp'.mp (hp.mpr e))
      have hadd : req.opaqueRx.toNat = (req.opaqueRx.setWidth 32).toNat :=
        congrArg RdmaQueueEndpoint.addr ((hrx' h0).symm.trans (hrx ha))
      exact hadd ▸ BitVec.isLt _
  · intro hlt
    have hadd : (req.opaqueRx.setWidth 32).toNat = req.opaqueRx.toNat := by rw [BitVec.toNat_setWidth, Nat.mod_eq_of_lt hlt]
    have h0 : req.opaqueRx.setWidth 32 = 0 ↔ req.opaqueRx = 0 := by
      rw [← BitVec.toNat_inj, ← BitVec.toNat_inj, hadd]
      rfl
    rw [hadd] at hrx
    exact ⟨fun h => hrx fun e => h (h0.mp e), hp.trans h0⟩

/-- A receive queue of 4096 bytes in the NIC's memory. -/
def rxMemory4096 : RxMemory := ⟨0x10000, fun _ => 0, 4096, 1, 2⟩

theorem connRx_paired_low : ∃ q, tcpOpenRx rxMemory4096 ⟨0x5000, 7, 8⟩ 0 = .ok (some q) ∧
    RxRequest.PairedWith ⟨0x5000, 7, 8⟩ q :=
  ⟨_, rfl, (connRx_paired_iff (.inl (rfl : tcpOpenRx rxMemory4096 _ 0 = _))).mpr (by decide)⟩

/-- An address of the heap loses its upper half, and one that has no lower half is taken for none. -/
theorem connRx_truncated :
    (∃ q, tcpOpenRx rxMemory4096 ⟨0x7f0000001000, 7, 8⟩ 0 = .ok (some q) ∧ q.endpoints.rx.addr = 0x1000 ∧
      ¬ RxRequest.PairedWith ⟨0x7f0000001000, 7, 8⟩ q) ∧
    ∃ q, tcpAcceptRx rxMemory4096 ⟨0x7f0000000000, 7, 8⟩ 0 = .ok (some q) ∧ q.paired = false ∧
      ¬ RxRequest.PairedWith ⟨0x7f0000000000, 7, 8⟩ q := by
  refine ⟨⟨_, rfl, rfl, fun h => ?_⟩, ⟨_, rfl, rfl, fun h => ?_⟩⟩
  · have haddr := congrArg RdmaQueueEndpoint.addr (h.1 (by decide))
    exact absurd haddr (by decide)
  · exact absurd (h.2.mp rfl) (by decide)

end TasNic
