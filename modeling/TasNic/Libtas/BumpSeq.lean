import TasNic.Fast.FastFlows
import TasNic.Libtas.Conn

/-!
# The numbers of bumps

`fast_flows_bump` drops a bump that is older than the last one it accepted. Its comparisons are right
for numbers that are at most 16384 apart (`bumpStale_iff`). `conns_bump` numbers the bumps of a
connection one after the other, and no other call changes the next number (`SameBumps`).
-/

namespace TasNic

theorem bumpStale_iff {fs : FlowSt} {seq : BitVec 16} (h : (seq - fs.bumpSeq).toInt.natAbs ≤ 16384) :
    bumpStale fs seq = true ↔ (seq - fs.bumpSeq).toInt < 0 := by
  have hseq := seq.isLt; have hlast := fs.bumpSeq.isLt
  simp only [bumpStale, Bool.or_eq_true, Bool.and_eq_true, decide_eq_true_eq, ge_iff_le, gt_iff_lt, BitVec.le_def,
    BitVec.lt_def]
  rw [BitVec.toInt_eq_toNat_cond, BitVec.toNat_sub] at h ⊢
  split at h <;> omega

theorem fastFlowsBump_accepts {fs : FlowSt} {seq : BitVec 16} (h : bumpStale fs seq = false) (flowId txBump : BitVec 32)
    (flags : BitVec 8) (ts : BitVec 32) : (fastFlowsBump fs flowId seq txBump flags ts).fs.bumpSeq = seq := by
  rcases fastFlowsBump_fs fs flowId seq txBump flags ts with ⟨hs, -⟩ | ⟨-, e | e⟩
  · rw [h] at hs
    cases hs
  · rw [e]
  · rw [e]
    rfl

namespace Libtas

open Function List FlextcpContext

/-- The bumps of connection `c`, in their order. -/
def FlextcpContext.bumpsOf (s : FlextcpContext) (c : Nat) : List AtxConnupdate := s.atx.filter (·.conn == c)

/-- The bumps of every connection are numbered from 0 on, and the connection has the next number. -/
def FlextcpContext.Numbered (s : FlextcpContext) : Prop :=
  ∀ c, (s.bumpsOf c).map (·.bumpSeq) = (range (s.bumpsOf c).length).map (BitVec.ofNat 16) ∧
    (s.conns c).bumpSeq = BitVec.ofNat 32 (s.bumpsOf c).length

/-- Nothing is announced, and the next numbers stay. -/
structure SameBumps (s s' : FlextcpContext) : Prop where
  atx : s'.atx = s.atx
  seq : ∀ c, (s'.conns c).bumpSeq = (s.conns c).bumpSeq

section

variable {s s' s'' : FlextcpContext} {c : Nat} {x : FlextcpConnection} {env : RdmaEnv}

theorem SameBumps.refl (s : FlextcpContext) : SameBumps s s := ⟨rfl, fun _ => rfl⟩

theorem SameBumps.trans (h : SameBumps s s') (h' : SameBumps s' s'') : SameBumps s s'' :=
  ⟨h'.atx.trans h.atx, fun c => (h'.seq c).trans (h.seq c)⟩

theorem SameBumps.numbered (h : SameBumps s s') (hn : s.Numbered) : s'.Numbered := by
  intro c
  rw [bumpsOf, h.atx, h.seq]
  exact hn c

theorem sameBumps_setConn (hx : x.bumpSeq = (s.conns c).bumpSeq) : SameBumps s (s.setConn c x) := by
  refine ⟨rfl, fun d => ?_⟩
  by_cases hd : d = c
  · rw [hd, setConn_self, hx]
  · rw [setConn_of_ne _ _ hd]

theorem sameBumps_mark (s : FlextcpContext) (c : Nat) : SameBumps s (s.connMarkBump c) := by
  refine ⟨connMarkBump_atx .., fun d => ?_⟩
  obtain ⟨n, p, e⟩ := connMarkBump_conns s c d
  rw [e]

theorem sameBumps_setMark (hx : x.bumpSeq = (s.conns c).bumpSeq) : SameBumps s ((s.setConn c x).connMarkBump c) :=
  (sameBumps_setConn hx).trans (sameBumps_mark ..)

theorem sameBumps_allocated {r : Int} (h : s.Allocated c env s' r) : SameBumps s s' := by
  rcases h with ⟨rfl, -⟩ | ⟨q, n, env', v, m, -, rfl, -⟩
  · exact .refl _
  · exact sameBumps_setConn rfl

theorem sameBumps_pushtxeos {rv : Int} (h : s.flextcpConnPushtxeos c env = .ok (s', rv)) : SameBumps s s' := by
  obtain ⟨-, -, e | ⟨q, env', -, -, e⟩⟩ := flextcpConnPushtxeos_ok h <;> cases e
  · exact .refl _
  · exact sameBumps_setMark rfl

theorem sameBumps_connupdate {u : ArxConnupdate} {outn : Nat} {evs : List FlextcpEvent}
    (h : s.eventArxConnupdate u outn env = .ok (some (s', evs))) : SameBumps s s' := by
  rcases eventArxConnupdate_ok h with ⟨-, -, b, rfl⟩ | ⟨-, -, s₁, txEvs, b, hb, rfl, -⟩
  · exact sameBumps_setConn rfl
  · have h₁ : SameBumps s s₁ := by
      rcases bumpTx_ok hb with ⟨rfl, -⟩ | ⟨-, -, -, hpush, -⟩ | ⟨-, -, -, -, e⟩
      · exact .refl _
      · exact sameBumps_pushtxeos hpush
      · cases e
        exact sameBumps_setConn rfl
    exact h₁.trans (sameBumps_setConn rfl)

theorem sameBumps_close {r : Reserve} {p : FlextcpContext × Int} (h : s.flextcpConnectionClose c r = .ok p) :
    SameBumps s p.1 := by
  rw [flextcpConnectionClose] at h
  split at h
  · cases h
  · rename_i s₁ hrm
    obtain ⟨hatx, hconns⟩ := bumpRemove_ok hrm
    have h₁ : SameBumps s s₁ := ⟨hatx, fun d => by obtain ⟨n, b, e⟩ := hconns d; rw [e]⟩
    split at h <;> cases h
    · exact h₁
    · exact h₁.trans (sameBumps_setConn rfl)

/-- A turn of `conns_bump` uses the next number of the connection. -/
theorem FlextcpContext.Numbered.turn (h : s.Numbered) (ht : s.bumpTurn c env = .ok s') : s'.Numbered := by
  obtain ⟨q, n, env', -, -, rfl⟩ := bumpTurn_ok ht
  intro d
  obtain ⟨hnum, hseq⟩ := h d
  by_cases hd : d = c
  · subst hd
    simp [bumpsOf] at hnum hseq
    simp [bumpsOf, setConn, hnum, hseq, range_succ, BitVec.ofNat_add]
  · simpa [bumpsOf, setConn, hd, Ne.symm hd] using h d

theorem FlextcpContext.Numbered.connsBump {turns : List BumpTurn} (h : s.Numbered) (hs : s.connsBump turns = .ok s') :
    s'.Numbered := by
  induction turns generalizing s with
  | nil =>
    rw [connsBump_nil_ok hs]
    exact h
  | cons t turns ih =>
    rcases connsBump_cons_ok hs with ⟨-, rfl⟩ | ⟨c, env, s₁, -, hturn, hs, -⟩
    · exact h
    · exact ih (h.turn hturn) hs

end

theorem sameBumps_step {s s' : LibtasRun} {op : LibtasOp} (hop : ∀ turns, op ≠ .bump turns) (hs : libtasStep s op = some s') :
    SameBumps s.ctx s'.ctx := by
  obtain ⟨-, hcall⟩ := libtasStep_some hs
  cases op with
  | txAlloc c len env =>
    obtain ⟨r, hr, rfl⟩ := Run.map_ok hcall
    exact sameBumps_allocated (flextcpConnectionTxAlloc_ok hr)
  | txAlloc2 c len env =>
    obtain ⟨r, hr, rfl⟩ := Run.map_ok hcall
    exact sameBumps_allocated (flextcpConnectionTxAlloc2_ok hr)
  | txSend c len env =>
    obtain ⟨r, hr, rfl⟩ := Run.map_ok hcall
    rcases flextcpConnectionTxSend_ok hr with e | ⟨q, env', v, -, -, e⟩ <;> rw [e]
    · exact .refl _
    · exact sameBumps_setMark rfl
  | rxDone c len =>
    obtain ⟨r, hr, rfl⟩ := Run.map_ok hcall
    rcases flextcpConnectionRxDone_ok hr with e | ⟨q, v, e | e⟩ <;> rw [e]
    · exact .refl _
    · exact sameBumps_setConn rfl
    · exact sameBumps_setMark rfl
  | txClose c env =>
    obtain ⟨r, hr, rfl⟩ := Run.map_ok hcall
    rcases flextcpConnectionTxClose_ok hr with e | ⟨-, rv, hpush⟩
    · rw [e]
      exact .refl _
    · refine SameBumps.trans ?_ (sameBumps_pushtxeos hpush)
      exact sameBumps_setConn rfl
  | close c r =>
    obtain ⟨p, hp, rfl⟩ := Run.map_ok hcall
    exact sameBumps_close hp
  | update u outn env =>
    obtain ⟨r, hr, rfl⟩ := Run.map_ok hcall
    cases r with
    | none => exact .refl _
    | some r => exact sameBumps_connupdate hr
  | bump turns => exact absurd rfl (hop turns)
  | nicTx c len =>
    rw [libtasCall] at hcall
    split at hcall <;> cases hcall
    exact sameBumps_setConn rfl
  | connOpened | connClosed | nicRx =>
    cases hcall
    exact sameBumps_setConn rfl

/-- Every step keeps the numbers right. -/
theorem numbered_step {s s' : LibtasRun} {op : LibtasOp} (h : s.ctx.Numbered) (hs : libtasStep s op = some s') :
    s'.ctx.Numbered := by
  by_cases hop : ∃ turns, op = .bump turns
  · obtain ⟨turns, rfl⟩ := hop
    obtain ⟨ctx, hr, rfl⟩ := Run.map_ok (libtasStep_some hs).2
    exact h.connsBump hr
  · exact (sameBumps_step (fun turns e => hop ⟨turns, e⟩) hs).numbered h

/-- `fs k` is the flow when bump `k` arrives. Other calls of the fast path in between do not change the
number of the last bump. -/
def Arrive (fs : Nat → FlowSt) (us : List AtxConnupdate) : Prop :=
  (fs 0).bumpSeq = 0 ∧ ∀ k u, us[k]? = some u → ∃ flowId ts, (fs (k + 1)).bumpSeq =
    (fastFlowsBump (fs k) flowId u.bumpSeq u.txBump (if u.txDone then atxFltxdone else 0) ts).fs.bumpSeq

/-- By induction on the bumps: the last number accepted is the one before. -/
theorem FlextcpContext.Numbered.accepted {s : FlextcpContext} (h : s.Numbered) {c : Nat} {fs : Nat → FlowSt}
    (ha : Arrive fs (s.bumpsOf c)) {k : Nat} {u : AtxConnupdate} (hu : (s.bumpsOf c)[k]? = some u) :
    bumpStale (fs k) u.bumpSeq = false ∧ (fs (k + 1)).bumpSeq = BitVec.ofNat 16 k := by
  have hnum : u.bumpSeq = BitVec.ofNat 16 k := by
    obtain ⟨hk, rfl⟩ := List.getElem?_eq_some_iff.mp hu
    have := congrArg (·[k]?) (h c).1
    simpa [hk] using this
  have hnew : (u.bumpSeq - (fs k).bumpSeq).toInt = 0 ∨ (u.bumpSeq - (fs k).bumpSeq).toInt = 1 := by
    cases k with
    | zero =>
      rw [hnum, ha.1]
      exact .inl rfl
    | succ k =>
      obtain ⟨v, hv⟩ : ∃ v, (s.bumpsOf c)[k]? = some v := by
        have hk := (List.getElem?_eq_some_iff.mp hu).1
        exact ⟨_, List.getElem?_eq_getElem (Nat.lt_of_succ_lt hk)⟩
      rw [hnum, (h.accepted ha hv).2, BitVec.ofNat_add, BitVec.add_comm, BitVec.add_sub_cancel]
      exact .inr rfl
  have hfresh : bumpStale (fs k) u.bumpSeq = false := by
    rw [Bool.eq_false_iff, ne_eq, bumpStale_iff (by omega)]
    omega
  obtain ⟨flowId, ts, e⟩ := ha.2 k u hu
  exact ⟨hfresh, by rw [e, fastFlowsBump_accepts hfresh, hnum]⟩

end Libtas

open Libtas

/-- For numbers at most 16384 apart a bump is accepted exactly if it is not older than the last one that
was, and one that is older changes nothing. In every run of libTAS the bumps of a connection, taken in
their order, are all accepted. -/
theorem bump_filter_exact :
    (∀ (fs : FlowSt) (seq : BitVec 16), (seq - fs.bumpSeq).toInt.natAbs ≤ 16384 →
      (bumpStale fs seq = false ↔ 0 ≤ (seq - fs.bumpSeq).toInt) ∧ ∀ (flowId txBump : BitVec 32) (flags : BitVec 8) ts,
        (bumpStale fs seq = false → (fastFlowsBump fs flowId seq txBump flags ts).fs.bumpSeq = seq) ∧
        (bumpStale fs seq = true → fastFlowsBump fs flowId seq txBump flags ts = ⟨fs, -1, []⟩)) ∧
    ∀ (num : Nat) (status : Nat → ConnState) (rx tx : Nat → RdmaQueue) (ops : List LibtasOp) (s : LibtasRun),
      Run.exec libtasStep (.init num status rx tx) ops = some s → ∀ (c : Nat) (fs : Nat → FlowSt),
        Arrive fs (s.ctx.bumpsOf c) → ∀ k u, (s.ctx.bumpsOf c)[k]? = some u → bumpStale (fs k) u.bumpSeq = false := by
  refine ⟨fun fs seq h => ⟨?_, fun flowId txBump flags ts => ⟨fun hs => ?_, fun hs => if_pos hs⟩⟩,
    fun num status rx tx ops s hs c fs ha k u hu => ?_⟩
  · rw [Bool.eq_false_iff, ne_eq, bumpStale_iff h, Int.not_lt]
  · exact fastFlowsBump_accepts hs ..
  · have hops : Run.All libtasStep (fun _ _ => True) (.init num status rx tx) ops := .of_forall fun _ _ => trivial
    have hinv : s.ctx.Numbered := Run.exec_inv (I := fun s => s.ctx.Numbered) (fun _ _ _ h _ hs => numbered_step h hs)
      (fun c => ⟨rfl, rfl⟩) hops hs
    exact (hinv.accepted ha hu).1

/-- A bump behind the wrap is accepted, and the one before it is not any more; two bumps of a run are. -/
theorem bump_filter_exact_wrapped :
    bumpStale { zeroedFlow 64 0 0 with bumpSeq := 65530 } 3 = false ∧
    bumpStale { zeroedFlow 64 0 0 with bumpSeq := 3 } 65530 ≠ false ∧
    ∃ s, Run.exec libtasStep (.init 1 (fun _ => .opened) (fun _ => zeroedQueue 0 100) fun _ => zeroedQueue 500 100)
      [.txAlloc 0 10 rdmaOk, .txSend 0 10 rdmaOk, .bump [.room rdmaOk], .txAlloc 0 20 rdmaOk, .txSend 0 20 rdmaOk,
        .bump [.room rdmaOk]] = some s ∧ (s.ctx.bumpsOf 0).map (·.bumpSeq) = [0, 1] ∧
      ∀ fs, Arrive fs (s.ctx.bumpsOf 0) → ∀ k u, (s.ctx.bumpsOf 0)[k]? = some u → bumpStale (fs k) u.bumpSeq = false := by
  refine ⟨(bump_filter_exact.1 _ _ (by decide)).1.mpr (by decide),
    fun h => absurd ((bump_filter_exact.1 _ _ (by decide)).1.mp h) (by decide),
    Run.exists_exec (by decide +kernel) fun s hs => ⟨?_, fun fs => bump_filter_exact.2 _ _ _ _ _ s hs 0 fs⟩⟩
  exact Run.forall_exec (P := fun s => (s.ctx.bumpsOf 0).map (·.bumpSeq) = [0, 1]) (by decide +kernel) hs

end TasNic
