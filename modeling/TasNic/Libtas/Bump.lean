import TasNic.Libtas.Conn

/-!
# The pending list of a context

`FlextcpContext.Bumps s l`: the connections that wait to be announced to the fast path are `l`.
`BumpCareful` rules out four mistakes: closing the only pending connection leaves `bump_pending_last`
behind; a close that fails for want of room has already taken the connection off the list; `conns_bump`
takes a connection off the list that it has flushed in part; and calls on a connection that is not open
put it on the list.
-/

namespace TasNic.Libtas

open Function IdxList List FlextcpContext

namespace FlextcpContext

variable {s s' : FlextcpContext} {l : List Nat} {c d : Nat}

theorem bumpNext_setConn (s : FlextcpContext) (c : Nat) (x : FlextcpConnection) :
    (s.setConn c x).bumpNext = update s.bumpNext c x.bumpNext := by
  funext d
  by_cases hd : d = c
  · subst hd
    rw [bumpNext, setConn_self, update_self]
  · rw [bumpNext, setConn_of_ne s x hd, update_of_ne hd, bumpNext]

/-- The pending list is `l`. -/
structure Bumps (s : FlextcpContext) (l : List Nat) : Prop where
  fifo : Fifo s.bumpNext s.bumpPendingFirst s.bumpPendingLast l
  mem : ∀ c, c ∈ l ↔ (s.conns c).bumpPending = true
  below : ∀ c ∈ l, c < s.num

theorem Bumps.setConn (h : s.Bumps l) {x : FlextcpConnection} (hn : x.bumpNext = s.bumpNext c)
    (hp : x.bumpPending = (s.conns c).bumpPending) : (s.setConn c x).Bumps l where
  fifo := by
    rw [bumpNext_setConn, hn, update_eq_self]
    exact h.fifo
  mem d := by
    by_cases hd : d = c
    · subst hd
      rw [h.mem, setConn_self, hp]
    · rw [h.mem, setConn_of_ne s x hd]
  below := h.below

/-! ## Marking -/

theorem Bumps.fifo_mark (h : s.Bumps l) (hp : (s.conns c).bumpPending = false) :
    Fifo (s.connMarkBump c).bumpNext (s.connMarkBump c).bumpPendingFirst (s.connMarkBump c).bumpPendingLast (l ++ [c]) := by
  have hc : c ∉ l := fun hmem => by simp [(h.mem c).mp hmem] at hp
  have hf := h.fifo
  rw [connMarkBump, if_neg (by simp [hp])]
  generalize hs₁ : s.setConn c { s.conns c with bumpNext := none, bumpPrev := s.bumpPendingLast, bumpPending := true } = s₁
  have hn : s₁.bumpNext = update s.bumpNext c none := by rw [← hs₁, bumpNext_setConn]
  have hfirst : s₁.bumpPendingFirst = s.bumpPendingFirst := by rw [← hs₁]; rfl
  cases hq : s.bumpPendingLast with
  | some q =>
    rw [hq] at hf
    show Fifo (s₁.setConn q { s₁.conns q with bumpNext := some c }).bumpNext s₁.bumpPendingFirst (some c) (l ++ [c])
    rw [bumpNext_setConn, hn, hfirst]
    exact hf.append hc
  | none =>
    rw [hq] at hf
    show Fifo s₁.bumpNext (some c) (some c) (l ++ [c])
    rw [hn]
    exact hf.append_nil

theorem Bumps.mark (h : s.Bumps l) (hc : c < s.num) :
    ∃ l', (s.connMarkBump c).Bumps l' ∧ ∀ d, d ∈ l' ↔ d = c ∨ d ∈ l := by
  cases hp : (s.conns c).bumpPending with
  | true =>
    have hmem := (h.mem c).mpr hp
    refine ⟨l, ?_, fun d => ⟨.inr, fun hd => hd.elim (fun e => e ▸ hmem) id⟩⟩
    rw [connMarkBump, if_pos hp]
    exact h
  | false =>
    have hmem : ∀ d, d ∈ l ++ [c] ↔ d = c ∨ d ∈ l := fun d => by simp [or_comm]
    refine ⟨l ++ [c], ⟨h.fifo_mark hp, fun d => ?_, fun d hd => ?_⟩, hmem⟩
    · rw [hmem]
      obtain ⟨n, p, e⟩ := connMarkBump_conns s c d
      simp [e, h.mem d]
    · rw [connMarkBump_num]
      rcases (hmem d).mp hd with rfl | hd
      · exact hc
      · exact h.below d hd

/-! ## Taking off -/

theorem Bumps.remove (h : s.Bumps l) (hp : (s.conns c).bumpPending = true)
    (honly : ¬ (s.bumpPendingFirst = some c ∧ s.bumpPendingLast = some c)) :
    ∃ s', s.bumpRemove c = .ok s' ∧ s'.Bumps (l.erase c) ∧ s'.conns c = { s.conns c with bumpPending := false } ∧
      ∀ d, d ≠ c → ∃ n, s'.conns d = { s.conns d with bumpNext := n } := by
  have hnd := h.fifo.chain.nodup
  obtain ⟨l₁, l₂, rfl⟩ := append_of_mem ((h.mem c).mpr hp)
  have hc₁ : c ∉ l₁ := fun hm => (nodup_append.mp hnd).2.2 c hm c (mem_cons_self ..) rfl
  have herase : (l₁ ++ c :: l₂).erase c = l₁ ++ l₂ := by rw [erase_append_right _ hc₁, erase_cons_head]
  have hmem : ∀ d, d ∈ l₁ ++ l₂ ↔ d ≠ c ∧ (s.conns d).bumpPending = true := fun d => by
    rw [← herase, hnd.mem_erase_iff, h.mem d]
  have hbelow : ∀ d ∈ l₁ ++ l₂, d < s.num := fun d hd => h.below d ((h.mem d).mpr ((hmem d).mp hd).2)
  rw [herase, bumpRemove, hp]
  generalize hs₁ : s.setConn c { s.conns c with bumpPending := false } = s₁
  have hn : s₁.bumpNext = s.bumpNext := by
    rw [← hs₁, bumpNext_setConn]
    exact update_eq_self ..
  have hself : s₁.conns c = { s.conns c with bumpPending := false } := by rw [← hs₁, setConn_self]
  have hother : ∀ d, d ≠ c → s₁.conns d = s.conns d := fun d hd => by rw [← hs₁, setConn_of_ne s _ hd]
  have hfst : s₁.bumpPendingFirst = s.bumpPendingFirst := by rw [← hs₁]; rfl
  have hnum : s₁.num = s.num := by rw [← hs₁]; rfl
  simp only [Bool.not_true, Bool.false_eq_true, if_false]
  rcases eq_nil_or_concat l₁ with rfl | ⟨l₀, q, rfl⟩
  · -- the first connection, behind which there is another
    have hfirst : s.bumpPendingFirst = some c := h.fifo.chain.1
    have hnext : s.bumpNext c ≠ none := fun e => honly ⟨hfirst, h.fifo.last_of_next e⟩
    have hpop := Fifo.pop (l := l₂) h.fifo
    rw [if_neg hnext] at hpop
    rw [if_pos hfirst]
    refine ⟨_, rfl, ⟨?_, fun d => ?_, ?_⟩, hself, fun d hd => ⟨_, hother d hd⟩⟩
    · subst hs₁
      exact hn ▸ hpop
    · rw [hmem]
      by_cases hd : d = c
      · subst hd
        simp [hself]
      · simp [hd, hother d hd]
    · simpa only [hnum] using hbelow
  · simp only [concat_eq_append, append_assoc, singleton_append] at h hnd hc₁ hmem hbelow ⊢
    have hqc : q ≠ c := fun e => hc₁ (by simp [e])
    have hfirst : s.bumpPendingFirst ≠ some c := by
      rw [h.fifo.chain.head_eq]
      cases l₀ with
      | nil => simp [hqc]
      | cons b l₀ => exact fun e => hc₁ (by simp [Option.some.inj e])
    have hlen : (l₀ ++ q :: c :: l₂).length < s.num + 1 := Chains.length_lt_of_below hnd h.below
    rw [if_neg hfirst, Chains.find_eq h.fifo.chain (fun _ _ => rfl) hlen, Chains.find_pred h.fifo.chain]
    refine ⟨_, rfl, ⟨?_, fun d => ?_, ?_⟩, ?_, fun d hd => ?_⟩
    · show Fifo (s₁.setConn q { s₁.conns q with bumpNext := s.bumpNext c }).bumpNext s₁.bumpPendingFirst
        (if s.bumpNext c = none then some q else s.bumpPendingLast) (l₀ ++ q :: l₂)
      rw [bumpNext_setConn, hn, hfst]
      exact h.fifo.remove
    · rw [hmem]
      by_cases hdc : d = c
      · subst hdc
        simp [setConn_of_ne _ _ (Ne.symm hqc), hself]
      · by_cases hdq : d = q
        · subst hdq
          simp [hdc, hother d hdc]
        · simp [hdc, setConn_of_ne _ _ hdq, hother d hdc]
    · simpa only [setConn_num, hnum] using hbelow
    · exact (setConn_of_ne _ _ (Ne.symm hqc)).trans hself
    · by_cases hdq : d = q
      · subst hdq
        exact ⟨s.bumpNext c, by simp [hother d hd]⟩
      · exact ⟨_, (setConn_of_ne _ _ hdq).trans (hother d hd)⟩

theorem Bumps.bumpRemove (h : s.Bumps l) (honly : ¬ (s.bumpPendingFirst = some c ∧ s.bumpPendingLast = some c)) :
    ∃ s' l', s.bumpRemove c = .ok s' ∧ s'.Bumps l' ∧ s'.conns c = { s.conns c with bumpPending := false } ∧
      ∀ d, d ≠ c → ∃ n, s'.conns d = { s.conns d with bumpNext := n } := by
  cases hp : (s.conns c).bumpPending with
  | true =>
    obtain ⟨s', hs, hb, hself, hother⟩ := h.remove hp honly
    exact ⟨s', _, hs, hb, hself, hother⟩
  | false =>
    refine ⟨s, l, ?_, h, ?_, fun d _ => ⟨_, rfl⟩⟩
    · rw [FlextcpContext.bumpRemove, hp]
      rfl
    · rw [← hp]

theorem Bumps.turn {env : RdmaEnv} (h : s.Bumps (c :: l)) (hs : s.bumpTurn c env = .ok s') : s'.Bumps l := by
  obtain ⟨q, n, env', -, -, rfl⟩ := bumpTurn_ok hs
  have hnd := nodup_cons.mp h.fifo.chain.nodup
  refine ⟨?_, fun d => ?_, fun d hd => h.below d (mem_cons_of_mem _ hd)⟩
  · have hn : (s.setConn c { s.conns c with
        tx := q, txbBump := (s.conns c).txbBump - BitVec.ofInt 32 n, rxbBump := 0
        bumpSeq := (s.conns c).bumpSeq + 1, bumpPending := false }).bumpNext = s.bumpNext := by
      rw [bumpNext_setConn]
      exact update_eq_self ..
    exact hn.symm ▸ h.fifo.pop
  · by_cases hd : d = c
    · subst hd
      simp [hnd.1]
    · simp [setConn_of_ne _ _ hd, ← h.mem d, hd]

end FlextcpContext

/-! ## The invariant -/

/-- Nothing was sent on the connection yet. -/
structure FlextcpConnection.Quiet (x : FlextcpConnection) : Prop where
  pending : x.bumpPending = false
  txbBump : x.txbBump = 0
  txeos : x.flags.txeos = false

/-- A pending connection is open, and an open connection with bytes to announce is pending. -/
structure FlextcpConnection.Announced (x : FlextcpConnection) (opening closeReq : Bool) : Prop where
  status : x.bumpPending = true → x.status = .opened
  pending : x.status = .opened → x.txbBump ≠ 0 → x.bumpPending = true
  opening : opening = true → x.Quiet ∧ x.status ≠ .opened
  closing : closeReq = true → x.bumpPending = false ∧ (x.status = .opened → x.Quiet)

theorem FlextcpConnection.Announced.congr {x x' : FlextcpConnection} {o cl : Bool} (h : x.Announced o cl)
    (hp : x'.bumpPending = x.bumpPending) (hst : x'.status = x.status) (htx : x'.txbBump = x.txbBump)
    (hf : x'.flags.txeos = x.flags.txeos) : x'.Announced o cl := by
  have hq : x.Quiet → x'.Quiet := fun hq => ⟨hp.trans hq.pending, htx.trans hq.txbBump, hf.trans hq.txeos⟩
  refine ⟨?_, ?_, ?_, ?_⟩
  · rw [hp, hst]
    exact h.status
  · rw [hp, hst, htx]
    exact h.pending
  · rw [hst]
    exact fun ho => ⟨hq (h.opening ho).1, (h.opening ho).2⟩
  · rw [hp, hst]
    exact fun hc => ⟨(h.closing hc).1, fun hs => hq ((h.closing hc).2 hs)⟩

/-- The pending list is `l`, and exactly the connections that it should have are on it. -/
structure LibtasRun.BumpInv (s : LibtasRun) (l : List Nat) : Prop where
  bumps : s.ctx.Bumps l
  announced : ∀ c, (s.ctx.conns c).Announced (s.opening c) (s.closeReq c)

namespace LibtasRun

variable {s s' : LibtasRun} {l : List Nat} {c : Nat}

theorem BumpInv.setConn (h : s.BumpInv l) {x : FlextcpConnection} (hn : x.bumpNext = s.ctx.bumpNext c)
    (hp : x.bumpPending = (s.ctx.conns c).bumpPending) (hst : x.status = (s.ctx.conns c).status)
    (htx : x.txbBump = (s.ctx.conns c).txbBump) (hf : x.flags.txeos = (s.ctx.conns c).flags.txeos) :
    BumpInv { s with ctx := s.ctx.setConn c x } l where
  bumps := h.bumps.setConn hn hp
  announced d := by
    by_cases hd : d = c
    · subst hd
      simp only [setConn_self]
      exact (h.announced d).congr hp hst htx hf
    · simp only [setConn_of_ne _ _ hd]
      exact h.announced d

theorem BumpInv.setMark (h : s.BumpInv l) {x : FlextcpConnection} (hc : c < s.ctx.num) (hn : x.bumpNext = s.ctx.bumpNext c)
    (hp : x.bumpPending = (s.ctx.conns c).bumpPending) (hst : x.status = .opened)
    (ho : s.opening c = false) (hcl : s.closeReq c = false) :
    ∃ l', BumpInv { s with ctx := (s.ctx.setConn c x).connMarkBump c } l' := by
  obtain ⟨l', hb, -⟩ := (h.bumps.setConn hn hp).mark hc
  refine ⟨l', hb, fun d => ?_⟩
  obtain ⟨n, p, e⟩ := connMarkBump_conns (s.ctx.setConn c x) c d
  simp only [e]
  by_cases hd : d = c
  · subst hd
    simp only [setConn_self, ho, hcl]
    exact ⟨fun _ => hst, fun _ _ => by simp, nofun, nofun⟩
  · simp only [setConn_of_ne _ _ hd]
    exact (h.announced d).congr (by simp [hd]) rfl rfl rfl

def InUse (s : LibtasRun) (c : Nat) : Prop := (s.ctx.conns c).status = .opened ∧ s.closeReq c = false

theorem BumpInv.not_opening (h : s.BumpInv l) (hst : (s.ctx.conns c).status = .opened) : s.opening c = false :=
  Bool.eq_false_iff.mpr fun ho => ((h.announced c).opening ho).2 hst

variable {r : FlextcpContext × Int} {env : RdmaEnv} {ctx : FlextcpContext}

section

variable (h : s.BumpInv l)

include h

theorem BumpInv.rxDone {len : Nat} (hc : c < s.ctx.num) (hu : s.InUse c)
    (hr : s.ctx.flextcpConnectionRxDone c len = .ok r) : ∃ l', BumpInv { s with ctx := r.1 } l' := by
  rcases flextcpConnectionRxDone_ok hr with e | ⟨q, v, e | e⟩ <;> rw [e]
  · exact ⟨l, h⟩
  · exact ⟨l, h.setConn rfl rfl rfl rfl rfl⟩
  · exact h.setMark hc rfl rfl hu.1 (h.not_opening hu.1) hu.2

theorem BumpInv.txSend {len : Nat} (hc : c < s.ctx.num) (hu : s.InUse c)
    (hr : s.ctx.flextcpConnectionTxSend c len env = .ok r) : ∃ l', BumpInv { s with ctx := r.1 } l' := by
  rcases flextcpConnectionTxSend_ok hr with e | ⟨q, env', v, -, -, e⟩ <;> rw [e]
  · exact ⟨l, h⟩
  · exact h.setMark hc rfl rfl hu.1 (h.not_opening hu.1) hu.2

theorem BumpInv.pushtxeos (hc : c < s.ctx.num) (hu : s.InUse c)
    (hr : s.ctx.flextcpConnPushtxeos c env = .ok r) : ∃ l', BumpInv { s with ctx := r.1 } l' := by
  obtain ⟨-, -, rfl | ⟨q, env', -, -, rfl⟩⟩ := flextcpConnPushtxeos_ok hr
  · exact ⟨l, h⟩
  · exact h.setMark hc rfl rfl hu.1 (h.not_opening hu.1) hu.2

theorem BumpInv.setTxeos (hu : s.InUse c) :
    BumpInv { s with
      ctx := s.ctx.setConn c { s.ctx.conns c with flags := { (s.ctx.conns c).flags with txeos := true } } } l where
  bumps := h.bumps.setConn rfl rfl
  announced d := by
    by_cases hd : d = c
    · subst hd
      simp only [setConn_self, h.not_opening hu.1, hu.2]
      exact ⟨(h.announced d).status, (h.announced d).pending, nofun, nofun⟩
    · simp only [setConn_of_ne _ _ hd]
      exact h.announced d

theorem BumpInv.txClose (hc : c < s.ctx.num) (hu : s.InUse c)
    (hr : s.ctx.flextcpConnectionTxClose c env = .ok r) : ∃ l', BumpInv { s with ctx := r.1 } l' := by
  rcases flextcpConnectionTxClose_ok hr with e | ⟨-, rv, hpush⟩
  · rw [e]
    exact ⟨l, h⟩
  · refine (h.setTxeos hu).pushtxeos (r := (r.1, rv)) hc ⟨?_, hu.2⟩ hpush
    simp only [setConn_self]
    exact hu.1

theorem BumpInv.inUse_of_txeos (hst : (s.ctx.conns c).status = .opened)
    (hf : (s.ctx.conns c).flags.txeos = true) : s.InUse c := by
  refine ⟨hst, Bool.eq_false_iff.mpr fun hcl => ?_⟩
  have hq := ((h.announced c).closing hcl).2 hst
  rw [hq.txeos] at hf
  cases hf

theorem BumpInv.bumpTx {u : ArxConnupdate} {r : FlextcpContext × List FlextcpEvent}
    (hc : u.conn < s.ctx.num) (hst : (s.ctx.conns u.conn).status = .opened) (hr : s.ctx.bumpTx u env = .ok r) :
    ∃ l', BumpInv { s with ctx := r.1 } l' := by
  rcases bumpTx_ok hr with ⟨e, -, -⟩ | ⟨-, hf, -, hpush, -⟩ | ⟨-, -, -, -, rfl⟩
  · rw [e]
    exact ⟨l, h⟩
  · exact h.pushtxeos hc (h.inUse_of_txeos hst hf) hpush
  · exact ⟨l, h.setConn rfl rfl rfl rfl rfl⟩

theorem BumpInv.connupdate {u : ArxConnupdate} {outn : Nat} {evs : List FlextcpEvent}
    (hc : u.conn < s.ctx.num) (hr : s.ctx.eventArxConnupdate u outn env = .ok (some (ctx, evs))) :
    ∃ l', BumpInv { s with ctx := ctx } l' := by
  rcases eventArxConnupdate_ok hr with ⟨-, -, b, rfl⟩ | ⟨hst, -, s₁, txEvs, b, hb, rfl, -⟩
  · exact ⟨l, h.setConn rfl rfl rfl rfl rfl⟩
  · obtain ⟨l', h'⟩ := h.bumpTx hc hst hb
    exact ⟨l', BumpInv.setConn (s := { s with ctx := s₁ }) h' rfl rfl rfl rfl rfl⟩

theorem BumpInv.connOpened (ok : Bool) (ho : s.opening c = true) :
    BumpInv { s with
      ctx := s.ctx.setConn c { s.ctx.conns c with status := if ok then .opened else .closed }
      opening := update s.opening c false } l where
  bumps := h.bumps.setConn rfl rfl
  announced d := by
    by_cases hd : d = c
    · subst hd
      obtain ⟨hq, -⟩ := (h.announced d).opening ho
      simp only [setConn_self, update_self]
      refine ⟨fun hp => ?_, fun _ htx => absurd hq.txbBump htx, nofun, fun _ => ⟨hq.pending, fun _ => ⟨?_, ?_, ?_⟩⟩⟩
      · rw [hq.pending] at hp
        cases hp
      · exact hq.pending
      · exact hq.txbBump
      · exact hq.txeos
    · simp only [setConn_of_ne _ _ hd, update_of_ne hd]
      exact h.announced d

theorem BumpInv.connClosed (hcl : s.closeReq c = true) :
    BumpInv { s with ctx := s.ctx.setConn c { s.ctx.conns c with status := .closed } } l where
  bumps := h.bumps.setConn rfl rfl
  announced d := by
    by_cases hd : d = c
    · subst hd
      have hp := ((h.announced d).closing hcl).1
      simp only [setConn_self]
      refine ⟨fun hp' => ?_, nofun, fun ho => ?_, fun _ => ⟨hp, nofun⟩⟩
      · rw [hp] at hp'
        cases hp'
      · obtain ⟨hq, -⟩ := (h.announced d).opening ho
        exact ⟨⟨hp, hq.txbBump, hq.txeos⟩, nofun⟩
    · simp only [setConn_of_ne _ _ hd]
      exact h.announced d

theorem BumpInv.close {r : Reserve} {rv : Int}
    (honly : ¬ (s.ctx.bumpPendingFirst = some c ∧ s.ctx.bumpPendingLast = some c))
    (hfull : r = .full → (s.ctx.conns c).txbBump = 0) (hr : s.ctx.flextcpConnectionClose c r = .ok (ctx, rv)) :
    ∃ l', BumpInv { s with ctx := ctx, closeReq := if rv = 0 then update s.closeReq c true else s.closeReq } l' := by
  obtain ⟨s₁, l', hs, hb, hself, hother⟩ := h.bumps.bumpRemove honly
  have hold := h.announced c
  have hquiet : (s.ctx.conns c).Quiet → FlextcpConnection.Quiet { s.ctx.conns c with bumpPending := false } :=
    fun hq => ⟨rfl, hq.txbBump, hq.txeos⟩
  have hothers : ∀ d, d ≠ c → (s₁.conns d).Announced (s.opening d) (s.closeReq d) := fun d hd => by
    obtain ⟨n, e⟩ := hother d hd
    rw [e]
    exact (h.announced d).congr rfl rfl rfl rfl
  rw [flextcpConnectionClose, hs] at hr
  cases r with
  | failed => cases hr
  | full =>
    cases hr
    refine ⟨l', hb, fun d => ?_⟩
    rw [if_neg (by decide)]
    by_cases hd : d = c
    · subst hd
      rw [hself]
      exact ⟨nofun, fun _ htx => absurd (hfull rfl) htx, fun ho => ⟨hquiet (hold.opening ho).1, (hold.opening ho).2⟩,
        fun hcl => ⟨rfl, fun hst => hquiet ((hold.closing hcl).2 hst)⟩⟩
    · exact hothers d hd
  | room =>
    cases hr
    refine ⟨l', hb.setConn rfl rfl, fun d => ?_⟩
    rw [if_pos rfl]
    by_cases hd : d = c
    · subst hd
      simp only [setConn_self, hself]
      exact ⟨nofun, nofun, fun ho => ⟨⟨rfl, (hold.opening ho).1.txbBump, (hold.opening ho).1.txeos⟩, nofun⟩,
        fun _ => ⟨rfl, nofun⟩⟩
    · simp only [setConn_of_ne _ _ hd, update_of_ne hd]
      exact hothers d hd

end

/-- A turn of `conns_bump` that flushes all bytes of the first connection. -/
theorem BumpInv.turn (h : s.BumpInv (c :: l))
    (hall : ((rqNflush (s.ctx.conns c).tx (s.ctx.conns c).txbBump.toNat).eval env).all
      (fun r => r.2.1 == ((s.ctx.conns c).txbBump.toNat : Int)) = true) (hs : s.ctx.bumpTurn c env = .ok ctx) :
    BumpInv { s with ctx := ctx } l := by
  refine ⟨h.bumps.turn hs, ?_⟩
  obtain ⟨q, n, env', he, -, rfl⟩ := bumpTurn_ok hs
  have hp : (s.ctx.conns c).bumpPending = true := (h.bumps.mem c).mp (mem_cons_self ..)
  have hzero : (s.ctx.conns c).txbBump - BitVec.ofInt 32 n = 0 := by
    rw [he, Option.all_some, beq_iff_eq] at hall
    have hn : n = (s.ctx.conns c).txbBump.toNat := hall
    simp [hn]
  intro d
  by_cases hd : d = c
  · subst hd
    simp only [setConn_self]
    refine ⟨nofun, fun _ htx => absurd hzero htx, fun ho => ?_, fun hcl => ?_⟩
    · have := ((h.announced d).opening ho).1.pending
      rw [hp] at this
      cases this
    · have := ((h.announced d).closing hcl).1
      rw [hp] at this
      cases this
  · simp only [setConn_of_ne _ _ hd]
    exact h.announced d

end LibtasRun

/-- Every turn of `conns_bump` flushes all bytes of its connection. -/
def FlextcpContext.FlushesAll (s : FlextcpContext) (turns : List BumpTurn) : Prop :=
  s.Turns (fun s c n => n == ((s.conns c).txbBump.toNat : Int)) turns

instance FlextcpContext.FlushesAll.dec (s : FlextcpContext) (turns : List BumpTurn) : Decidable (s.FlushesAll turns) :=
  FlextcpContext.Turns.dec ..

namespace LibtasRun

variable {s s' : LibtasRun} {l : List Nat} {c : Nat} {turns : List BumpTurn} {ctx : FlextcpContext}

/-- `conns_bump`, by induction on its turns; with room for all connections, the list is empty
after it. -/
theorem BumpInv.connsBump (h : s.BumpInv l) (hall : s.ctx.FlushesAll turns) (hs : s.ctx.connsBump turns = .ok ctx) :
    ∃ l', BumpInv { s with ctx := ctx } l' ∧ (l.length ≤ turns.length → l' = []) := by
  induction turns generalizing s l with
  | nil =>
    rw [connsBump_nil_ok hs]
    exact ⟨l, h, fun hl => length_eq_zero_iff.mp (Nat.le_zero.mp hl)⟩
  | cons t turns ih =>
    rcases connsBump_cons_ok hs with ⟨hfirst, rfl⟩ | ⟨c, env, s₁, hfirst, hturn, hs, hp⟩
    · refine ⟨l, h, fun _ => ?_⟩
      rw [h.bumps.fifo.chain.head_eq] at hfirst
      exact head?_eq_none_iff.mp hfirst
    · cases l with
      | nil =>
        rw [chain_nil.mp h.bumps.fifo.chain] at hfirst
        cases hfirst
      | cons b l =>
        obtain rfl : b = c := Option.some.inj (h.bumps.fifo.chain.1.symm.trans hfirst)
        obtain ⟨hwhole, hall⟩ := hp _ hall
        obtain ⟨l', h', hl⟩ := ih (h.turn hwhole hturn) hall hs
        exact ⟨l', h', fun hlen => hl (Nat.le_of_succ_le_succ hlen)⟩

/-- What the application and the queues must do for the pending list to stay right. -/
def BumpCareful (s : LibtasRun) : LibtasOp → Prop
  -- calls are on connections that are open and not closed
  | .txSend c _ _ | .rxDone c _ | .txClose c _ => s.InUse c
  -- a connection to be closed is not the only pending one, and there is room for the request
  -- if it has bytes to announce
  | .close c r => ¬ (s.ctx.bumpPendingFirst = some c ∧ s.ctx.bumpPendingLast = some c) ∧
      (r = .full → (s.ctx.conns c).txbBump = 0)
  | .bump turns => s.ctx.FlushesAll turns
  | _ => True

instance InUse.dec (s : LibtasRun) (c : Nat) : Decidable (s.InUse c) := inferInstanceAs (Decidable (_ ∧ _))

instance BumpCareful.dec (s : LibtasRun) (op) : Decidable (s.BumpCareful op) := by
  induction op using LibtasOp.casesOn <;> dsimp only [BumpCareful] <;> infer_instance

/-- Every step keeps it. -/
theorem BumpInv.step {op : LibtasOp} (h : s.BumpInv l) (hop : s.BumpCareful op) (hs : libtasStep s op = some s') :
    ∃ l', s'.BumpInv l' := by
  obtain ⟨hen, hcall⟩ := libtasStep_some hs
  cases op with
  | txAlloc c len env =>
    obtain ⟨r, hr, rfl⟩ := Run.map_ok hcall
    rcases flextcpConnectionTxAlloc_ok hr with ⟨e, -⟩ | ⟨q, n, env', v, -, -, e, -⟩ <;> rw [e]
    · exact ⟨l, h⟩
    · exact ⟨l, h.setConn rfl rfl rfl rfl rfl⟩
  | txAlloc2 c len env =>
    obtain ⟨r, hr, rfl⟩ := Run.map_ok hcall
    rcases flextcpConnectionTxAlloc2_ok hr with ⟨e, -⟩ | ⟨q, n, env', v, -, -, e, -⟩ <;> rw [e]
    · exact ⟨l, h⟩
    · exact ⟨l, h.setConn rfl rfl rfl rfl rfl⟩
  | txSend c len env =>
    obtain ⟨r, hr, rfl⟩ := Run.map_ok hcall
    exact h.txSend hen hop hr
  | rxDone c len =>
    obtain ⟨r, hr, rfl⟩ := Run.map_ok hcall
    exact h.rxDone hen hop hr
  | txClose c env =>
    obtain ⟨r, hr, rfl⟩ := Run.map_ok hcall
    exact h.txClose hen hop hr
  | close c r =>
    obtain ⟨⟨ctx, rv⟩, hr, rfl⟩ := Run.map_ok hcall
    exact h.close hop.1 hop.2 hr
  | connOpened c ok =>
    cases hcall
    exact ⟨l, h.connOpened ok hen.2⟩
  | connClosed c =>
    cases hcall
    exact ⟨l, h.connClosed hen.2⟩
  | update u outn env =>
    obtain ⟨r, hr, rfl⟩ := Run.map_ok hcall
    cases r with
    | none => exact ⟨l, h⟩
    | some r =>
      obtain ⟨l', h'⟩ := h.connupdate hen hr
      exact ⟨l', h'.bumps, h'.announced⟩
  | bump turns =>
    obtain ⟨ctx, hr, rfl⟩ := Run.map_ok hcall
    obtain ⟨l', h', -⟩ := h.connsBump hop hr
    exact ⟨l', h'⟩
  | nicRx c rx =>
    cases hcall
    exact ⟨l, h.setConn rfl rfl rfl rfl rfl⟩
  | nicTx c len =>
    rw [libtasCall] at hcall
    split at hcall
    · cases hcall
    · cases hcall
      exact ⟨l, h.setConn rfl rfl rfl rfl rfl⟩

theorem init_bumpInv (num : Nat) (status : Nat → ConnState) (rx tx : Nat → RdmaQueue) :
    (init num status rx tx).BumpInv [] where
  bumps := ⟨⟨rfl, rfl⟩, by simp [init, FlextcpConnection.init], nofun⟩
  announced c := by
    refine ⟨nofun, fun _ h => absurd rfl h, fun ho => ⟨⟨rfl, rfl, rfl⟩, ?_⟩, nofun⟩
    intro hst
    simp only [init, FlextcpConnection.init] at ho hst
    simp [hst] at ho

end LibtasRun

/-- The pending list ends, has exactly the connections with `bump_pending`, all open, and every
open connection with bytes to announce. -/
def FlextcpContext.BumpsExact (s : FlextcpContext) : Prop :=
  (s.bumpPendingFirst = none ↔ s.bumpPendingLast = none) ∧ ∃ l, Chain s.bumpNext s.bumpPendingFirst l ∧ l.Nodup ∧
    (∀ c, c ∈ l ↔ (s.conns c).bumpPending = true) ∧ (∀ c ∈ l, (s.conns c).status = .opened) ∧
    ∀ c, (s.conns c).status = .opened → (s.conns c).txbBump ≠ 0 → c ∈ l

theorem LibtasRun.BumpInv.exact {s : LibtasRun} {l : List Nat} (h : s.BumpInv l) : s.ctx.BumpsExact :=
  ⟨h.bumps.fifo.first_none_iff, l, h.bumps.fifo.chain, h.bumps.fifo.chain.nodup, h.bumps.mem,
    fun c hc => (h.announced c).status ((h.bumps.mem c).mp hc),
    fun c hst htx => (h.bumps.mem c).mpr ((h.announced c).pending hst htx)⟩

/-- The pending list is right in every state, and once `conns_bump` has room for all
connections, no open connection has bytes left to announce. -/
theorem bump_queue_exact {num : Nat} {status : Nat → ConnState} {rx tx : Nat → RdmaQueue} {ops : List LibtasOp}
    {s : LibtasRun} (hops : Run.All libtasStep LibtasRun.BumpCareful (.init num status rx tx) ops)
    (hs : Run.exec libtasStep (.init num status rx tx) ops = some s) :
    s.ctx.BumpsExact ∧ ∀ turns ctx, s.ctx.FlushesAll turns → s.ctx.num ≤ turns.length →
      s.ctx.connsBump turns = .ok ctx → ∀ c, (ctx.conns c).status = .opened → (ctx.conns c).txbBump = 0 := by
  obtain ⟨l, h⟩ : ∃ l, s.BumpInv l := by
    refine Run.exec_inv (I := fun s => ∃ l, LibtasRun.BumpInv s l) ?_ ⟨[], LibtasRun.init_bumpInv ..⟩ hops hs
    rintro s op s' ⟨l, h⟩ hop hs
    exact h.step hop hs
  refine ⟨h.exact, fun turns ctx hall hlen hb c hst => ?_⟩
  have hl : l.length < s.ctx.num + 1 := Chains.length_lt_of_below h.bumps.fifo.chain.nodup h.bumps.below
  obtain ⟨l', h', hnil⟩ := h.connsBump hall hb
  obtain rfl : l' = [] := hnil (by omega)
  by_contra htx
  exact not_mem_nil ((h'.bumps.mem c).mpr ((h'.announced c).pending hst htx))

/-- Two connections send; the first is closed, the second is announced, acknowledged and
closed on that side. -/
theorem bump_queue_exact_two_connections :
    ∃ s, Run.exec libtasStep
      (.init 2 (fun _ => .opened) (fun c => zeroedQueue (1000 * c) 100) fun c => zeroedQueue (1000 * c + 500) 100)
      [.txAlloc 0 10 rdmaOk, .txSend 0 10 rdmaOk, .txAlloc2 1 20 rdmaOk, .txSend 1 20 rdmaOk, .close 0 .room,
        .bump [.room rdmaOk], .connClosed 0, .nicTx 1 20, .update ⟨1, 0, 20, false⟩ 4 rdmaOk, .txClose 1 rdmaOk] = some s ∧
      s.ctx.BumpsExact := by
  exact Run.exists_exec (by decide +kernel) fun s hs => (bump_queue_exact (by decide +kernel) hs).1

/-- The only pending connection is closed: nothing is pending, but `bump_pending_last` still
points to it. -/
theorem bump_queue_last_dangles :
    ¬ ∀ (num : Nat) (status : Nat → ConnState) (rx tx : Nat → RdmaQueue) (ops : List LibtasOp) (s : LibtasRun),
      Run.exec libtasStep (.init num status rx tx) ops = some s → s.ctx.BumpsExact := by
  intro h
  exact Run.not_forall_exec (P := fun s => s.ctx.bumpPendingFirst = none ↔ s.ctx.bumpPendingLast = none)
    (by decide +kernel) fun s hs => (h 1 (fun _ => .opened) (fun _ => zeroedQueue 0 100) (fun _ => zeroedQueue 500 100)
      [.txAlloc 0 10 rdmaOk, .txSend 0 10 rdmaOk, .close 0 .room] s hs).1

end TasNic.Libtas
