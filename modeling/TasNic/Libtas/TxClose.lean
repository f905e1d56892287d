import TasNic.Libtas.Conn
import TasNic.Rdma.Transmitter

/-!
# The end of the transmit stream

`FLEXTCP_EV_CONN_TXCLOSED` says that the dummy byte behind the bytes sent was acknowledged. The code
takes it to be acknowledged by the first update with acknowledged bytes after all bytes are flushed.
That is right if no other byte is on its way when the dummy byte is flushed, nothing is sent after
the notification, and no flush returns more than it was asked for (`EosCareful`).
-/

namespace TasNic.Libtas

open Function List FlextcpContext

/-- The bytes of connection `c` that were flushed and announced. -/
def flushedBytes (atx : List AtxConnupdate) (c : Nat) : Nat :=
  ((atx.filter (·.conn == c)).map (·.txBump.toNat)).sum

theorem flushedBytes_append_self (atx : List AtxConnupdate) (m : AtxConnupdate) :
    flushedBytes (atx ++ [m]) m.conn = flushedBytes atx m.conn + m.txBump.toNat := by
  simp [flushedBytes]

theorem flushedBytes_append_of_ne (atx : List AtxConnupdate) {m : AtxConnupdate} {c : Nat} (h : c ≠ m.conn) :
    flushedBytes (atx ++ [m]) c = flushedBytes atx c := by
  simp [flushedBytes, Ne.symm h]

/-- What connection `c` flushes in a turn is no more than was asked for; and if it is all that is
left of a stream with the dummy byte, at most one byte is not acknowledged then. -/
def lastFlush (acked : Nat → Nat) (s : FlextcpContext) (c : Nat) (n : Int) : Bool :=
  decide (n ≤ (s.conns c).txbBump.toNat) && (!(s.conns c).flags.txeosAlloc || n != (s.conns c).txbBump.toNat ||
    decide (flushedBytes s.atx c + n ≤ acked c + 1))

/-- A connection of which `acked` of the `flushed` bytes are acknowledged, and that was told
`closed` times that its transmit stream is closed. -/
structure EosConn (x : FlextcpConnection) (acked flushed closed : Nat) : Prop where
  side : ∃ T, TxSide x.tx T flushed ∧ x.txbBump.toNat = T - flushed
  acked_le : acked ≤ flushed
  alloc : x.flags.txeosAlloc = true → x.flags.txeos = true
  last : x.flags.txeosAlloc = true → x.txbBump = 0 → flushed ≤ acked + 1
  ack : x.flags.txeosAck = true → x.flags.txeosAlloc = true ∧ x.txbBump = 0 ∧ acked = flushed
  closed : closed = if x.flags.txeosAck then 1 else 0

namespace EosConn

variable {x x' : FlextcpConnection} {a f n : Nat}

variable (h : EosConn x a f n)

include h

theorem setTx {q : RdmaQueue} (hq : ∀ T, TxSide x.tx T f → TxSide q T f) :
    EosConn { x with tx := q } a f n := by
  obtain ⟨T, hside, hT⟩ := h.side
  exact { h with side := ⟨T, hq T hside, hT⟩ }

theorem toFlush : rqNbytesToFlush x.tx = x.txbBump.toNat := by
  obtain ⟨T, hside, hT⟩ := h.side
  rw [hside.toFlush, hT]

/-- Bytes are sent, unless the end of the stream is acknowledged. -/
theorem send {q : RdmaQueue} {env env' : RdmaEnv} {len : Nat} {v : BitVec 32}
    (hlen : x.flags.txeosAck = true → len = 0) (he : (rqTryEnqueue x.tx none len).eval env = some (q, 0, env')) :
    EosConn { x with tx := q, txbAllocated := v, txbBump := x.txbBump + BitVec.ofNat 32 len } a f n := by
  obtain ⟨T, hside, hT⟩ := h.side
  have hside' := hside.enqueue he
  have hle := hside.flushed; have hbound := hside'.bound
  have hsum : (x.txbBump + BitVec.ofNat 32 len).toNat = T + len - f := by
    rw [BitVec.toNat_add, BitVec.toNat_ofNat, hT]
    omega
  refine ⟨⟨T + len, hside', hsum⟩, h.acked_le, h.alloc, fun halloc hz => ?_, fun hack => ?_, h.closed⟩
  · rw [show x.txbBump + BitVec.ofNat 32 len = 0 from hz] at hsum
    have hsum : 0 = T + len - f := hsum
    exact h.last halloc (BitVec.eq_of_toNat_eq (by rw [hT]; show T - f = 0; omega))
  · obtain ⟨halloc, hz, hf⟩ := h.ack hack
    refine ⟨halloc, ?_, hf⟩
    simp only [hlen hack, hz]
    rfl

theorem push {q : RdmaQueue} {env env' : RdmaEnv} {src : Option (Nat → Byte)}
    (hf : x.flags.txeos = true) (ha : x.flags.txeosAlloc = false) (he : (rqTryEnqueue x.tx src 1).eval env = some (q, 0, env')) :
    EosConn { x with tx := q, flags := { x.flags with txeosAlloc := true }, txbBump := x.txbBump + 1 } a f n := by
  obtain ⟨T, hside, hT⟩ := h.side
  have hside' := hside.enqueue he
  have hle := hside.flushed; have hbound := hside'.bound
  have hsum : (x.txbBump + 1).toNat = T + 1 - f := by
    rw [BitVec.toNat_add, hT]
    show (T - f + 1) % 2 ^ 32 = T + 1 - f
    omega
  refine ⟨⟨T + 1, hside', hsum⟩, h.acked_le, fun _ => hf, fun _ hz => ?_, fun hack => ?_, h.closed⟩
  · rw [show x.txbBump + 1 = 0 from hz] at hsum
    have hsum : 0 = T + 1 - f := hsum
    omega
  · rw [(h.ack hack).1] at ha
    cases ha

/-- A turn of `conns_bump`. -/
theorem turn {q : RdmaQueue} {env env' : RdmaEnv} {r : Int} {s : BitVec 32}
    (he : (rqNflush x.tx x.txbBump.toNat).eval env = some (q, r, env')) (hr : 0 ≤ r) (hle : r ≤ x.txbBump.toNat)
    (hlast : x.flags.txeosAlloc = true → r = x.txbBump.toNat → f + r ≤ a + 1) :
    EosConn { x with tx := q, txbBump := x.txbBump - BitVec.ofInt 32 r, rxbBump := 0, bumpSeq := s, bumpPending := false }
      a (f + (BitVec.ofInt 32 r).toNat) n := by
  obtain ⟨T, hside, hT⟩ := h.side
  have hfle := hside.flushed
  obtain ⟨m, rfl, hm⟩ := hside.nflush he hr
  have hmT : f + m ≤ T := by omega
  have hnat : (BitVec.ofInt 32 (m : Int)).toNat = m := by
    rw [BitVec.ofInt_natCast, BitVec.toNat_ofNat, Nat.mod_eq_of_lt (by omega)]
  rw [hnat]
  have hsub : (x.txbBump - BitVec.ofInt 32 (m : Int)).toNat = T - (f + m) := by
    rw [BitVec.toNat_sub, hnat, hT]
    omega
  refine ⟨⟨T, hm hmT, hsub⟩, by have := h.acked_le; omega, h.alloc, fun halloc hz => ?_, fun hack => ?_, h.closed⟩
  · rw [show x.txbBump - BitVec.ofInt 32 (m : Int) = 0 from hz] at hsub
    have hsub : 0 = T - (f + m) := hsub
    have := hlast halloc (by omega)
    omega
  · obtain ⟨halloc, hz, hacked⟩ := h.ack hack
    have hm0 : m = 0 := by
      rw [hz] at hle
      simp at hle
      omega
    subst hm0
    exact ⟨halloc, by simp [hz], hacked⟩

end EosConn

/-! ## The invariant -/

namespace LibtasRun

/-- The bytes of connection `c` that were flushed and announced. -/
def flushed (s : LibtasRun) (c : Nat) : Nat := flushedBytes s.ctx.atx c

/-- How often connection `c` was told that its transmit stream is closed. -/
def txClosed (s : LibtasRun) (c : Nat) : Nat := s.events.count (.txClosed c)

def EosInv (s : LibtasRun) : Prop := ∀ c, EosConn (s.ctx.conns c) (s.acked c) (s.flushed c) (s.txClosed c)

variable {s s' : LibtasRun} {c : Nat} {ctx : FlextcpContext}

section

variable (h : s.EosInv)

include h

theorem EosInv.setConn {x : FlextcpConnection} (hx : EosConn x (s.acked c) (s.flushed c) (s.txClosed c)) :
    EosInv { s with ctx := s.ctx.setConn c x } := by
  intro d
  by_cases hd : d = c
  · subst hd
    rw [setConn_self]
    exact hx
  · rw [setConn_of_ne _ _ hd]
    exact h d

theorem EosInv.setRxClosed (c : Nat) (b : Bool) :
    EosInv { s with ctx := s.ctx.setConn c { s.ctx.conns c with rxClosed := b } } :=
  h.setConn { h c with }

omit h in
theorem EosInv.mark (h : EosInv { s with ctx := ctx }) (c : Nat) : EosInv { s with ctx := ctx.connMarkBump c } := by
  intro d
  have hd := h d
  simp only [flushed, connMarkBump_atx] at hd ⊢
  obtain ⟨n, p, e⟩ := connMarkBump_conns ctx c d
  rw [e]
  exact { hd with }

theorem EosInv.pushtxeos {env : RdmaEnv} {r : FlextcpContext × Int}
    (ha : (s.ctx.conns c).flags.txeosAlloc = false) (hr : s.ctx.flextcpConnPushtxeos c env = .ok r) :
    EosInv { s with ctx := r.1 } := by
  obtain ⟨-, hf, rfl | ⟨q, env', -, he, rfl⟩⟩ := flextcpConnPushtxeos_ok hr
  · exact h
  · exact (h.setConn ((h c).push hf ha he)).mark c

theorem EosInv.txClose {env : RdmaEnv} {r : FlextcpContext × Int}
    (hr : s.ctx.flextcpConnectionTxClose c env = .ok r) : EosInv { s with ctx := r.1 } := by
  rcases flextcpConnectionTxClose_ok hr with e | ⟨hf, rv, hpush⟩
  · rw [e]
    exact h
  · have ha : (s.ctx.conns c).flags.txeosAlloc = false := Bool.eq_false_iff.mpr fun ha => by
      rw [(h c).alloc ha] at hf
      cases hf
    have hset : EosInv { s with
        ctx := s.ctx.setConn c { s.ctx.conns c with flags := { (s.ctx.conns c).flags with txeos := true } } } :=
      h.setConn { h c with alloc := fun _ => rfl }
    refine hset.pushtxeos (r := (r.1, rv)) ?_ hpush
    simp only [setConn_self]
    exact ha

theorem EosInv.close {r : Reserve} {rv : Int} (hr : s.ctx.flextcpConnectionClose c r = .ok (ctx, rv)) :
    EosInv { s with ctx := ctx } := by
  rw [flextcpConnectionClose] at hr
  split at hr
  · cases hr
  · rename_i s₁ hrm
    obtain ⟨hatx, hconns⟩ := bumpRemove_ok hrm
    have h₁ : EosInv { s with ctx := s₁ } := by
      intro d
      obtain ⟨n, b, e⟩ := hconns d
      simp only [flushed, hatx, e]
      exact { h d with }
    cases r with
    | failed => cases hr
    | full =>
      cases hr
      exact h₁
    | room =>
      cases hr
      exact EosInv.setConn (s := { s with ctx := s₁ }) h₁ { h₁ c with }

theorem EosInv.turn {env : RdmaEnv}
    (hlast : ((rqNflush (s.ctx.conns c).tx (s.ctx.conns c).txbBump.toNat).eval env).all
      (fun r => lastFlush s.acked s.ctx c r.2.1) = true)
    (hs : s.ctx.bumpTurn c env = .ok ctx) : EosInv { s with ctx := ctx } := by
  obtain ⟨q, n, env', he, hn, rfl⟩ := bumpTurn_ok hs
  simp only [he, Option.all_some, lastFlush, Bool.and_eq_true, Bool.or_eq_true, Bool.not_eq_true', bne_iff_ne,
    decide_eq_true_eq, or_assoc] at hlast
  intro d
  by_cases hd : d = c
  · subst hd
    simp only [flushed, setConn_self]
    rw [flushedBytes_append_self]
    refine (h d).turn he hn hlast.1 fun halloc hall => ?_
    rcases hlast.2 with h' | h' | h'
    · rw [halloc] at h'
      cases h'
    · exact absurd hall h'
    · exact h'
  · simp only [flushed, setConn_of_ne _ _ hd]
    rw [flushedBytes_append_of_ne _ hd]
    exact h d

/-- `conns_bump`, by induction on its turns. -/
theorem EosInv.connsBump {turns : List BumpTurn}
    (hlast : s.ctx.Turns (lastFlush s.acked) turns) (hs : s.ctx.connsBump turns = .ok ctx) :
    EosInv { s with ctx := ctx } := by
  induction turns generalizing s with
  | nil =>
    rw [connsBump_nil_ok hs]
    exact h
  | cons t turns ih =>
    rcases connsBump_cons_ok hs with ⟨-, rfl⟩ | ⟨c, env, s₁, -, hturn, hs, hp⟩
    · exact h
    · obtain ⟨hone, hlast⟩ := hp _ hlast
      exact ih (s := { s with ctx := s₁ }) (h.turn hone hturn) hlast hs

/-- All bytes of connection `c` are acknowledged, the end of the stream included. -/
def AllAcked (s : LibtasRun) (c : Nat) : Prop :=
  (s.ctx.conns c).flags.txeosAlloc = true ∧ rqNbytesToFlush (s.ctx.conns c).tx = 0 ∧ s.acked c = s.flushed c

/-- Updates acknowledge bytes that were flushed. -/
def Acks (s : LibtasRun) : LibtasOp → Prop
  | .update u _ _ => s.acked u.conn + u.txBump.toNat ≤ s.flushed u.conn
  | _ => True

/-- What must hold for the notification to be right. -/
def EosCareful (s : LibtasRun) : LibtasOp → Prop
  -- nothing is sent after the notification
  | .txSend c len _ => (s.ctx.conns c).flags.txeosAck = true → len = 0
  -- the dummy byte is flushed when no other byte is on its way
  | .bump turns => s.ctx.Turns (lastFlush s.acked) turns
  | _ => True

/-! ## Updates -/

theorem EosInv.acks {n : Nat} (hn : s.acked c + n ≤ s.flushed c) :
    EosInv { s with acked := update s.acked c (s.acked c + n) } := by
  intro d
  by_cases hd : d = c
  · subst hd
    simp only [update_self]
    refine ⟨(h d).side, hn, (h d).alloc, fun halloc hz => ?_, fun hack => ?_, (h d).closed⟩
    · have : s.flushed d ≤ s.acked d + 1 := (h d).last halloc hz
      show s.flushed d ≤ s.acked d + n + 1
      omega
    obtain ⟨halloc, hz, hacked⟩ := (h d).ack hack
    exact ⟨halloc, hz, by show s.acked d + n = s.flushed d; omega⟩
  · simp only [update_of_ne hd]
    exact h d

theorem EosInv.addEvents {evs : List FlextcpEvent} (hevs : ∀ d, .txClosed d ∉ evs) :
    EosInv { s with events := s.events ++ evs } := by
  intro d
  have hcount : txClosed { s with events := s.events ++ evs } d = s.txClosed d := by
    simp [txClosed, count_eq_zero_of_not_mem (hevs d)]
  rw [hcount]
  exact h d

theorem EosInv.addTxClosed {evs evs' : List FlextcpEvent} (halloc : (s.ctx.conns c).flags.txeosAlloc = true)
    (hack : (s.ctx.conns c).flags.txeosAck = false) (hz : (s.ctx.conns c).txbBump = 0) (hall : s.acked c = s.flushed c)
    (hevs : ∀ d, .txClosed d ∉ evs) (hevs' : ∀ d, .txClosed d ∉ evs') :
    EosInv { s with
      ctx := s.ctx.setConn c { s.ctx.conns c with flags := { (s.ctx.conns c).flags with txeosAck := true } }
      events := s.events ++ (evs ++ .txClosed c :: evs') } := by
  intro d
  have hnone := count_eq_zero_of_not_mem (hevs d)
  have hnone' := count_eq_zero_of_not_mem (hevs' d)
  by_cases hd : d = c
  · subst hd
    have hclosed : s.txClosed d = 0 := by rw [(h d).closed, hack]; rfl
    have hcount : count (FlextcpEvent.txClosed d) (s.events ++ (evs ++ .txClosed d :: evs')) = 1 := by
      rw [count_append, count_append, count_cons_self, hnone, hnone']
      exact congrArg (· + 1) hclosed
    simp only [setConn_self, txClosed, hcount]
    exact ⟨(h d).side, (h d).acked_le, (h d).alloc, (h d).last, fun _ => ⟨halloc, hz, hall⟩, rfl⟩
  · have hcount : count (FlextcpEvent.txClosed d) (s.events ++ (evs ++ .txClosed c :: evs')) = s.txClosed d := by
      have hne : FlextcpEvent.txClosed c ≠ .txClosed d := fun e => hd (FlextcpEvent.txClosed.inj e).symm
      rw [count_append, count_append, count_cons_of_ne hne, hnone, hnone']
      rfl
    simp only [setConn_of_ne _ _ hd, txClosed, hcount]
    exact h d

end

/-- What an update does: its events fit, and if one says that a transmit stream is closed, the
update has acknowledged the last byte. -/
structure Updated (s s' : LibtasRun) (outn : Nat) (evs : List FlextcpEvent) : Prop where
  inv : s'.EosInv
  fits : evs.length ≤ outn
  closed : ∀ d, .txClosed d ∈ evs → ¬ s.AllAcked d ∧ s'.AllAcked d

section

variable {u : ArxConnupdate} {outn : Nat} {env : RdmaEnv} {s₁ : FlextcpContext} {txEvs evs : List FlextcpEvent}

theorem txClosed_not_mem_eos (u : ArxConnupdate) (d : Nat) :
    FlextcpEvent.txClosed d ∉ if u.eos then [.rxClosed u.conn] else [] := by
  split <;> simp

theorem length_eos (u : ArxConnupdate) :
    (if u.eos then [.rxClosed u.conn] else [] : List FlextcpEvent).length = if u.eos then 1 else 0 := by
  split <;> rfl

theorem EosInv.updated_other
    (h : EosInv { s with ctx := s₁, acked := update s.acked u.conn (s.acked u.conn + u.txBump.toNat) })
    (hfit : u.evsNeeded (s.ctx.conns u.conn) ≤ outn) (hnot : ∀ d, .txClosed d ∉ txEvs)
    (hle : txEvs.length ≤ (u.txAvailEvents (s.ctx.conns u.conn).tx).length) (b : Bool)
    (he : evs = u.rxEvents (s.ctx.conns u.conn).rx ++ txEvs ++ if u.eos then [.rxClosed u.conn] else []) :
    s.Updated (s.updated u (s₁.setConn u.conn { s₁.conns u.conn with rxClosed := b }) evs) outn evs := by
  have hevs : ∀ d, FlextcpEvent.txClosed d ∉ evs := fun d => by
    rw [he, append_assoc, mem_append, mem_append]
    exact fun hd => hd.elim (u.txClosed_not_mem_rxEvents _ d) fun hd => hd.elim (hnot d) (txClosed_not_mem_eos u d)
  refine ⟨(h.setRxClosed u.conn b).addEvents hevs, ?_, fun d hd => absurd hd (hevs d)⟩
  rw [ArxConnupdate.evsNeeded, ← u.length_rxEvents, ← u.length_txAvailEvents] at hfit
  rw [he, length_append, length_append]
  have hlen := length_eos u
  omega

theorem EosInv.updated_closed {x : FlextcpConnection} (h : s.EosInv) (hx : s.ctx.conns u.conn = x) (hfit : u.evsNeeded x ≤ outn)
    (hbump : u.txBump ≠ 0) (halloc : x.flags.txeosAlloc = true) (hack : x.flags.txeosAck = false) (hz : x.txbBump = 0)
    (hall : s.acked u.conn + u.txBump.toNat = s.flushed u.conn) (b : Bool)
    (hs₁ : s₁ = s.ctx.setConn u.conn { x with flags := { x.flags with txeosAck := true } })
    (he : evs = u.rxEvents x.rx ++ (u.txAvailEvents x.tx ++ [.txClosed u.conn]) ++
      if u.eos then [.rxClosed u.conn] else []) :
    s.Updated (s.updated u (s₁.setConn u.conn { s₁.conns u.conn with rxClosed := b }) evs) outn evs := by
  have heq : evs = (u.rxEvents x.rx ++ u.txAvailEvents x.tx) ++
      .txClosed u.conn :: if u.eos then [.rxClosed u.conn] else [] := by
    rw [he]
    simp
  have hpre : ∀ d, FlextcpEvent.txClosed d ∉ u.rxEvents x.rx ++ u.txAvailEvents x.tx := fun d => by
    rw [mem_append]
    exact fun hd => hd.elim (u.txClosed_not_mem_rxEvents _ d) (u.txClosed_not_mem_txAvailEvents _ d)
  subst hx
  have hflush : rqNbytesToFlush (s.ctx.conns u.conn).tx = 0 := by
    rw [(h u.conn).toFlush, hz]
    rfl
  refine ⟨?_, ?_, fun d hd => ?_⟩
  · have hinv := (h.acks (Nat.le_of_eq hall)).addTxClosed halloc hack hz ((update_self ..).trans hall) hpre
      (txClosed_not_mem_eos u)
    rw [← heq, ← hs₁] at hinv
    exact hinv.setRxClosed u.conn b
  · rw [ArxConnupdate.evsNeeded, ← u.length_rxEvents, ← u.length_txAvailEvents, if_pos ⟨halloc, hflush⟩] at hfit
    have hlen := length_eos u
    rw [heq, length_append, length_append, length_cons]
    omega
  · obtain rfl : d = u.conn := by
      rw [heq, mem_append, mem_cons] at hd
      rcases hd with hd | hd | hd
      · exact absurd hd (hpre d)
      · exact FlextcpEvent.txClosed.inj hd
      · exact absurd hd (txClosed_not_mem_eos u d)
    have hne : u.txBump.toNat ≠ 0 := fun h0 => hbump (BitVec.eq_of_toNat_eq h0)
    refine ⟨fun hacked => ?_, ?_⟩
    · have := hacked.2.2
      omega
    · simp only [AllAcked, updated, setConn_self, hs₁, update_self]
      exact ⟨halloc, hflush, hall⟩

theorem EosInv.connupdate (h : s.EosInv) (hacks : s.Acks (.update u outn env))
    (hr : s.ctx.eventArxConnupdate u outn env = .ok (some (ctx, evs))) : s.Updated (s.updated u ctx evs) outn evs := by
  have h₁ := h.acks hacks
  rcases eventArxConnupdate_ok hr with ⟨-, rfl, b, rfl⟩ | ⟨-, hfit, s₁, txEvs, b, hb, rfl, he⟩
  · refine ⟨?_, Nat.zero_le _, fun d hd => absurd hd not_mem_nil⟩
    exact (h₁.setRxClosed u.conn b).addEvents fun _ => not_mem_nil
  · rcases bumpTx_ok hb with ⟨rfl, hle, hnot⟩ | ⟨hbump, hf, ha, hpush, rfl⟩ | ⟨hbump, halloc, hack, hz, e⟩
    · exact h₁.updated_other hfit hnot hle b he
    · exact (h₁.pushtxeos ha hpush).updated_other hfit (u.txClosed_not_mem_txAvailEvents _) (Nat.le_refl _) b he
    · cases e
      -- only the dummy byte is on its way
      have hlast : s.flushed u.conn ≤ s.acked u.conn + 1 := (h u.conn).last halloc hz
      have hacks : s.acked u.conn + u.txBump.toNat ≤ s.flushed u.conn := hacks
      have hne : u.txBump.toNat ≠ 0 := fun h0 => hbump (BitVec.eq_of_toNat_eq h0)
      exact h.updated_closed rfl hfit hbump halloc hack hz (by omega) b rfl he

end

end LibtasRun

/-! ## The assertion -/

namespace FlextcpContext

variable {s : FlextcpContext} {c outn : Nat} {u : ArxConnupdate} {env : RdmaEnv}

theorem flextcpConnPushtxeos_ne_ackAfterEos : s.flextcpConnPushtxeos c env ≠ .error .ackAfterEos := by
  intro h
  simp only [flextcpConnPushtxeos] at h
  split at h
  · cases h
  · split at h
    · cases h
    · split at h
      · cases h
      · split at h
        · cases h
        · split at h <;> cases h

theorem bumpTx_ackAfterEos (h : s.bumpTx u env = .error .ackAfterEos) :
    u.txBump ≠ 0 ∧ (s.conns u.conn).flags.txeosAck = true := by
  simp only [bumpTx] at h
  split at h
  · cases h
  · rename_i hbump
    split at h
    · split at h
      · rename_i hpush
        cases h
        exact absurd hpush flextcpConnPushtxeos_ne_ackAfterEos
      · split at h <;> cases h
    · split at h
      · split at h
        · rename_i hack
          exact ⟨hbump, hack⟩
        · split at h <;> cases h
      · cases h

theorem eventArxConnupdate_ackAfterEos (h : s.eventArxConnupdate u outn env = .error .ackAfterEos) :
    u.txBump ≠ 0 ∧ (s.conns u.conn).flags.txeosAck = true := by
  simp only [eventArxConnupdate] at h
  split at h
  · split at h <;> cases h
  · split at h <;> cases h
  · cases h
  · cases h
  · split at h
    · cases h
    · split at h
      · cases h
      · split at h
        · rename_i hb
          cases h
          exact bumpTx_ackAfterEos hb
        · split at h <;> cases h

end FlextcpContext

/-! ## Runs -/

namespace LibtasRun

variable {s s' : LibtasRun}

theorem EosInv.no_ackAfterEos (h : s.EosInv) {u : ArxConnupdate} {outn : Nat} {env : RdmaEnv}
    (hacks : s.Acks (.update u outn env)) : s.ctx.eventArxConnupdate u outn env ≠ .error .ackAfterEos := by
  intro he
  obtain ⟨hbump, hack⟩ := eventArxConnupdate_ackAfterEos he
  obtain ⟨-, -, hacked⟩ := (h u.conn).ack hack
  have hacks : s.acked u.conn + u.txBump.toNat ≤ s.flushed u.conn := hacks
  exact hbump (BitVec.eq_of_toNat_eq (by show u.txBump.toNat = 0; omega))

/-- Every step keeps it. -/
theorem EosInv.step {op : LibtasOp} (h : s.EosInv) (hop : s.Acks op ∧ s.EosCareful op) (hs : libtasStep s op = some s') :
    s'.EosInv := by
  obtain ⟨hacks, hcare⟩ := hop
  obtain ⟨-, hcall⟩ := libtasStep_some hs
  cases op with
  | txAlloc c len env =>
    obtain ⟨r, hr, rfl⟩ := Run.map_ok hcall
    rcases flextcpConnectionTxAlloc_ok hr with ⟨e, -⟩ | ⟨q, n, env', v, -, he, e, -⟩ <;> rw [e]
    · exact h
    · exact h.setConn { (h c).setTx fun T hT => hT.canReserve he with }
  | txAlloc2 c len env =>
    obtain ⟨r, hr, rfl⟩ := Run.map_ok hcall
    rcases flextcpConnectionTxAlloc2_ok hr with ⟨e, -⟩ | ⟨q, n, env', v, -, he, e, -⟩ <;> rw [e]
    · exact h
    · exact h.setConn { (h c).setTx fun T hT => hT.canReserve he with }
  | txSend c len env =>
    obtain ⟨r, hr, rfl⟩ := Run.map_ok hcall
    rcases flextcpConnectionTxSend_ok hr with e | ⟨q, env', v, -, he, e⟩ <;> rw [e]
    · exact h
    · exact (h.setConn ((h c).send hcare he)).mark c
  | rxDone c len =>
    obtain ⟨r, hr, rfl⟩ := Run.map_ok hcall
    rcases flextcpConnectionRxDone_ok hr with e | ⟨q, v, e | e⟩ <;> rw [e]
    · exact h
    · exact h.setConn { h c with }
    · exact (h.setConn (x := { s.ctx.conns c with rx := q, rxbBump := v }) { h c with }).mark c
  | txClose c env =>
    obtain ⟨r, hr, rfl⟩ := Run.map_ok hcall
    exact h.txClose hr
  | close c r =>
    obtain ⟨⟨ctx, rv⟩, hr, rfl⟩ := Run.map_ok hcall
    exact h.close hr
  | connOpened c ok =>
    cases hcall
    exact h.setConn { h c with }
  | connClosed c =>
    cases hcall
    exact h.setConn { h c with }
  | update u outn env =>
    obtain ⟨r, hr, rfl⟩ := Run.map_ok hcall
    cases r with
    | none => exact h
    | some r => exact (h.connupdate hacks hr).inv
  | bump turns =>
    obtain ⟨ctx, hr, rfl⟩ := Run.map_ok hcall
    exact h.connsBump hcare hr
  | nicRx c rx =>
    cases hcall
    exact h.setConn { h c with }
  | nicTx c len =>
    rw [libtasCall] at hcall
    split at hcall
    · cases hcall
    · rename_i d hd
      cases hcall
      exact h.setConn ((h c).setTx fun T hT => hT.dequeue hd)

theorem init_eosInv {num : Nat} {status : Nat → ConnState} {rx tx : Nat → RdmaQueue} (htx : ∀ c, NewTxQueue (tx c)) :
    (init num status rx tx).EosInv := fun c =>
  ⟨⟨0, (htx c).txSide, rfl⟩, Nat.le_refl _, nofun, nofun, nofun, rfl⟩

/-- The notification that a transmit stream is closed came at most once for each connection.
In an update the assertion that nothing is acknowledged after it does not fail, there is room
for all events, and if one of them is the notification, the update has acknowledged the last
byte of the connection. -/
def TxClosedExact (s : LibtasRun) (u : ArxConnupdate) (outn : Nat) (env : RdmaEnv) : Prop :=
  (∀ c, s.txClosed c ≤ 1) ∧
  Run.Ends (· ≠ .ackAfterEos)
    (fun s' => s'.events.length ≤ s.events.length + outn ∧
      ∀ c, s'.txClosed c ≠ s.txClosed c → ¬ s.AllAcked c ∧ s'.AllAcked c)
    (libtasCall s (.update u outn env))

instance Acks.dec (s : LibtasRun) (op) : Decidable (s.Acks op) := by
  induction op using LibtasOp.casesOn <;> dsimp only [Acks] <;> infer_instance

instance EosCareful.dec (s : LibtasRun) (op) : Decidable (s.EosCareful op) := by
  induction op using LibtasOp.casesOn <;> dsimp only [EosCareful] <;> infer_instance

theorem EosInv.txClosedExact (h : s.EosInv) {u : ArxConnupdate} {outn : Nat} {env : RdmaEnv}
    (hacks : s.Acks (.update u outn env)) : s.TxClosedExact u outn env := by
  refine ⟨fun c => ?_, ?_⟩
  · rw [(h c).closed]
    split <;> omega
  · rw [libtasCall]
    cases he : s.ctx.eventArxConnupdate u outn env with
    | error e =>
      intro e'
      exact h.no_ackAfterEos hacks (e' ▸ he)
    | ok r =>
      cases r with
      | none => exact ⟨Nat.le_add_right .., fun c hc => absurd rfl hc⟩
      | some r =>
        have hu := h.connupdate hacks he
        refine ⟨?_, fun c hc => hu.closed c ?_⟩
        · simp only [updated, length_append]
          exact Nat.add_le_add_left hu.fits _
        · by_contra hnot
          refine hc ?_
          simp [txClosed, updated, count_eq_zero_of_not_mem hnot]

end LibtasRun

theorem tx_closed_exact {num : Nat} {status : Nat → ConnState} {rx tx : Nat → RdmaQueue} {ops : List LibtasOp} {s : LibtasRun}
    (htx : ∀ c, NewTxQueue (tx c))
    (hops : Run.All libtasStep (fun s op => s.Acks op ∧ s.EosCareful op) (.init num status rx tx) ops)
    (hs : Run.exec libtasStep (.init num status rx tx) ops = some s) {u : ArxConnupdate} {outn : Nat} {env : RdmaEnv}
    (hacks : s.Acks (.update u outn env)) : s.TxClosedExact u outn env :=
  (Run.exec_inv (fun _ _ _ h hop hs => h.step hop hs) (LibtasRun.init_eosInv htx) hops hs).txClosedExact hacks

/-- The queue is full when the stream is closed. The update that acknowledges its bytes pushes the dummy byte. -/
theorem tx_closed_exact_two_updates :
    ∃ s, Run.exec libtasStep (.init 1 (fun _ => .opened) (fun _ => zeroedQueue 0 100) fun _ => zeroedQueue 500 100)
      [.txAlloc 0 92 rdmaOk, .txSend 0 92 rdmaOk, .bump [.room rdmaOk], .txClose 0 rdmaOk, .nicTx 0 92,
        .update ⟨0, 0, 92, false⟩ 4 rdmaOk, .bump [.room rdmaOk], .nicTx 0 1] = some s ∧
      s.TxClosedExact ⟨0, 0, 1, true⟩ 2 rdmaOk := by
  refine Run.exists_exec (by decide +kernel) fun s hs => ?_
  have hlast := Run.forall_exec (P := fun s => s.Acks (.update ⟨0, 0, 1, true⟩ 2 rdmaOk)) (by decide +kernel) hs
  exact tx_closed_exact (fun _ => newTxQueue_zeroed 500) (by decide +kernel) hs hlast

/-- The stream is closed and flushed while 50 bytes are not acknowledged. The update that
acknowledges 10 of them is taken for the last one, and the next one is not expected. -/
theorem tx_closed_early :
    ¬ ∀ (num : Nat) (status : Nat → ConnState) (rx tx : Nat → RdmaQueue) (ops : List LibtasOp) (s : LibtasRun),
      (∀ c, NewTxQueue (tx c)) → Run.All libtasStep LibtasRun.Acks (.init num status rx tx) ops →
      Run.exec libtasStep (.init num status rx tx) ops = some s → ∀ (u : ArxConnupdate) (outn : Nat) (env : RdmaEnv),
      s.Acks (.update u outn env) → s.TxClosedExact u outn env := by
  intro h
  exact Run.not_forall_exec (P := fun s => s.Acks (.update ⟨0, 0, 41, false⟩ 4 rdmaOk) →
      Run.Ends (· ≠ .ackAfterEos) (fun _ => True) (libtasCall s (.update ⟨0, 0, 41, false⟩ 4 rdmaOk)))
    (by decide +kernel) fun s hs hacks =>
      (h 1 (fun _ => .opened) (fun _ => zeroedQueue 0 100) (fun _ => zeroedQueue 500 100)
        [.txAlloc 0 50 rdmaOk, .txSend 0 50 rdmaOk, .bump [.room rdmaOk], .txClose 0 rdmaOk, .bump [.room rdmaOk],
          .update ⟨0, 0, 10, false⟩ 4 rdmaOk] s (fun _ => newTxQueue_zeroed 500) (by decide +kernel) hs _ _ _ hacks).2.mono
        (fun _ he => he) fun _ _ => trivial

end TasNic.Libtas
