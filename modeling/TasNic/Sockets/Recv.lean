import Mathlib.Algebra.Order.BigOperators.Group.List
import Mathlib.Algebra.Order.Group.Nat
import TasNic.Fast.Transmit

/-!
# Receiving on a socket (`lib/tas/init.c`, `lib/sockets/context.c`, `lib/sockets/transfer.c`)

The bytes of a connection are flushed into its receive queue `conn->rx`, and each batch is announced by an
update. A poll of the context turns updates into events (`eventArxConnupdate`) that carry a pointer into the
queue's buffer; the socket keeps at most two pieces (`evConnReceived`), from which the receive calls copy.
The pointer of an event is the reader's offset, which does not move while announced bytes are unread: an
update that comes in then is taken to start where they start.

The connection is open and the socket connected; locks, epoll, the transmission part of updates and the
notifications of the NIC are left out. The polls a receive call makes while it waits are steps of their own.
-/

namespace TasNic

open Circ RdmaQueue List

/-! ## Updates and events -/

/-- `struct flextcp_pl_arx_connupdate`, with the events that its transmission part may need
and those that it makes. -/
structure ConnUpdate where
  rxBump : BitVec 32
  eos : Bool
  txNeeded : Nat
  txEvs : Nat

/-- `FLEXTCP_EV_CONN_RECEIVED`, with its pointer as an offset in the receive buffer, and
`FLEXTCP_EV_CONN_RXCLOSED`. -/
inductive ConnEvent where
  | received (buf len : Nat)
  | rxClosed

def ConnUpdate.wraps (rx : RdmaQueue) (u : ConnUpdate) : Bool := decide (rx.rxOffset + u.rxBump.toNat > rx.bufferSize)

def ConnUpdate.events (rx : RdmaQueue) (u : ConnUpdate) : List ConnEvent :=
  (if u.rxBump.toNat > 0 then
    if u.wraps rx then
      -- wrap around in rx buffer
      let rxLen := rx.bufferSize - rx.rxOffset
      [.received rx.rxOffset rxLen, .received 0 (u.rxBump.toNat - rxLen)]
    else [.received rx.rxOffset u.rxBump.toNat]
  else []) ++ if u.eos then [.rxClosed] else []

/-- `event_arx_connupdate` for an open connection: `none` if its assertion fails, `some none`
if the events do not fit into `outn`. -/
def eventArxConnupdate (rx : RdmaQueue) (u : ConnUpdate) (outn : Nat) : Option (Option (List ConnEvent)) :=
  let evsNeeded := (if u.rxBump.toNat > 0 then if u.wraps rx then 2 else 1 else 0) + u.txNeeded +
    if u.eos then 1 else 0
  if evsNeeded > outn then some none
  else if u.rxBump.toNat > 0 ∧ rqNbytesEnqueued rx < u.rxBump.toNat then none
  else some (some (u.events rx))

/-- `fastpath_poll_vec` for the connection, of whose updates `k` have arrived: the events
that fit into `num`, and the updates that are left. -/
def fastpathPollVec (rx : RdmaQueue) : List ConnUpdate → Nat → Nat → Option (List ConnEvent × List ConnUpdate)
  | us, 0, _ => some ([], us)
  | [], _ + 1, _ => some ([], [])
  | u :: us, k + 1, num => match eventArxConnupdate rx u num with
    | none => none
    | some none => some ([], u :: us)
    | some (some evs) =>
      (fastpathPollVec rx us k (num - (evs.length + u.txEvs))).map fun r => (evs ++ r.1, r.2)

/-! ## The socket -/

/-- `rx_buf_1`, `rx_len_1`, `rx_buf_2` and `rx_len_2` of a socket. A pointer is an offset in
the receive buffer, or `none` if it points elsewhere. -/
structure RxPieces where
  buf1 : Option Nat
  len1 : Nat
  buf2 : Option Nat
  len2 : Nat

/-- The connection's receive queue, the pieces, and `CSTF_RXCLOSED`. -/
structure Socket where
  rx : RdmaQueue
  pieces : RxPieces
  rxClosed : Bool

/-- `ev_conn_received`; `none` is its `abort`. -/
def evConnReceived (p : RxPieces) (buf len : Nat) : Option RxPieces :=
  if p.len1 = 0 then
    -- no data currently ready on socket
    some { p with len1 := len, buf1 := some buf, len2 := 0 }
  else if p.len2 = 0 ∧ p.buf1.map (· + p.len1) = some buf then
    -- append to previous location 1
    some { p with len1 := p.len1 + len }
  else if p.buf2.map (· + p.len2) = some buf then
    -- append to previous location 2
    some { p with len2 := p.len2 + len }
  else if p.len2 ≠ 0 then none
  else some { p with len2 := len, buf2 := some buf }

def Socket.deliver : Socket → List ConnEvent → Option Socket
  | s, [] => some s
  | s, .received buf len :: evs => match evConnReceived s.pieces buf len with
    | none => none
    | some p => deliver { s with pieces := p } evs
  | s, .rxClosed :: evs => deliver { s with rxClosed := true } evs

/-- `memcpy` of `n` bytes from a piece. -/
def memcpyFrom (m : Nat → Byte) (buf : Option Nat) (n : Nat) : List Byte :=
  match buf with
  | some o => slice m o n
  | none => []

/-- The copy of the pieces into a buffer of `len` bytes. -/
def rxCopy (m : Nat → Byte) (p : RxPieces) (len : Nat) : RxPieces × List Byte :=
  let whole := p.len1 ≤ len
  let out := if whole then memcpyFrom m p.buf1 p.len1 else []
  let off := if whole then p.len1 else 0
  let p : RxPieces := if whole then ⟨p.buf2, p.len2, none, 0⟩ else p
  let len2 := min p.len1 (len - off)
  ({ p with buf1 := p.buf1.map (· + len2), len1 := p.len1 - len2 }, out ++ memcpyFrom m p.buf1 len2)

def rxCopyVec (m : Nat → Byte) : RxPieces → List Nat → RxPieces × List Byte
  | p, [] => (p, [])
  | p, len :: lens =>
    if p.len1 > 0 then
      let r := rxCopy m p len
      let r' := rxCopyVec m r.1 lens
      (r'.1, r.2 ++ r'.2)
    else (p, [])

/-- `flextcp_connection_rx_done`; a failure is not looked at. -/
def flextcpConnectionRxDone (rx : RdmaQueue) (len : Nat) : Option RdmaQueue :=
  (rqTryDequeue rx false len).map (·.queue)

/-- The end of a receive call, that copied `r`. -/
def Socket.received (s : Socket) (r : RxPieces × List Byte) : Option (Socket × List Byte) :=
  if r.2.length > 0 then
    (flextcpConnectionRxDone s.rx r.2.length).map fun q => ({ s with rx := q, pieces := r.1 }, r.2)
  else some ({ s with pieces := r.1 }, r.2)

/-- Nothing to copy yet: a receive call polls or gives up. -/
def Socket.waits (s : Socket) : Bool := s.pieces.len1 == 0 && !s.rxClosed

def recvSimple (s : Socket) (len : Nat) : Option (Socket × List Byte) :=
  if len = 0 ∨ s.waits then some (s, [])
  else s.received (rxCopy s.rx.buffer s.pieces len)

def tasRecvmsg (s : Socket) (lens : List Nat) : Option (Socket × List Byte) :=
  if lens.sum = 0 ∨ s.waits then some (s, [])
  else s.received (rxCopyVec s.rx.buffer s.pieces lens)

/-! ## Runs -/

/-- A socket, the bytes flushed into its queue, the updates not processed yet, and the bytes
returned by receive calls. -/
structure SocketRun where
  sock : Socket
  stream : List Byte
  updates : List ConnUpdate
  returned : List Byte

/-- Bytes are flushed, with the update that announces them; the context is polled, when `k`
updates have arrived and there is room for `num` events; a receive call. -/
inductive SocketOp where
  | flush (bytes : List Byte) (eos : Bool) (txNeeded txEvs : Nat)
  | poll (k num : Nat)
  | recv (len : Nat)
  | recvmsg (lens : List Nat)

/-- `none` is an `abort` or a failed assertion. Bytes that do not fit are not flushed. -/
def socketStep (s : SocketRun) : SocketOp → Option SocketRun
  | .flush bytes eos txNeeded txEvs => match txPublish s.sock.rx bytes with
    | none => some s
    | some q => some { s with
        sock := { s.sock with rx := q }
        stream := s.stream ++ bytes
        updates := s.updates ++ [⟨BitVec.ofNat 32 bytes.length, eos, txNeeded, txEvs⟩] }
  | .poll k num => match fastpathPollVec s.sock.rx s.updates k num with
    | none => none
    | some (evs, us) => (s.sock.deliver evs).map fun sock => { s with sock := sock, updates := us }
  | .recv len => (recvSimple s.sock len).map fun r => { s with sock := r.1, returned := s.returned ++ r.2 }
  | .recvmsg lens => (tasRecvmsg s.sock lens).map fun r => { s with sock := r.1, returned := s.returned ++ r.2 }

/-- A connected socket on which nothing was received; the pointers may be anything. -/
def socketInit (rx : RdmaQueue) (buf1 buf2 : Option Nat) : SocketRun :=
  ⟨⟨rx, ⟨buf1, 0, buf2, 0⟩, false⟩, [], [], []⟩

/-- A poll processes at most one update with bytes, and only when all bytes announced before
are read. -/
def socketOk (s : SocketRun) : SocketOp → Prop
  | .poll k _ => (s.updates.take k).countP (·.rxBump.toNat > 0) = 0 ∨
      s.sock.pieces.len1 = 0 ∧ (s.updates.take k).countP (·.rxBump.toNat > 0) = 1
  | _ => True

instance (s : SocketRun) : ∀ op, Decidable (socketOk s op)
  | .poll .. => inferInstanceAs (Decidable (_ ∨ _))
  | .flush .. | .recv _ | .recvmsg _ => isTrue trivial

/-! ## Pieces -/

/-- A piece of `len` bytes starts at the cell of byte `n` and does not reach over the end of
the ring. -/
def PieceAt (B : Nat) (buf : Option Nat) (len n : Nat) : Prop :=
  0 < len → ∃ o, buf = some o ∧ o % B = n % B ∧ o + len ≤ B

theorem PieceAt.drop {B len n k : Nat} {buf : Option Nat} (h : PieceAt B buf len n) (hk : k ≤ len) :
    PieceAt B (buf.map (· + k)) (len - k) (n + k) := by
  intro hpos
  obtain ⟨o, rfl, ho, hle⟩ := h (by omega)
  exact ⟨o + k, rfl, by rw [Nat.add_mod, ho, ← Nat.add_mod], by omega⟩

theorem PieceAt.memcpy {B len n k : Nat} {buf : Option Nat} (h : PieceAt B buf len n) (hk : k ≤ len)
    {m : Nat → Byte} {D : Nat} {stream : List Byte} (hring : Agree B m D stream.length (stream.getD · 0))
    (hD : D ≤ n) (hn : n + k ≤ stream.length) : memcpyFrom m buf k = (stream.drop n).take k := by
  rcases Nat.eq_zero_or_pos k with rfl | hpos
  · cases buf <;> rfl
  · obtain ⟨o, rfl, ho, hle⟩ := h (by omega)
    rw [memcpyFrom, slice_eq_take m ho (by omega), hring.take_eq hD hn, map_getD_eq _ _ hn]

/-- The pieces are the bytes from `D` up to `A`. -/
structure PiecesOf (B : Nat) (p : RxPieces) (D A : Nat) : Prop where
  total : D + p.len1 + p.len2 = A
  first : p.len1 = 0 → p.len2 = 0
  buf1 : PieceAt B p.buf1 p.len1 D
  buf2 : PieceAt B p.buf2 p.len2 (D + p.len1)

section Copy

variable {B D A : Nat} {p : RxPieces} {m : Nat → Byte} {stream : List Byte}

theorem rxCopy_spec (h : PiecesOf B p D A) (hring : Agree B m D stream.length (stream.getD · 0))
    (hA : A ≤ stream.length) (len : Nat) :
    ∃ k, D + k ≤ A ∧ (rxCopy m p len).2 = (stream.drop D).take k ∧ PiecesOf B (rxCopy m p len).1 (D + k) A := by
  have htotal := h.total
  unfold rxCopy
  by_cases hwhole : p.len1 ≤ len
  · -- the first piece, and a part of the second
    simp only [hwhole, if_true]
    generalize hn : min p.len2 (len - p.len1) = n
    have hle : n ≤ p.len2 := by omega
    refine ⟨p.len1 + n, by omega, ?_, ⟨?_, fun _ => rfl, ?_, fun h0 => absurd h0 (Nat.lt_irrefl 0)⟩⟩
    · rw [h.buf1.memcpy (Nat.le_refl _) hring (Nat.le_refl _) (by omega),
        h.buf2.memcpy hle hring (by omega) (by omega), take_add, drop_drop]
    · simp only
      omega
    · rw [← Nat.add_assoc]
      exact h.buf2.drop hle
  · -- a part of the first piece
    simp only [hwhole, if_false, Nat.sub_zero, nil_append]
    have hmin : min p.len1 len = len := by omega
    rw [hmin]
    refine ⟨len, by omega, h.buf1.memcpy (by omega) hring (Nat.le_refl _) (by omega), ⟨?_, ?_, ?_, ?_⟩⟩
    · simp only
      omega
    · simp only
      omega
    · exact h.buf1.drop (by omega)
    · simp only
      rw [show D + len + (p.len1 - len) = D + p.len1 by omega]
      exact h.buf2

theorem rxCopyVec_spec (h : PiecesOf B p D A) (hring : Agree B m D stream.length (stream.getD · 0))
    (hA : A ≤ stream.length) (lens : List Nat) :
    ∃ k, D + k ≤ A ∧ (rxCopyVec m p lens).2 = (stream.drop D).take k ∧ PiecesOf B (rxCopyVec m p lens).1 (D + k) A := by
  have htotal := h.total
  induction lens generalizing p D with
  | nil => exact ⟨0, by omega, rfl, h⟩
  | cons len lens ih =>
    unfold rxCopyVec
    split
    · obtain ⟨k, hk, hout, hp⟩ := rxCopy_spec h hring hA len
      obtain ⟨k', hk', hout', hp'⟩ := ih hp (hring.mono (Nat.le_add_right _ _) (Nat.le_refl _)) hp.total
      refine ⟨k + k', by omega, ?_, ?_⟩
      · simp [hout, hout', take_add]
      · rw [← Nat.add_assoc]
        exact hp'
    · exact ⟨0, by omega, rfl, h⟩

end Copy

/-! ## Events -/

theorem Socket.deliver_append (s : Socket) (evs evs' : List ConnEvent) :
    s.deliver (evs ++ evs') = (s.deliver evs).bind (·.deliver evs') := by
  induction evs generalizing s with
  | nil => rfl
  | cons ev evs ih =>
    cases ev with
    | received buf len =>
      simp only [cons_append, Socket.deliver]
      split
      · rfl
      · exact ih _
    | rxClosed => exact ih _

section Deliver

variable {B D A P : Nat} {s : Socket}

theorem Socket.deliver_eos (s : Socket) (eos : Bool) :
    ∃ s', s.deliver (if eos then [.rxClosed] else []) = some s' ∧ s'.rx = s.rx ∧ s'.pieces = s.pieces := by
  cases eos with
  | true => exact ⟨_, rfl, rfl, rfl⟩
  | false => exact ⟨s, rfl, rfl, rfl⟩

theorem evConnReceived_first {p : RxPieces} (buf len : Nat) (hp : p.len1 = 0) (ho : buf % B = D % B)
    (hle : buf + len ≤ B) : ∃ p', evConnReceived p buf len = some p' ∧ PiecesOf B p' D (D + len) ∧
      p'.len1 = len ∧ p'.len2 = 0 ∧ p'.buf1 = some buf := by
  refine ⟨{ p with len1 := len, buf1 := some buf, len2 := 0 }, by rw [evConnReceived, if_pos hp], ?_, rfl, rfl, rfl⟩
  exact ⟨rfl, fun _ => rfl, fun _ => ⟨buf, rfl, ho, hle⟩, fun h0 => absurd h0 (Nat.lt_irrefl 0)⟩

theorem evConnReceived_second {p : RxPieces} {o : Nat} (len : Nat) (h : PiecesOf B p D A) (hbuf : p.buf1 = some o)
    (hpos : 0 < p.len1) (h0 : p.len2 = 0) (hend : o + p.len1 = B) (hle : len ≤ B) :
    ∃ p', evConnReceived p 0 len = some p' ∧ PiecesOf B p' D (A + len) := by
  have htotal := h.total
  obtain ⟨o', ho', hmod, -⟩ := h.buf1 hpos
  rw [hbuf, Option.some.injEq] at ho'
  subst ho'
  -- the byte behind the first piece is the first one of a lap
  have hlap : 0 % B = (D + p.len1) % B := by
    rw [Nat.add_mod, ← hmod, ← Nat.add_mod, hend, Nat.mod_self, Nat.zero_mod]
  have hspec (b : Option Nat) (hb : b = some 0) :
      PiecesOf B { p with len2 := len, buf2 := b } D (A + len) :=
    ⟨by simp only; omega, fun h => absurd h (by simp only; omega), h.buf1,
      fun _ => ⟨0, hb, hlap, by simp only; omega⟩⟩
  have hne : ¬ (p.len2 = 0 ∧ p.buf1.map (· + p.len1) = some 0) := by
    rw [hbuf, Option.map_some, Option.some.injEq]
    omega
  unfold evConnReceived
  rw [if_neg (by omega), if_neg hne, h0]
  split
  · rename_i hb
    refine ⟨_, rfl, ?_⟩
    rw [Nat.zero_add]
    exact hspec _ (by simpa using hb)
  · rw [if_neg (by simp)]
    exact ⟨_, rfl, hspec _ rfl⟩

theorem deliver_bytes (bump : Nat) (hq : NicTx s.rx P D) (hB : s.rx.bufferSize = B) (hp : s.pieces.len1 = 0)
    (hb : bump ≤ B) (hpos : 0 < bump) :
    ∃ s', s.deliver (if s.rx.rxOffset + bump > s.rx.bufferSize then
        [.received s.rx.rxOffset (s.rx.bufferSize - s.rx.rxOffset), .received 0 (bump - (s.rx.bufferSize - s.rx.rxOffset))]
      else [.received s.rx.rxOffset bump]) = some s' ∧ s'.rx = s.rx ∧ PiecesOf B s'.pieces D (D + bump) := by
  have hle := pos_le hq.size_pos D
  have hmod := pos_mod hq.size_pos D
  rw [← hq.rx, hB] at hle hmod
  rw [hB]
  generalize s.rx.rxOffset = off at hle hmod ⊢
  split
  · obtain ⟨p₁, e₁, h₁, hlen₁, hlen₂, hbuf⟩ := evConnReceived_first off (B - off) hp hmod (by omega)
    have hsum : D + (B - off) + (bump - (B - off)) = D + bump := by omega
    by_cases h0 : B = off
    · -- the reader is at the end of the ring: the first event is empty
      have hz : 0 % B = D % B := by
        rw [← hmod, ← h0, Nat.mod_self, Nat.zero_mod]
      obtain ⟨p₂, e₂, h₂, -⟩ := evConnReceived_first (p := p₁) 0 (bump - (B - off)) (by omega) hz (by omega)
      refine ⟨{ s with pieces := p₂ }, ?_, rfl, ?_⟩
      · simp [Socket.deliver, e₁, e₂]
      · rw [← hsum, h0, Nat.sub_self, Nat.add_zero]
        rw [h0, Nat.sub_self] at h₂
        exact h₂
    · obtain ⟨p₂, e₂, h₂⟩ := evConnReceived_second (bump - (B - off)) h₁ hbuf (by omega) hlen₂ (by omega) (by omega)
      refine ⟨{ s with pieces := p₂ }, ?_, rfl, ?_⟩
      · simp [Socket.deliver, e₁, e₂]
      · rw [← hsum]
        exact h₂
  · obtain ⟨p₁, e₁, h₁, -⟩ := evConnReceived_first off bump hp hmod (by omega)
    refine ⟨{ s with pieces := p₁ }, ?_, rfl, h₁⟩
    simp [Socket.deliver, e₁]

theorem deliver_update (hq : NicTx s.rx P D) (hB : s.rx.bufferSize = B) (hp : PiecesOf B s.pieces D A) (u : ConnUpdate)
    (hu : u.rxBump.toNat = 0 ∨ A = D) (hle : A + u.rxBump.toNat ≤ D + B) :
    ∃ s', s.deliver (u.events s.rx) = some s' ∧ s'.rx = s.rx ∧ PiecesOf B s'.pieces D (A + u.rxBump.toNat) := by
  unfold ConnUpdate.events
  rw [Socket.deliver_append]
  by_cases h0 : u.rxBump.toNat = 0
  · obtain ⟨s', e, hrx, hpieces⟩ := s.deliver_eos u.eos
    rw [h0, if_neg (Nat.lt_irrefl 0), Nat.add_zero]
    exact ⟨s', e, hrx, hpieces ▸ hp⟩
  · obtain rfl := hu.resolve_left h0
    have htotal := hp.total
    obtain ⟨s₁, e₁, hrx₁, hp₁⟩ := deliver_bytes u.rxBump.toNat hq hB (by omega) (by omega) (by omega)
    obtain ⟨s', e, hrx, hpieces⟩ := s₁.deliver_eos u.eos
    simp only [ConnUpdate.wraps, decide_eq_true_eq, gt_iff_lt, Nat.pos_of_ne_zero h0, if_true] at e₁ ⊢
    exact ⟨s', by rw [e₁]; exact e, hrx.trans hrx₁, hpieces ▸ hp₁⟩

def updateBytes (us : List ConnUpdate) : Nat := (us.map (·.rxBump.toNat)).sum

theorem updateBytes_cons (u : ConnUpdate) (us : List ConnUpdate) :
    updateBytes (u :: us) = u.rxBump.toNat + updateBytes us := by
  simp [updateBytes]

theorem updateBytes_append (us us' : List ConnUpdate) : updateBytes (us ++ us') = updateBytes us + updateBytes us' := by
  simp [updateBytes]

theorem deliver_updates (hq : NicTx s.rx P D) (hB : s.rx.bufferSize = B) (hp : PiecesOf B s.pieces D A)
    (us : List ConnUpdate) (hone : us.countP (·.rxBump.toNat > 0) = 0 ∨ A = D ∧ us.countP (·.rxBump.toNat > 0) = 1)
    (hle : A + updateBytes us ≤ D + B) :
    ∃ s', s.deliver (us.flatMap (·.events s.rx)) = some s' ∧ s'.rx = s.rx ∧ PiecesOf B s'.pieces D (A + updateBytes us) := by
  induction us generalizing s A with
  | nil => exact ⟨s, rfl, rfl, hp⟩
  | cons u us ih =>
    rw [updateBytes_cons] at hle ⊢
    rw [countP_cons] at hone
    have hu : u.rxBump.toNat = 0 ∨ A = D := by
      rcases hone with h | ⟨h, -⟩
      · left
        by_contra h0
        rw [if_pos (decide_eq_true (Nat.pos_of_ne_zero h0))] at h
        omega
      · exact .inr h
    obtain ⟨s₁, e₁, hrx₁, hp₁⟩ := deliver_update hq hB hp u hu (by omega)
    -- after an update with bytes there are no more of them
    have hrest : us.countP (·.rxBump.toNat > 0) = 0 ∨
        A + u.rxBump.toNat = D ∧ us.countP (·.rxBump.toNat > 0) = 1 := by
      by_cases h0 : u.rxBump.toNat = 0
      · rw [if_neg (by simp [h0])] at hone
        rw [h0]
        exact hone
      · rw [if_pos (decide_eq_true (Nat.pos_of_ne_zero h0))] at hone
        omega
    obtain ⟨s', e, hrx, hp'⟩ := ih (s := s₁) (hrx₁ ▸ hq) (hrx₁ ▸ hB) hp₁ hrest (by omega)
    refine ⟨s', ?_, hrx.trans hrx₁, by rw [← Nat.add_assoc]; exact hp'⟩
    rw [hrx₁] at e
    rw [flatMap_cons, Socket.deliver_append, e₁]
    exact e

end Deliver

theorem fastpathPollVec_spec {rx : RdmaQueue} {us : List ConnUpdate} (k num : Nat)
    (hus : ∀ u ∈ us, u.rxBump.toNat ≤ rqNbytesEnqueued rx) :
    ∃ n rest, n ≤ k ∧ us = us.take n ++ rest ∧
      fastpathPollVec rx us k num = some ((us.take n).flatMap (·.events rx), rest) := by
  induction k generalizing us num with
  | zero => exact ⟨0, us, Nat.le_refl _, by simp, by simp [fastpathPollVec]⟩
  | succ k ih =>
    cases us with
    | nil => exact ⟨0, [], Nat.zero_le _, rfl, rfl⟩
    | cons u us =>
      have hu := hus u mem_cons_self
      unfold fastpathPollVec eventArxConnupdate
      simp only
      by_cases hroom : (if u.rxBump.toNat > 0 then if u.wraps rx then 2 else 1 else 0) + u.txNeeded +
          (if u.eos then 1 else 0) > num
      · rw [if_pos hroom]
        exact ⟨0, u :: us, Nat.zero_le _, by simp, by simp⟩
      · rw [if_neg hroom, if_neg (by omega)]
        obtain ⟨n, rest, hn, hsplit, e⟩ := ih (num - ((u.events rx).length + u.txEvs))
          fun u' hu' => hus u' (mem_cons_of_mem u hu')
        refine ⟨n + 1, rest, by omega, ?_, ?_⟩
        · rw [take_succ_cons, cons_append, ← hsplit]
        · simp [e]

/-! ## Steps -/

/-- The bytes returned are the first ones of the stream, the pieces are the next ones, and the
updates announce the rest. -/
structure SocketInv (s : SocketRun) : Prop where
  queue : NicTx s.sock.rx s.stream.length s.returned.length
  ring : Agree s.sock.rx.bufferSize s.sock.rx.buffer s.returned.length s.stream.length (s.stream.getD · 0)
  returned : s.returned <+: s.stream
  pieces : ∃ A, PiecesOf s.sock.rx.bufferSize s.sock.pieces s.returned.length A ∧
    A + updateBytes s.updates = s.stream.length

section Steps

variable {s : SocketRun}

theorem flush_inv (h : SocketInv s) (bytes : List Byte) (eos : Bool) (txNeeded txEvs : Nat) {q : RdmaQueue}
    (hq : txPublish s.sock.rx bytes = some q) :
    SocketInv { s with
      sock := { s.sock with rx := q }
      stream := s.stream ++ bytes
      updates := s.updates ++ [⟨BitVec.ofNat 32 bytes.length, eos, txNeeded, txEvs⟩] } := by
  obtain ⟨hq', hsize, hbuf, hroom⟩ := h.queue.publish hq
  obtain ⟨A, hp, hA⟩ := h.pieces
  have hlt := h.queue.size; have htaken := h.queue.taken
  refine ⟨?_, ?_, h.returned.trans (prefix_append _ _), A, ?_, ?_⟩
  · simp only [length_append]
    exact hq'
  · simp only [hsize, hbuf, length_append]
    refine (h.ring.congr fun c _ hc => getD_append_of_lt hc).put_next htaken hroom fun j _ => ?_
    simp [List.getElem?_append_right (Nat.le_add_right _ _)]
  · simp only [hsize]
    exact hp
  · have hlen : (BitVec.ofNat 32 bytes.length).toNat = bytes.length := Serial.toNat_ofNat_of_lt (by omega)
    simp only [updateBytes_append, updateBytes_cons, hlen, length_append]
    simp only [updateBytes, map_nil, sum_nil] at hA ⊢
    omega

theorem poll_inv (h : SocketInv s) {k num : Nat} (hok : socketOk s (.poll k num)) :
    ∃ s', socketStep s (.poll k num) = some s' ∧ SocketInv s' := by
  obtain ⟨A, hp, hA⟩ := h.pieces
  have hlap := h.queue.lap; have htotal := hp.total
  have hus : ∀ u ∈ s.updates, u.rxBump.toNat ≤ rqNbytesEnqueued s.sock.rx := by
    intro u hu
    have : u.rxBump.toNat ≤ updateBytes s.updates := single_le_sum (by simp) _ (mem_map_of_mem hu)
    rw [h.queue.enqueued]
    omega
  obtain ⟨n, rest, hn, hsplit, e⟩ := fastpathPollVec_spec k num hus
  have hsum := congrArg updateBytes hsplit
  rw [updateBytes_append] at hsum
  have hone : (s.updates.take n).countP (·.rxBump.toNat > 0) = 0 ∨
      A = s.returned.length ∧ (s.updates.take n).countP (·.rxBump.toNat > 0) = 1 := by
    have hle : (s.updates.take n).countP (·.rxBump.toNat > 0) ≤ (s.updates.take k).countP (·.rxBump.toNat > 0) :=
      (take_sublist_take_left hn).countP_le
    rcases hok with h0 | ⟨h0, h1⟩
    · exact .inl (by omega)
    · have := hp.first h0
      omega
  obtain ⟨sock, e', hrx, hp'⟩ := deliver_updates h.queue rfl hp _ hone (by omega)
  refine ⟨{ s with sock := sock, updates := rest }, ?_, ?_⟩
  · simp [socketStep, e, e']
  · refine ⟨by rw [hrx]; exact h.queue, by rw [hrx]; exact h.ring, h.returned, _, by rw [hrx]; exact hp', ?_⟩
    simp only
    omega

theorem received_inv (h : SocketInv s) {A k : Nat} (hA : A + updateBytes s.updates = s.stream.length)
    {r : RxPieces × List Byte} (hk : s.returned.length + k ≤ A) (hout : r.2 = (s.stream.drop s.returned.length).take k)
    (hp : PiecesOf s.sock.rx.bufferSize r.1 (s.returned.length + k) A) :
    ∃ r', s.sock.received r = some r' ∧ SocketInv { s with sock := r'.1, returned := s.returned ++ r'.2 } := by
  have hlen : r.2.length = k := by
    rw [hout, List.length_take, length_drop]
    omega
  have hlap := h.queue.lap
  have hpre : s.returned ++ r.2 <+: s.stream := by
    have e := prefix_iff_eq_take.mp h.returned
    rw [hout, e, List.length_take, Nat.min_eq_left h.queue.taken, ← take_add]
    exact take_prefix _ _
  have hdone : ∃ q, s.sock.received r = some ({ s.sock with rx := q, pieces := r.1 }, r.2) ∧
      NicTx q s.stream.length (s.returned.length + k) ∧ q.buffer = s.sock.rx.buffer ∧
      q.bufferSize = s.sock.rx.bufferSize := by
    simp only [Socket.received, hlen]
    split
    · have hfits : rqTryPossibleDequeue s.sock.rx false k true = _ :=
        rqTryPossibleDequeue_fits false true h.queue.rxAddr h.queue.size_pos h.queue.rx
          (by rw [h.queue.enqueued]; omega) (by omega)
      obtain ⟨-, hq, hb, hs⟩ := h.queue.dequeue hfits rfl
      refine ⟨_, ?_, hq, hb, hs⟩
      rw [flextcpConnectionRxDone, rqTryDequeue, hfits]
      rfl
    · obtain rfl : k = 0 := by omega
      exact ⟨s.sock.rx, rfl, h.queue, rfl, rfl⟩
  obtain ⟨q, e, hq, hb, hs⟩ := hdone
  refine ⟨_, e, ⟨?_, ?_, hpre, A, ?_, hA⟩⟩
  · simp only [length_append, hlen]
    exact hq
  · simp only [length_append, hlen, hb, hs]
    exact h.ring.mono (Nat.le_add_right _ _) (Nat.le_refl _)
  · simp only [length_append, hlen, hs]
    exact hp

theorem socketStep_total (s : SocketRun) (op : SocketOp) (h : SocketInv s) (hok : socketOk s op) :
    ∃ s', socketStep s op = some s' ∧ SocketInv s' := by
  have hwait : SocketInv { s with returned := s.returned ++ [] } := by
    rw [append_nil]
    exact h
  obtain ⟨A, hp, hA⟩ := h.pieces
  cases op with
  | flush bytes eos txNeeded txEvs =>
    simp only [socketStep]
    split
    · exact ⟨s, rfl, h⟩
    · rename_i q hq
      exact ⟨_, rfl, flush_inv h bytes eos txNeeded txEvs hq⟩
  | poll k num => exact poll_inv h hok
  | recv len =>
    simp only [socketStep, recvSimple]
    split
    · exact ⟨_, rfl, hwait⟩
    · obtain ⟨k, hk, hout, hp'⟩ := rxCopy_spec hp h.ring (by omega) len
      obtain ⟨r, e, h'⟩ := received_inv h hA hk hout hp'
      exact ⟨_, by rw [e]; rfl, h'⟩
  | recvmsg lens =>
    simp only [socketStep, tasRecvmsg]
    split
    · exact ⟨_, rfl, hwait⟩
    · obtain ⟨k, hk, hout, hp'⟩ := rxCopyVec_spec hp h.ring (by omega) lens
      obtain ⟨r, e, h'⟩ := received_inv h hA hk hout hp'
      exact ⟨_, by rw [e]; rfl, h'⟩

end Steps

/-- In every run of a connected socket in which updates with bytes are processed one at a time
and only when all bytes announced before are read, no call aborts, and the bytes returned are
the first ones of the stream. -/
theorem recv_fidelity {rx : RdmaQueue} (hfresh : TxFresh rx) (buf1 buf2 : Option Nat) (ops : List SocketOp)
    (hok : Run.All socketStep socketOk (socketInit rx buf1 buf2) ops) :
    ∃ s, Run.exec socketStep (socketInit rx buf1 buf2) ops = some s ∧ s.returned <+: s.stream := by
  have h₀ : SocketInv (socketInit rx buf1 buf2) :=
    ⟨hfresh.nicTx, Agree.empty (Nat.le_refl _), nil_prefix, 0,
      ⟨rfl, fun _ => rfl, fun h => absurd h (Nat.lt_irrefl 0), fun h => absurd h (Nat.lt_irrefl 0)⟩, rfl⟩
  obtain ⟨s, hs, h⟩ := Run.exec_total socketStep_total h₀ hok
  exact ⟨s, hs, h.returned⟩

theorem txFresh_zeroed : TxFresh (zeroedQueue 4096 18) := ⟨by decide, .inl ⟨4096, fun _ => 0, 106, 0, 0, rfl⟩⟩

/-- Eight bytes are read in two calls, eight more in one call with three buffers, and the last
four, which reach over the end of the ring, in two calls. -/
theorem recv_fidelity_around_the_ring :
    TxFresh (zeroedQueue 4096 18) ∧
    ∃ s, Run.exec socketStep (socketInit (zeroedQueue 4096 18) none none)
        [.flush [1, 2, 3, 4, 5, 6, 7, 8] false 0 0, .poll 1 16, .recv 5, .recv 3,
          .flush [9, 10, 11, 12, 13, 14, 15, 16] false 0 0, .poll 1 16, .recvmsg [3, 0, 7],
          .flush [17, 18, 19, 20] true 0 0, .poll 1 16, .recv 1, .recv 5] = some s ∧ s.returned <+: s.stream :=
  ⟨txFresh_zeroed, recv_fidelity txFresh_zeroed none none _ (by decide +kernel)⟩

/-- Three bytes are announced, and three more before the first ones are read: these are
returned twice. With a third batch the poll aborts. -/
theorem recv_repeated :
    (¬ ∀ rx, TxFresh rx → ∀ (buf1 buf2 : Option Nat) (ops : List SocketOp),
      ∀ s, Run.exec socketStep (socketInit rx buf1 buf2) ops = some s → s.returned <+: s.stream) ∧
    ¬ ∀ rx, TxFresh rx → ∀ (buf1 buf2 : Option Nat) (ops : List SocketOp),
      (Run.exec socketStep (socketInit rx buf1 buf2) ops).isSome = true := by
  refine ⟨fun h => ?_, fun h => ?_⟩
  · exact Run.not_forall_exec (by decide +kernel) (h (zeroedQueue 4096 18) txFresh_zeroed none none
      [.flush [1, 2, 3] false 0 0, .poll 1 16, .flush [4, 5, 6] false 0 0, .poll 1 16, .recv 6])
  · exact absurd (h (zeroedQueue 4096 18) txFresh_zeroed none none
      [.flush [1, 2, 3] false 0 0, .flush [4, 5, 6] false 0 0, .flush [7] false 0 0, .poll 3 16]) (by decide +kernel)

end TasNic
