import TasNic.Slow.Frames

/-!
# SYN-ACKs that are lost

A client that gets no SYN-ACK sends its SYN again. `synack_repeated`: as long as
the connection is open, `conn_packet` answers a SYN without ECN flags with the
SYN-ACK that `conn_reg_synack` sent, but for the timestamp. A SYN that offers ECN,
as the slow path sends it itself, gets no answer (`synack_not_repeated`).
-/

namespace TasNic

open Function Run

variable {cfg : SlowConfig} {s s' : Slow} {c : Nat} {x x' : Connection} {op : SlowOp}

/-- What a SYN-ACK says, but for the address of the next hop and the timestamp. -/
def Connection.synack (x : Connection) : BitVec 32 × BitVec 16 × BitVec 16 × BitVec 32 × BitVec 32 × BitVec 9 :=
  (x.remoteIp, x.remotePort, x.localPort, x.localSeq, x.remoteSeq, x.ecnFlags)

def Slow.Opened (s : Slow) (c : Nat) : Prop := ∃ x, s.conns c = some x ∧ x.status = .opened

/-! ## Steps -/

/-- Two states in which, if the connection `c` is open in both, its SYN-ACK is the same. -/
def SameSynack (c : Nat) (s s' : Slow) : Prop :=
  ∀ x x', s.conns c = some x → x.status = .opened → s'.conns c = some x' → x'.status = .opened → x'.synack = x.synack

theorem synack_unique {o : Option Connection} (hx : o = some x) (hx' : o = some x') : x'.synack = x.synack := by
  cases hx.symm.trans hx'
  rfl

theorem SameSynack.of_eq (h : s'.conns c = s.conns c) : SameSynack c s s' :=
  fun _ _ hx _ hx' _ => synack_unique hx (h ▸ hx')

theorem SameSynack.of_touches {d : Nat} (h : Touches d s s') (hc : d = c → SameSynack c s s') : SameSynack c s s' := by
  by_cases e : d = c
  · exact hc e
  · exact .of_eq (h.1 c fun e' => e e'.symm)

theorem Pairing.sameSynack {l d : Nat} {flow : Option (BitVec 32)} {li : Listener} (h : Pairing cfg l flow li d s s') :
    SameSynack c s s' := by
  cases h with
  | dropped _ hconns _ => exact .of_eq (by rw [hconns])
  | refused opts ts y _ _ _ _ hconns _ =>
    by_cases e : c = d
    · intro x x' _ _ hx' hst'
      rw [hconns, e, update_self] at hx'
      cases hx'
      cases hst'
    · exact .of_eq (by rw [hconns, update_of_ne e])
  | accepted opts ts y f _ _ _ _ hconns _ =>
    by_cases e : c = d
    · intro x x' _ _ hx' hst'
      rw [hconns, e, update_self] at hx'
      cases hx'
      cases hst'
    · exact .of_eq (by rw [hconns, update_of_ne e])

theorem tcpPollConn_opened {rooms : Nat → Bool} (hx : s.conns c = some x) (hst : x.status = .opened) :
    tcpPollConn cfg rooms c s = .ok s := by
  rw [tcpPollConn, Slow.conn_eq hx, ok_bind, hst, if_neg (by decide), if_neg (by decide)]

theorem tcpPollTurns_opened (rooms : Nat → Bool) (turns : Nat) (s : Slow) (c : Nat) : Returns
    (fun s' => ∀ x, s.conns c = some x → x.status = .opened → s'.conns c = some x) (tcpPollTurns cfg rooms turns s) := by
  refine tcpPollTurns_keeps (R := fun s s' => ∀ x, s.conns c = some x → x.status = .opened → s'.conns c = some x)
    (fun _ _ hx _ => hx) (fun h h' x hx hst => h' x (h x hx hst) hst) (fun d q s => ?_) turns s
  by_cases e : d = c
  · subst e
    by_cases hop : s.Opened d
    · obtain ⟨x, hx, hst⟩ := hop
      rw [tcpPollConn_opened (s := { s with connAsyncQ := q }) hx hst]
      exact fun y hy _ => hy
    · exact (ends_any _).imp fun s' _ x hx hst => absurd ⟨x, hx, hst⟩ hop
  · exact tcpPollConn_leaves.imp fun s' h x hx _ => (h.1 c (Ne.symm e)).trans hx

theorem kinConnClose_sameSynack {ctx : AppContext} {name : ConnName} {nic : NicDisabled}
    (hs : kinConnClose ctx name nic s = .ok s') : SameSynack c s s' := by
  obtain ⟨d, ht, hclosed⟩ := ends_ok kinConnClose_closed hs
  refine .of_touches ht fun e x x' hx _ hx' hst' => ?_
  subst e
  obtain hx'' | hst := hclosed x' hx'
  · exact synack_unique hx hx''
  · cases hst'.symm.trans hst

theorem kinAcceptConn_sameSynack {ctx : AppContext} {req : AcceptConn} {mem : ConnMem} {flow : Option (BitVec 32)}
    (hen : ∀ m ∈ mem, m.1 < addresses ∧ s.conns m.1 = none) (hs : kinAcceptConn cfg ctx req mem flow s = .ok s') :
    SameSynack c s s' := by
  obtain ⟨-, hconns, -⟩ | ⟨d, junk, l, li, rfl, -, -, hend⟩ := kinAcceptConn_cases hs
  · exact .of_eq (congrFun hconns c)
  -- the new connection is not `c`, which is allocated
  have hold : ∀ x, s.conns c = some x → (s.waits ctx req l li d junk).conns c = some x := by
    intro x hx
    have hcd : c ≠ d := by
      rintro rfl
      rw [(hen (c, junk) rfl).2] at hx
      cases hx
    exact (update_of_ne hcd ..).trans ((update_of_ne hcd ..).trans hx)
  obtain ⟨-, rfl⟩ | hacc := hend
  · exact fun x x' hx _ hx' _ => synack_unique (hold x hx) hx'
  · obtain ⟨li₁, e, -, -, -, -, hpair⟩ := listenerAccept_pairs hacc
    exact fun x x' hx => hpair.sameSynack x x' (hold x hx)

theorem tcpPacket_sameSynack {pkt : RawPkt} {fnCore : BitVec 32} {flowGroup : BitVec 16} {flow : Option (BitVec 32)}
    {room : Bool} (hs : tcpPacket cfg pkt fnCore flowGroup flow room s = .ok s') : SameSynack c s s' := by
  obtain ⟨-, ⟨hconns, -⟩ | ⟨d, opts, hd⟩⟩ | ⟨l, opts, -, hl⟩ := tcpPacket_cases hs
  · exact .of_eq (congrFun hconns c)
  · refine .of_touches (ends_ok connPacket_leaves hd) fun e x x' hx hst hx' hst' => ?_
    subst e
    obtain hx'' | hf | ⟨-, y, hy, hsent⟩ := ends_ok connPacket_status hd x' hx'
    · exact synack_unique hx hx''
    · cases hst'.symm.trans hf
    · rw [hx] at hy
      cases hy
      cases hst.symm.trans hsent
  · obtain ⟨li, -, ⟨-, hconns, -⟩ | ⟨-, s₁, hc₁, -, -, -, ⟨-, rfl⟩ | hacc⟩⟩ := listenerPacket_cases hl
    · exact .of_eq (congrFun hconns c)
    · exact .of_eq (congrFun hc₁ c)
    · obtain ⟨li₁, e, -, -, -, -, hpair⟩ := listenerAccept_pairs hacc
      exact fun x x' hx => hpair.sameSynack x x' (hc₁ ▸ hx)

theorem slowCall_sameSynack (hen : s.Enabled op) (hs : slowCall cfg s op = .ok s') : SameSynack c s s' := by
  cases op with
  | connOpen ctx req mem route =>
    cases mem with
    | none =>
      cases hs
      exact .of_eq rfl
    | some m =>
      refine .of_touches (ends_ok kinConnOpen_leaves hs) fun e x x' hx => ?_
      rw [← e, (hen m rfl).2] at hx
      cases hx
  | connMove ctx name known => exact .of_eq (congrFun (ends_ok kinConnMove_same hs).1 c)
  | connClose ctx name nic => exact kinConnClose_sameSynack hs
  | listenOpen ctx req mem =>
    cases hs
    exact .of_eq (congrFun (kinListenOpen_cases ctx req mem s).1 c)
  | acceptConn ctx req mem flow => exact kinAcceptConn_sameSynack hen hs
  | packet pkt fnCore flowGroup flow room => exact tcpPacket_sameSynack hs
  | arpDone d status mac =>
    refine .of_touches (ends_ok arpDone_leaves hs) fun e x x' hx _ hx' _ => ?_
    subst e
    obtain ⟨y, hy, rfl⟩ := ends_ok arpDone_resolved hs x' hx'
    rw [hx] at hy
    cases hy
    rfl
  | tcpPoll rooms =>
    intro x x' hx hst hx' _
    exact synack_unique (ends_ok (tcpPollTurns_opened rooms _ s c) hs x hx hst) hx'
  | timeout d t room =>
    have ht := ends_ok tcpTimeout_leaves hs
    refine .of_touches (s := s) ht fun e x x' _ _ hx' hst' => ?_
    subst e
    rcases ends_ok tcpTimeout_status hs x' hx' with h | h <;> cases hst'.symm.trans h
  | ccPoll => exact .of_eq (congrFun (ends_ok ccPoll_same hs).1 c)

/-! ## The answer -/

theorem exec_sameSynack {ops : List SlowOp} (hops : All (slowStep cfg) (SlowOk fun s _ => s.Opened c) (.ok s) ops)
    (hs : exec (slowStep cfg) (.ok s) ops = some (.ok s')) (hx : s.conns c = some x) (hx' : s'.conns c = some x')
    (hst' : x'.status = .opened) : x'.synack = x.synack := by
  suffices hr : Ends (fun _ : Stop => True) (fun s => ∀ y, s.conns c = some y → y.status = .opened → y.synack = x.synack)
    (.ok s') from hr x' hx' hst'
  refine exec_inv (fun r op r' hI hok hstep => ?_) ?_ hops hs
  · cases r with
    | error e => cases hstep
    | ok s₀ =>
      cases hstep
      obtain ⟨hen, y₀, hy₀, hst₀⟩ := hok
      cases hcall : slowCall cfg s₀ op with
      | error e => trivial
      | ok s₁ =>
        intro y hy hst
        rw [slowCall_sameSynack hen hcall y₀ y hy₀ hst₀ hy hst]
        exact hI y₀ hy₀ hst₀
  · intro y hy _
    rw [hx] at hy
    cases hy
    rfl

/-- The segment that `conn_reg_synack` sends. -/
def Connection.synackSegment (x : Connection) : Segment :=
  ⟨x.remoteMac, x.remoteIp, x.remotePort, x.localPort, x.localSeq, x.remoteSeq, tcpSyn ||| tcpAck ||| x.ecnFlags,
    some x.synTs, some slowTcpMss⟩

/-- `conn_reg_synack` sends a SYN-ACK, and then tells the application. -/
theorem connRegSynack_sends {room : Bool} : Returns (fun s' => ∃ x msg, s.conns c = some x ∧
    s'.out = s.out ++ [.tx x.synackSegment] ++ [msg] ∧ s'.conns c = some { x with status := .opened })
    (connRegSynack room c s) := by
  refine (s.conn_ends c).bind fun x hx => ?_
  refine (Slow.conn_ends _ c).bind fun y _ => ?_
  split_ifs
  · exact ⟨x, _, hx, rfl, update_self ..⟩
  · trivial

theorem plain_syn : ∀ f : BitVec 9, f &&& ~~~(tcpEce ||| tcpCwr) = tcpSyn →
    (f &&& (tcpEce ||| tcpCwr) = 0 ↔ f = tcpSyn) ∧ f &&& tcpSyn = tcpSyn := by
  decide

/-- `conn_packet` answers the SYN in `b` in state `s` with the SYN-ACK that was sent from `s₀` to `s₁`. Only the
timestamp is that of the new SYN. -/
def SynackAgain (cfg : SlowConfig) (c : Nat) (s₀ s₁ s : Slow) (b : Nat → Byte) (opts : TcpOpts) (ts : Nat)
    (fnCore : BitVec 32) (flowGroup : BitVec 16) (flow : Option (BitVec 32)) (room : Bool) : Prop :=
  ∃ seg seg' msg, s₁.out = s₀.out ++ [.tx seg] ++ [msg] ∧
    connPacket cfg c b opts fnCore flowGroup flow room s = .ok (s.emit (.tx seg')) ∧
    seg'.seqno = seg.seqno ∧ seg'.ackno = seg.ackno ∧ seg'.mss = seg.mss ∧ seg'.flags = seg.flags ∧
    seg'.remoteIp = seg.remoteIp ∧ seg'.remotePort = seg.remotePort ∧ seg'.localPort = seg.localPort ∧
    seg'.tsEcho = some (tsVal b ts)

/-- The SYN-ACK that `conn_reg_synack` has sent in a turn of `tcp_poll` is what `conn_packet` answers to a SYN after any
further steps, while the connection is open, exactly if the SYN has no ECN flags. -/
theorem synack_repeated {s₀ s₁ s₂ : Slow} {room : Bool} (hreg : connRegSynack room c s₀ = .ok s₁)
    {rooms : Nat → Bool} {turns : Nat} (hpoll : tcpPollTurns cfg rooms turns s₁ = .ok s₂) {ops : List SlowOp}
    (hops : All (slowStep cfg) (SlowOk fun s _ => s.Opened c) (.ok s₂) ops)
    (hs : exec (slowStep cfg) (.ok s₂) ops = some (.ok s)) (hopen : s.Opened c) {b : Nat → Byte} {opts : TcpOpts} {ts : Nat}
    (hsyn : RawPkt.flags b &&& ~~~(tcpEce ||| tcpCwr) = tcpSyn) (hts : opts.ts = some ts) (fnCore : BitVec 32)
    (flowGroup : BitVec 16) (flow : Option (BitVec 32)) (room' : Bool) :
    SynackAgain cfg c s₀ s₁ s b opts ts fnCore flowGroup flow room' ↔ RawPkt.flags b &&& (tcpEce ||| tcpCwr) = 0 := by
  obtain ⟨x₀, msg, -, hout, hx₁⟩ := ends_ok connRegSynack_sends hreg
  have hx₂ := ends_ok (tcpPollTurns_opened rooms turns s₁ c) hpoll _ hx₁ rfl
  obtain ⟨x, hx, hst⟩ := hopen
  have hsame := exec_sameSynack hops hs hx₂ hx hst
  replace hsame : x.synack = x₀.synack := hsame
  simp only [Connection.synack, Prod.mk.injEq] at hsame
  obtain ⟨hip, hport, hlocal, hlseq, hrseq, hecn⟩ := hsame
  obtain ⟨hplain, hflag⟩ := plain_syn _ hsyn
  rw [hplain, SynackAgain, connPacket, Slow.conn_eq hx, ok_bind, if_neg (by rw [hst]; decide)]
  constructor
  · -- other SYNs are ignored
    rintro ⟨seg, seg', -, -, hans, -⟩
    by_contra hne
    rw [if_neg (fun h => hne h.2), if_pos ⟨hst, hflag⟩] at hans
    have hlen := congrArg (fun s => s.out.length) (Except.ok.inj hans)
    simp [Slow.emit] at hlen
  · intro hflags
    refine ⟨x₀.synackSegment, ⟨x.remoteMac, x.remoteIp, x.remotePort, x.localPort, x.localSeq, x.remoteSeq,
      tcpSyn ||| tcpAck ||| x.ecnFlags, some (tsVal b ts), some slowTcpMss⟩, msg, hout, ?_, hlseq, hrseq, rfl, ?_, hip, hport,
      hlocal, rfl⟩
    · rw [if_pos ⟨hst, hflags⟩, hts]
      rfl
    · rw [Connection.synackSegment, hecn]

/-- The connection 8 is accepted, and its SYN-ACK is to be sent. -/
def acceptedEight : Slow :=
  { slowInit 8192 with conns := update (fun _ => none) 8 (some { Connection.zeroed with status := .regSynack, localSeq := 1 }) }

def openedEight : Slow := (connRegSynack true 8 acceptedEight).toOption.getD acceptedEight

theorem synack_repeated_once : SynackAgain .plain 8 acceptedEight openedEight openedEight (RawPkt.plain 81 90 0x02 true).buf
    { ts := some 54 } 54 0 0 none true ↔ RawPkt.flags (RawPkt.plain 81 90 0x02 true).buf &&& (tcpEce ||| tcpCwr) = 0 := by
  have hopen : openedEight.Opened 8 := ⟨_, rfl, rfl⟩
  have hpoll : tcpPollTurns .plain (fun _ => true) 1 openedEight = .ok openedEight := rfl
  have hs : exec (slowStep .plain) (.ok openedEight) [.ccPoll] = some (.ok openedEight) := rfl
  have hreg : connRegSynack true 8 acceptedEight = .ok openedEight := rfl
  have hops : All (slowStep .plain) (SlowOk fun s _ => s.Opened 8) (.ok openedEight) [.ccPoll] :=
    ⟨⟨trivial, hopen⟩, trivial⟩
  exact synack_repeated hreg hpoll hops hs hopen (by decide) rfl 0 0 none true

/-- A SYN that offers ECN is accepted, and the SYN-ACK is sent. -/
def lostSynack : List SlowOp :=
  [.listenOpen ⟨0, 0⟩ ⟨1, 90, 4, false⟩ (some (0, fun _ => ⟨fun _ => 0, 0⟩)),
    .packet (.plain 81 90 0xc2 true) 0 0 (some 4) true, .acceptConn ⟨0, 0⟩ ⟨1, 3, 90⟩ (some (8, .zeroed)) (some 4),
    .tcpPoll fun _ => true]

def synAgain : SlowOp := .packet (.plain 81 90 0xc2 true) 0 0 (some 5) true

/-- A SYN-ACK with ECN to port 81. -/
def SlowOut.ecnSynack : SlowOut → Bool
  | .tx seg => seg.remotePort = 81 ∧ seg.flags = tcpSyn ||| tcpAck ||| tcpEce
  | .kout _ _ => false

/-- The SYN-ACK was sent, and for the second SYN nothing is. -/
def notRepeated : SlowProc → Bool
  | .ok s => (s.conns 8).any (·.status = .opened) && s.out.any (·.ecnSynack) &&
      decide (Ends (fun _ => False) (fun s' => s'.out = s.out) (slowCall .plain s synAgain))
  | .error _ => false

/-- The SYN-ACK is lost and the SYN comes again: nothing is sent. -/
theorem synack_not_repeated : ∃ s s', exec (slowStep .plain) (.ok (slowInit 8192)) lostSynack = some (.ok s) ∧ s.Opened 8 ∧
    (∃ seg, .tx seg ∈ s.out ∧ seg.remotePort = 81 ∧ seg.flags = tcpSyn ||| tcpAck ||| tcpEce) ∧
    RawPkt.flags (RawPkt.plain 81 90 0xc2 true).buf &&& ~~~(tcpEce ||| tcpCwr) = tcpSyn ∧
    slowCall .plain s (.packet (.plain 81 90 0xc2 true) 0 0 (some 5) true) = .ok s' ∧ s'.out = s.out := by
  obtain ⟨r, hr, hall⟩ : ∃ r, exec (slowStep .plain) (.ok (slowInit 8192)) lostSynack = some r ∧ notRepeated r := by
    decide +kernel
  cases r with
  | error e => cases hall
  | ok s =>
    simp only [notRepeated, Bool.and_eq_true, decide_eq_true_eq] at hall
    obtain ⟨⟨hopen, hsent⟩, hend⟩ := hall
    obtain ⟨x, hx, hst⟩ := (Option.any_eq_true _ _).mp hopen
    obtain ⟨o, ho, hseg⟩ := List.any_eq_true.mp hsent
    cases hs' : slowCall .plain s synAgain with
    | error e =>
      rw [hs'] at hend
      cases hend
    | ok s' =>
      rw [hs'] at hend
      cases o with
      | kout ctx msg => cases hseg
      | tx seg => exact ⟨s, s', hr, ⟨x, hx, of_decide_eq_true hst⟩, ⟨seg, ho, of_decide_eq_true hseg⟩, by decide, hs', hend⟩

end TasNic
