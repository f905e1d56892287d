import TasNic.Slow.Backlog
import TasNic.Slow.Frames

/-!
# The backlog is a queue of SYNs

Beside the slow path runs a list of SYNs for every listener: a SYN is appended if it is not stored yet
and there is room, and an attempt to pair it with a connection that waits takes the first
(`queuesNext`). The ring holds this list if the IP length of SYNs covers the headers and the timestamp: of
a shorter one only a part is stored, and the rest of the slot is from an earlier SYN.
-/

namespace TasNic

open Function Run List Option Connection

/-- A SYN with the core and the flow group that it came on. -/
structure Syn where
  buf : Nat → Byte
  fnCore : BitVec 32
  flowGroup : BitVec 16

/-- An entry of the ring holds the SYN, as far as its IP length says. -/
structure Syn.At (y : Syn) (e : BacklogSlot × BitVec 32 × BitVec 16) : Prop where
  len : e.1.len = synLen y.buf
  buf : ∀ i < (synLen y.buf).toNat, e.1.buf i = y.buf i
  fnCore : e.2.1 = y.fnCore
  flowGroup : e.2.2 = y.flowGroup

/-- The list for every listener, the oldest SYN first. -/
abbrev Queues := Nat → List Syn

/-- A SYN is appended to `q`, with room for `len`. -/
def Syn.arrives (y : Syn) (q : List Syn) (len : Nat) : Bool :=
  RawPkt.flags y.buf &&& ~~~(tcpEce ||| tcpCwr) = tcpSyn && synLen y.buf ≤ backlogBufSize &&
    RawPkt.key y.buf ∉ q.map (RawPkt.key ·.buf) && q.length < len

/-- The listener that a step is about, its list when it looks for a pair, and whether
it does. -/
def backlogCall (cfg : SlowConfig) (q : Queues) (s : Slow) : SlowOp → Option (Nat × List Syn × Bool)
  | .packet pkt fnCore flowGroup _ _ => do
    let l ← packetListener cfg s pkt
    let li ← s.listeners l
    let y : Syn := ⟨pkt.buf, fnCore, flowGroup⟩
    if y.arrives (q l) li.backlogLen.toNat then some (l, q l ++ [y], (s.waitConns l).isSome) else none
  | .acceptConn ctx req (some _) _ => (s.acceptListener ctx req).map fun l => (l, q l, true)
  | _ => none

def queuesNext (cfg : SlowConfig) (q : Queues) (s : Slow) (op : SlowOp) : Queues :=
  match backlogCall cfg q s op with
  | none => q
  | some (l, ql, pairs) => update q l (if pairs then ql.tail else ql)

def synTaken (cfg : SlowConfig) (q : Queues) (s : Slow) (op : SlowOp) : Option Syn :=
  match backlogCall cfg q s op with
  | some (_, ql, true) => ql.head?
  | _ => none

def queueStep (cfg : SlowConfig) : Queues × SlowProc → SlowOp → Option (Queues × SlowProc)
  | (_, .error _), _ => none
  | (q, .ok s), op => some (queuesNext cfg q s op, slowCall cfg s op)

/-- Headers and timestamp are in the stored part of a SYN. -/
def synFits (b : Nat → Byte) : Bool :=
  pktTcpSize ≤ (synLen b).toNat && match parseOptions b (synLen b) with
    | .ok (some opts) => opts.ts.all fun ts => ts + 6 ≤ (synLen b).toNat
    | _ => true

/-- A backlog is not so long that sums of positions overflow, a SYN is all stored, and a
connection that waits has not been offered ECN by a SYN before. -/
def SynsOk (cfg : SlowConfig) (s : Slow) : SlowOp → Prop
  | .listenOpen _ req _ => req.backlog.toNat ≤ 0x80000000
  | .packet pkt _ _ _ _ => ∀ l ∈ packetListener cfg s pkt, RawPkt.flags pkt.buf &&& ~~~(tcpEce ||| tcpCwr) = tcpSyn →
      synLen pkt.buf ≤ backlogBufSize → synFits pkt.buf ∧
      ∀ c ∈ s.waitConns l, ∀ x ∈ s.conns c, x.flags &&& nicifConnEcn = 0
  | _ => True

instance SynsOk.dec (cfg : SlowConfig) (s : Slow) (op) : Decidable (SynsOk cfg s op) := by
  induction op using SlowOp.casesOn <;> dsimp only [SynsOk] <;> infer_instance

/-! ## The ring -/

/-- The listener stores the SYNs `q`. -/
structure Listener.Represents (li : Listener) (q : List Syn) : Prop where
  ring : li.Ring
  flags : li.flags = 0
  entries : List.Forall₂ Syn.At q li.entries
  nodup : (q.map (RawPkt.key ·.buf)).Nodup
  fits : ∀ y ∈ q, synFits y.buf

variable {cfg : SlowConfig} {li : Listener} {q : List Syn} {y : Syn} {b b' : Nat → Byte}

theorem synFits_len (h : synFits b) : pktTcpSize ≤ (synLen b).toNat := by
  simp only [synFits, Bool.and_eq_true, decide_eq_true_eq] at h
  exact h.1

theorem Syn.At.header {e : BacklogSlot × BitVec 32 × BitVec 16} (h : y.At e) (hfit : synFits y.buf) {i : Nat}
    (hi : i < pktTcpSize) : e.1.buf i = y.buf i :=
  h.buf i (Nat.lt_of_lt_of_le hi (synFits_len hfit))

namespace Listener.Represents

theorem length (h : li.Represents q) : li.backlogUsed.toNat = q.length := by
  rw [← li.length_entries, h.entries.length_eq]

theorem stored (h : li.Represents q) : li.stored = q.map (RawPkt.key ·.buf) := by
  rw [li.stored_eq]
  have hfits := h.fits
  have hent := h.entries
  clear h
  generalize li.entries = es at hent
  induction hent with
  | nil => rfl
  | cons hy _ ih =>
    rw [map_cons, map_cons, ih fun z hz => hfits z (mem_cons_of_mem _ hz),
      key_congr fun i hi => hy.header (hfits _ (mem_cons_self ..)) hi]

theorem takes_iff (h : li.Represents q) : li.Takes y.buf ↔ y.arrives q li.backlogLen.toNat := by
  have hholds := (holds_iff (k := RawPkt.key y.buf) h.ring).not
  rw [h.stored, Bool.not_eq_true] at hholds
  have hlen := h.length
  have hused : li.backlogUsed.toNat ≤ li.backlogLen.toNat := h.ring.used
  have hroom : li.backlogLen ≠ li.backlogUsed ↔ q.length < li.backlogLen.toNat := by
    rw [ne_eq, ← BitVec.toNat_inj]
    omega
  simp only [Syn.arrives, Bool.and_eq_true, decide_eq_true_eq]
  rw [← hroom, ← hholds]
  exact ⟨fun ⟨h₁, h₂, h₃, h₄⟩ => ⟨⟨⟨h₁, h₂⟩, h₃⟩, h₄⟩, fun ⟨⟨⟨h₁, h₂⟩, h₃⟩, h₄⟩ => ⟨h₁, h₂, h₃, h₄⟩⟩

theorem store (h : li.Represents q) (hy : li.Takes y.buf) (hfit : synFits y.buf) :
    (li.store y.buf (synLen y.buf) y.fnCore y.flowGroup).Represents (q ++ [y]) where
  ring := h.ring.store hy.room
  flags := h.flags
  entries := by
    rw [li.entries_store y.fnCore y.flowGroup h.ring hy.room]
    refine rel_append h.entries (.cons ⟨rfl, fun i hi => if_pos hi, rfl, rfl⟩ .nil)
  nodup := by
    have hnew : RawPkt.key y.buf ∉ q.map (RawPkt.key ·.buf) := by
      rw [← h.stored, ← holds_iff h.ring, hy.fresh]
      nofun
    rw [map_append, map_singleton]
    exact nodup_append.mpr ⟨h.nodup, nodup_singleton _, fun a ha b hb => by
      rw [mem_singleton.mp hb]
      exact fun e => hnew (e ▸ ha)⟩
  fits z hz := by
    rcases mem_append.mp hz with hz | hz
    · exact h.fits z hz
    · rw [mem_singleton.mp hz]
      exact hfit

theorem pop (h : li.Represents q) (hu : li.backlogUsed ≠ 0) : ∃ y, q.head? = some y ∧ synFits y.buf ∧
    y.At (li.oldest, li.cores li.backlogPos.toNat, li.fgs li.backlogPos.toNat) ∧ li.pop.Represents q.tail := by
  have hent := h.entries
  rw [li.entries_pop h.ring hu] at hent
  cases hent with
  | cons hy hrest =>
    rename_i y rest
    exact ⟨y, rfl, h.fits y (mem_cons_self ..), hy, h.ring.pop hu, h.flags, hrest,
      (nodup_cons.mp h.nodup).2, fun z hz => h.fits z (mem_cons_of_mem _ hz)⟩

end Listener.Represents

/-! ## What a connection is given -/

theorem parseOptionsFrom_congr {optsLen n : Nat} (hn : pktTcpSize + optsLen ≤ n) (h : ∀ i < n, b' i = b i) (turns off : Nat)
    (opts : TcpOpts) : parseOptionsFrom b' optsLen turns off opts = parseOptionsFrom b optsLen turns off opts := by
  induction turns generalizing off opts with
  | zero => rfl
  | succ turns ih =>
    by_cases hoff : off < optsLen
    · have hkind : b' (pktTcpSize + off) = b (pktTcpSize + off) := h _ (by omega)
      by_cases h2 : optsLen - off < 2
      · simp only [parseOptionsFrom, if_pos hoff, if_pos h2, hkind, ih]
      · have hlen : b' (pktTcpSize + off + 1) = b (pktTcpSize + off + 1) := h _ (by omega)
        simp only [parseOptionsFrom, if_pos hoff, if_neg h2, hkind, hlen, ih]
    · simp [parseOptionsFrom, if_neg hoff]

theorem parseOptions_congr {len : BitVec 16} (hlen : pktTcpSize ≤ len.toNat) (h : ∀ i < len.toNat, b' i = b i) :
    parseOptions b' len = parseOptions b len := by
  have hp : pktTcpSize = 54 := rfl
  have hhdr : RawPkt.hdrlen b' = RawPkt.hdrlen b := by
    rw [RawPkt.hdrlen, RawPkt.hdrlen, readBe16_congr h 46 (by omega)]
  have hsub : (len.setWidth 64 - BitVec.ofNat 64 pktTcpSize).toNat = len.toNat - pktTcpSize := by
    rw [hp]
    bv_omega
  rw [parseOptions, parseOptions, hhdr, hsub]
  split_ifs with hshort
  · rfl
  · exact parseOptionsFrom_congr (n := len.toNat) (by omega) h ..

/-- The connection has its peer, the sequence numbers, the timestamp and ECN from the
SYN, and its core and flow group. -/
structure Connection.From (x : Connection) (y : Syn) : Prop where
  remoteMac : x.remoteMac = RawPkt.ethSrc y.buf
  remoteIp : x.remoteIp = RawPkt.ipSrc y.buf
  remotePort : x.remotePort = RawPkt.tcpSrc y.buf
  remoteSeq : x.remoteSeq = RawPkt.seqno y.buf + 1
  synTs : ∃ opts ts, parseOptions y.buf (synLen y.buf) = .ok (some opts) ∧ opts.ts = some ts ∧ x.synTs = tsVal y.buf ts
  ecn : x.flags &&& nicifConnEcn = nicifConnEcn ↔ RawPkt.flags y.buf &&& (tcpEce ||| tcpCwr) = tcpEce ||| tcpCwr
  fnCore : x.fnCore = y.fnCore
  flowGroup : x.flowGroup = y.flowGroup

theorem Connection.accept_from {x : Connection} {opts : TcpOpts} {ts : Nat}
    (hy : y.At (li.oldest, li.cores li.backlogPos.toNat, li.fgs li.backlogPos.toNat)) (hfit : synFits y.buf)
    (hparse : parseOptions li.oldest.buf li.oldest.len = .ok (some opts)) (hts : opts.ts = some ts)
    (hecn : x.flags &&& nicifConnEcn = 0) : (x.accept cfg li ts).From y := by
  have hlen : li.oldest.len = synLen y.buf := hy.len
  have hbuf : ∀ i < (synLen y.buf).toNat, li.oldest.buf i = y.buf i := hy.buf
  have hmin := synFits_len hfit
  have hp : pktTcpSize = 54 := rfl
  rw [hlen, parseOptions_congr hmin hbuf] at hparse
  -- the bytes of the headers, and of the timestamp
  have h : ∀ i < 54, li.oldest.buf i = y.buf i := fun i hi => hbuf i (by omega)
  have htsfit : ts + 6 ≤ (synLen y.buf).toNat := by
    simp only [synFits, hparse, Bool.and_eq_true, decide_eq_true_eq, hts, all_some] at hfit
    exact hfit.2
  have hflags : RawPkt.flags li.oldest.buf = RawPkt.flags y.buf := by
    rw [RawPkt.flags, RawPkt.flags, readBe16_congr hbuf 46 (by omega)]
  constructor
  case remoteMac =>
    simp [accept, RawPkt.ethSrc, h 6 (by omega), h 7 (by omega), h 8 (by omega), h 9 (by omega), h 10 (by omega), h 11 (by omega)]
  case remoteIp =>
    simp only [accept, RawPkt.ipSrc, readBe32_congr hbuf 26 (by omega)]
  case remotePort =>
    simp only [accept, RawPkt.tcpSrc, readBe16_congr hbuf 34 (by omega)]
  case remoteSeq =>
    simp only [accept, RawPkt.seqno, readBe32_congr hbuf 38 (by omega)]
  case synTs =>
    refine ⟨opts, ts, hparse, hts, ?_⟩
    simp only [accept, tsVal, readBe32_congr hbuf (ts + 2) (by omega)]
  case ecn =>
    simp only [accept, hflags]
    split_ifs with he
    · refine ⟨fun _ => he, fun _ => ?_⟩
      rw [BitVec.and_or_distrib_right, BitVec.and_self, hecn]
      rfl
    · refine ⟨fun e => ?_, fun e => absurd e he⟩
      rw [hecn] at e
      exact absurd e (by decide)
  case fnCore => exact hy.fnCore
  case flowGroup => exact hy.flowGroup

/-! ## Steps -/

variable {s s' : Slow} {q q' : Queues} {l : Nat} {ql : List Syn} {op : SlowOp}

/-- The listeners store the lists `q`. -/
def Slow.Backlogs (s : Slow) (q : Queues) : Prop :=
  ∀ l, (s.listeners l = none → q l = []) ∧ ∀ li, s.listeners l = some li → li.Represents (q l)

/-- A connection whose setup has begun was there before, or has its peer from `o`. -/
def SetUpFrom (o : Option Syn) (s s' : Slow) : Prop :=
  ∀ c x, s'.conns c = some x → x.status = .regSynack → s.conns c = some x ∨ ∃ y, o = some y ∧ x.From y

namespace Slow.Backlogs

theorem congr (h : s.Backlogs q) (hlis : s'.listeners = s.listeners) : s'.Backlogs q := by
  intro l
  rw [hlis]
  exact h l

theorem change (h : s.Backlogs q) (hlis : s'.listeners = update s.listeners l (some li)) (hli : li.Represents ql) :
    s'.Backlogs (update q l ql) := by
  intro m
  rw [hlis]
  by_cases e : m = l
  · subst e
    rw [update_self, update_self]
    refine ⟨nofun, fun li' hli' => ?_⟩
    cases hli'
    exact hli
  · rw [update_of_ne e, update_of_ne e]
    exact h m

end Slow.Backlogs

theorem Pairing.setUp {flow : Option (BitVec 32)} {c : Nat} {s₁ : Slow} (h : Pairing cfg l flow li c s₁ s')
    (hli : li.Represents ql) (hu : li.backlogUsed ≠ 0) (hecn : ∀ x ∈ s₁.conns c, x.flags &&& nicifConnEcn = 0) :
    li.pop.Represents ql.tail ∧ SetUpFrom ql.head? s₁ s' := by
  obtain ⟨y, hhead, hfit, hy, hpop⟩ := hli.pop hu
  refine ⟨hpop, fun d x hd hst => ?_⟩
  cases h with
  | dropped _ hconns _ => exact .inl (hconns ▸ hd)
  | refused opts ts x₁ hparse hts hx _ hconns _ =>
    rw [hconns] at hd
    rcases update_cases hd with ⟨rfl, e⟩ | ⟨-, hd⟩
    · cases e
      exact .inr ⟨y, hhead, accept_from hy hfit hparse hts (hecn x₁ hx)⟩
    · exact .inl hd
  | accepted opts ts x₁ f hparse hts hx _ hconns _ =>
    rw [hconns] at hd
    rcases update_cases hd with ⟨rfl, e⟩ | ⟨-, hd⟩
    · cases e
      have hfrom : (x₁.accept cfg li ts).From y := accept_from hy hfit hparse hts (hecn x₁ hx)
      exact .inr ⟨y, hhead, hfrom.remoteMac, hfrom.remoteIp, hfrom.remotePort, hfrom.remoteSeq, hfrom.synTs, hfrom.ecn,
        hfrom.fnCore, hfrom.flowGroup⟩
    · exact .inl hd

/-- A packet that comes to a listener is appended or not, and the first is taken if a
connection waits. -/
theorem listenerPacket_queue {opts : TcpOpts} {flow : Option (BitVec 32)} {room : Bool} (h : s.Backlogs q)
    (hli : s.listeners l = some li)
    (hfit : RawPkt.flags y.buf &&& ~~~(tcpEce ||| tcpCwr) = tcpSyn → synLen y.buf ≤ backlogBufSize →
      synFits y.buf ∧ ∀ c ∈ s.waitConns l, ∀ x ∈ s.conns c, x.flags &&& nicifConnEcn = 0)
    (hs : listenerPacket cfg l y.buf opts y.fnCore y.flowGroup flow room s = .ok s') :
    if y.arrives (q l) li.backlogLen.toNat then
      if (s.waitConns l).isSome then s'.Backlogs (update q l (q l ++ [y]).tail) ∧ SetUpFrom (q l ++ [y]).head? s s'
      else s'.Backlogs (update q l (q l ++ [y])) ∧ s'.conns = s.conns
    else s'.Backlogs q ∧ s'.conns = s.conns := by
  have hrep := (h l).2 li hli
  obtain ⟨li', hli', ⟨hnot, hconns, hlis, -⟩ | ⟨ht, s₁, hc₁, -, hw₁, hl₁, hend⟩⟩ := listenerPacket_cases hs
  · cases hli.symm.trans hli'
    rw [if_neg fun ha => hnot (hrep.takes_iff.mpr ha)]
    exact ⟨h.congr hlis, hconns⟩
  · cases hli.symm.trans hli'
    rw [if_pos (hrep.takes_iff.mp ht)]
    obtain ⟨hsyn, hecn⟩ := hfit ht.flags ht.len
    have hstore := hrep.store ht hsyn
    obtain ⟨hnone, rfl⟩ | hacc := hend
    · rw [hnone, if_neg (by simp)]
      exact ⟨h.change hl₁ hstore, hc₁⟩
    · obtain ⟨li₁, c, hli₁, hc, hu, hlis, hpair⟩ := listenerAccept_pairs hacc
      rw [hl₁, update_self] at hli₁
      cases hli₁
      rw [hw₁] at hc
      obtain ⟨hpop, hset⟩ := hpair.setUp hstore hu fun x hx => hecn c hc x (hc₁ ▸ hx)
      rw [hc, if_pos (by simp)]
      refine ⟨h.change (by rw [hlis, hl₁, update_idem]) hpop, ?_⟩
      rw [SetUpFrom, hc₁] at hset
      exact hset

theorem kinAcceptConn_queue {ctx : AppContext} {req : AcceptConn} {m : Nat × Connection} {flow : Option (BitVec 32)}
    (h : s.Backlogs q) (hs : kinAcceptConn cfg ctx req (some m) flow s = .ok s') :
    ∃ l, s.acceptListener ctx req = some l ∧ s'.Backlogs (update q l (q l).tail) ∧ SetUpFrom (q l).head? s s' := by
  obtain ⟨hm, -⟩ | ⟨c, junk, l, li, hm, hl, hli, hend⟩ := kinAcceptConn_cases hs
  · cases hm
  have hrep := (h l).2 li hli
  -- the new connection has the flags of the listener
  have hnew : ∀ x ∈ (s.waits ctx req l li c junk).conns c, x.flags &&& nicifConnEcn = 0 ∧ x.status = .synWait := by
    intro x hx
    cases (show (s.waits ctx req l li c junk).conns c = _ from Slow.setConn_conns ..).symm.trans hx
    exact ⟨by rw [show (junk.waiting ctx req li).flags = li.flags from rfl, hrep.flags]; rfl, rfl⟩
  have hold : ∀ d, d ≠ c → (s.waits ctx req l li c junk).conns d = s.conns d := by
    intro d hd
    exact (update_of_ne hd ..).trans (update_of_ne hd ..)
  have hback : ∀ d x, (s.waits ctx req l li c junk).conns d = some x → x.status = .regSynack → s.conns d = some x := by
    intro d x hx hst
    by_cases e : d = c
    · subst e
      rw [(hnew x hx).2] at hst
      cases hst
    · rwa [hold d e] at hx
  refine ⟨l, hl, ?_⟩
  obtain ⟨hu, rfl⟩ | hacc := hend
  · have hnil : q l = [] := eq_nil_of_length_eq_zero (by rw [← hrep.length, hu]; rfl)
    refine ⟨?_, fun d x hx hst => .inl (hback d x hx hst)⟩
    rw [hnil, tail_nil, ← hnil, update_eq_self]
    exact h
  · obtain ⟨li₁, d, hli₁, hd, hu, hlis, hpair⟩ := listenerAccept_pairs hacc
    cases hli.symm.trans hli₁
    cases (s.waits_first ctx req l li c junk).symm.trans hd
    obtain ⟨hpop, hset⟩ := hpair.setUp hrep hu fun x hx => (hnew x hx).1
    refine ⟨h.change hlis hpop, fun d x hx hst => ?_⟩
    exact (hset d x hx hst).imp_left fun hx => hback d x hx hst

theorem SetUpFrom.refl (o : Option Syn) (h : s'.conns = s.conns) : SetUpFrom o s s' :=
  fun _ _ hx _ => .inl (h ▸ hx)

theorem SetUpFrom.of_touches {c : Nat} (h : Touches c s s')
    (hc : ∀ x, s'.conns c = some x → x.status = .regSynack → s.conns c = some x) : SetUpFrom none s s' := by
  intro d x hx hst
  by_cases e : d = c
  · subst e
    exact .inl (hc x hx hst)
  · rw [h.1 d e] at hx
    exact .inl hx

theorem SetUpFrom.trans {s'' : Slow} (h : SetUpFrom none s s') (h' : SetUpFrom none s' s'') : SetUpFrom none s s'' := by
  intro c x hx hst
  obtain hx | ⟨y, hy, -⟩ := h' c x hx hst
  · exact h c x hx hst
  · cases hy

theorem slowCall_noSetUp {peers : Nat → Option Peer} (hof : SlowOf cfg s peers) (hen : s.Enabled op)
    (hop : op.forListener = false) (hs : slowCall cfg s op = .ok s') : SetUpFrom none s s' := by
  cases op with
  | connOpen ctx req mem route =>
    cases mem with
    | none =>
      cases hs
      exact .refl none rfl
    | some m =>
      refine .of_touches (ends_ok kinConnOpen_leaves hs) fun x hx hst => ?_
      rcases ends_ok kinConnOpen_status hs x hx with e | e <;> cases hst.symm.trans e
  | connMove ctx name known => exact .refl none (ends_ok kinConnMove_same hs).1
  | connClose ctx name nic =>
    obtain ⟨c, ht, hclosed⟩ := ends_ok kinConnClose_closed hs
    refine .of_touches ht fun x hx hst => (hclosed x hx).resolve_right fun e => ?_
    cases hst.symm.trans e
  | listenOpen | acceptConn | packet => cases hop
  | arpDone c status mac =>
    refine .of_touches (ends_ok arpDone_leaves hs) fun x hx hst => ?_
    -- a connection whose address is being resolved has no SYN yet
    obtain ⟨y, hy, rfl⟩ := ends_ok arpDone_resolved hs x hx
    obtain ⟨-, p, hp, hph⟩ := hof.queues.waiting c hen
    have hof := (hof.peerOf hy hp).phase
    rw [hph] at hof
    cases hst.symm.trans (show (y.resolved status mac).status = .arpPending from hof)
  | tcpPoll rooms =>
    refine ends_ok (tcpPollTurns_keeps (R := SetUpFrom none) (fun _ => .refl none rfl) .trans (fun c q s => ?_) _ s) hs
    refine (ends_and tcpPollConn_leaves tcpPollConn_status).imp ?_
    rintro s' ⟨ht, hst⟩
    exact .of_touches ht fun x hx hreg => (hst x hx).resolve_left fun h => h.1 hreg
  | timeout c t room =>
    have ht := ends_ok tcpTimeout_leaves hs
    refine .of_touches (s := s) ht fun x hx hst => ?_
    rcases ends_ok tcpTimeout_status hs x hx with e | e <;> cases hst.symm.trans e
  | ccPoll => exact .refl none (ends_ok ccPoll_same hs).1

theorem listener_represents {ctx : AppContext} {req : ListenOpen} {bufs : Nat → BacklogSlot}
    (h : req.backlog.toNat ≤ 0x80000000) : (req.listener ctx bufs).Represents [] where
  ring := ⟨h, Nat.zero_le _, fun hne => by
    have : req.backlog ≠ 0 := hne.resolve_left fun h0 => h0 rfl
    show (0 : BitVec 32) < req.backlog
    bv_omega⟩
  flags := rfl
  entries := .nil
  nodup := .nil
  fits := nofun

theorem tcpPacket_queue {pkt : RawPkt} {fnCore : BitVec 32} {flowGroup : BitVec 16} {flow : Option (BitVec 32)} {room : Bool}
    (h : s.Backlogs q) (hok : SynsOk cfg s (.packet pkt fnCore flowGroup flow room))
    (hs : tcpPacket cfg pkt fnCore flowGroup flow room s = .ok s') :
    s'.Backlogs (queuesNext cfg q s (.packet pkt fnCore flowGroup flow room)) ∧
      SetUpFrom (synTaken cfg q s (.packet pkt fnCore flowGroup flow room)) s s' := by
  obtain ⟨hnone, hend⟩ | ⟨l, opts, hl, hs⟩ := tcpPacket_cases hs
  · have hcall : backlogCall cfg q s (.packet pkt fnCore flowGroup flow room) = none := by
      simp [backlogCall, hnone]
    rw [queuesNext, synTaken, hcall]
    obtain ⟨hconns, hlis, -⟩ | ⟨c, opts, hc⟩ := hend
    · exact ⟨h.congr hlis, .refl none hconns⟩
    · have ht := ends_ok connPacket_leaves hc
      refine ⟨h.congr ht.2.1, .of_touches ht fun x hx hst => ?_⟩
      obtain hx | e | ⟨e, -⟩ := ends_ok connPacket_status hc x hx
      · exact hx
      · cases hst.symm.trans e
      · cases hst.symm.trans e
  · obtain ⟨li, hli, -⟩ := listenerPacket_cases hs
    have hq := listenerPacket_queue (y := ⟨pkt.buf, fnCore, flowGroup⟩) h hli (hok l hl) hs
    simp only [queuesNext, synTaken, backlogCall, hl, hli, bind_eq_bind, bind_some]
    split at hq
    · rename_i harr
      rw [if_pos harr]
      split at hq
      · rename_i hw
        simp only [hw, ↓reduceIte]
        exact hq
      · rename_i hw
        simp only [Bool.not_eq_true _ ▸ hw, Bool.false_eq_true, ↓reduceIte]
        exact ⟨hq.1, .refl none hq.2⟩
    · rename_i harr
      rw [if_neg harr]
      exact ⟨hq.1, .refl none hq.2⟩

theorem slowCall_queue {peers : Nat → Option Peer} (hof : SlowOf cfg s peers) (h : s.Backlogs q)
    (hok : SlowOk (SynsOk cfg) (.ok s) op) (hs : slowCall cfg s op = .ok s') :
    s'.Backlogs (queuesNext cfg q s op) ∧ SetUpFrom (synTaken cfg q s op) s s' := by
  have hother : op.forListener = false → s'.Backlogs q ∧ SetUpFrom none s s' := fun hop =>
    ⟨h.congr (ends_ok (slowCall_listeners hop) hs).1, slowCall_noSetUp hof hok.1 hop hs⟩
  cases op with
  | listenOpen ctx req mem =>
    cases hs
    obtain ⟨hconns, ⟨hlis, -⟩ | ⟨l, bufs, hm, hlis, -⟩⟩ := kinListenOpen_cases ctx req mem s
    · exact ⟨h.congr hlis, .refl none hconns⟩
    · have hnew : s.listeners l = none := hok.1 (l, bufs) hm
      have hch := h.change hlis (listener_represents hok.2)
      rw [← (h l).1 hnew, update_eq_self] at hch
      exact ⟨hch, .refl none hconns⟩
  | acceptConn ctx req mem flow =>
    cases mem with
    | none =>
      obtain ⟨-, hconns, hlis, -⟩ | ⟨c, junk, l, li, hm, -⟩ := kinAcceptConn_cases hs
      · exact ⟨h.congr hlis, .refl none hconns⟩
      · cases hm
    | some m =>
      obtain ⟨l, hl, hback, hset⟩ := kinAcceptConn_queue h hs
      simp only [queuesNext, synTaken, backlogCall, hl, map_some, ↓reduceIte]
      exact ⟨hback, hset⟩
  | packet pkt fnCore flowGroup flow room => exact tcpPacket_queue h hok.2 hs
  | connOpen | connMove | connClose | arpDone | tcpPoll | timeout | ccPoll => exact hother rfl

/-! ## Runs -/

/-- The ring holds the SYNs `q`, the oldest first, with their cores and flow groups, and
they are of different connections. -/
structure BacklogExact (li : Listener) (q : List Syn) : Prop where
  used : li.backlogUsed ≤ li.backlogLen
  pos : li.backlogPos < li.backlogLen
  entries : List.Forall₂ Syn.At q li.entries
  nodup : (q.map (RawPkt.key ·.buf)).Nodup

theorem queueStep_inv {hint : BitVec 16} {ops : List SlowOp}
    (hops : All (queueStep cfg) (fun r => SlowOk (SynsOk cfg) r.2) (fun _ => [], .ok (slowInit hint)) ops)
    (hs : exec (queueStep cfg) (fun _ => [], .ok (slowInit hint)) ops = some (q, .ok s)) :
    s.Backlogs q ∧ ∃ peers, SlowOf cfg s peers := by
  suffices hr : Ends (fun _ : Stop => True) (fun s => s.Backlogs q ∧ ∃ peers, SlowOf cfg s peers) (.ok s) from hr
  refine exec_inv (I := fun r : Queues × SlowProc =>
    Returns (fun s => s.Backlogs r.1 ∧ ∃ peers, SlowOf cfg s peers) r.2) (fun r op r' hI hok hstep => ?_)
    ?_ hops hs
  · obtain ⟨q₀, p⟩ := r
    cases p with
    | error e => cases hstep
    | ok s₀ =>
      cases hstep
      obtain ⟨hback, peers, hof⟩ := hI
      have hlife := slowCall_inv (J := fun _ => True) hof hok.1 trivial fun _ _ _ _ _ _ => trivial
      cases hs' : slowCall cfg s₀ op with
      | error e => trivial
      | ok s₁ =>
        rw [hs'] at hlife
        obtain ⟨peers', hof', -⟩ := hlife
        exact ⟨(slowCall_queue hof hback hok hs').1, peers', hof'⟩
  · exact ⟨fun l => ⟨fun _ => rfl, nofun⟩, _, slowInit_of hint⟩

def BacklogsExact (s : Slow) (q : Queues) : Prop :=
  ∀ l li, s.listeners l = some li → 1 ≤ li.backlogLen → BacklogExact li (q l)

theorem Slow.Backlogs.exact (h : s.Backlogs q) : BacklogsExact s q := by
  intro l li hli hlen
  have hrep := (h l).2 li hli
  exact ⟨hrep.ring.used, hrep.ring.pos (.inr (by bv_omega)), hrep.entries, hrep.nodup⟩

/-- Before and after every step the backlog of a listener is the queue of its SYNs, and
a connection whose setup begins in the step gets its peer from the SYN that is taken. -/
theorem backlog_exact {hint : BitVec 16} {ops : List SlowOp}
    (hops : All (queueStep cfg) (fun r => SlowOk (SynsOk cfg) r.2) (fun _ => [], .ok (slowInit hint)) ops)
    (hs : exec (queueStep cfg) (fun _ => [], .ok (slowInit hint)) ops = some (q, .ok s))
    (hok : SlowOk (SynsOk cfg) (.ok s) op) (hs' : slowCall cfg s op = .ok s') :
    BacklogsExact s q ∧ BacklogsExact s' (queuesNext cfg q s op) ∧ SetUpFrom (synTaken cfg q s op) s s' := by
  obtain ⟨hback, peers, hof⟩ := queueStep_inv hops hs
  obtain ⟨hback', hset⟩ := slowCall_queue hof hback hok hs'
  exact ⟨hback.exact, hback'.exact, hset⟩

/-- Three SYNs for a backlog of two, of which one is taken before the third comes; the
third is in the first slot again. -/
def threeSyns : List SlowOp :=
  [.listenOpen ⟨0, 0⟩ ⟨1, 90, 2, false⟩ (some (0, fun _ => ⟨fun _ => 0, 0⟩)),
    .packet (.plain 81 90 0xc2 true) 3 5 (some 4) true, .packet (.plain 82 90 0x02 true) 2 6 (some 4) true,
    .acceptConn ⟨0, 0⟩ ⟨1, 3, 90⟩ (some (8, .zeroed)) (some 4), .packet (.plain 83 90 0x02 true) 1 7 (some 4) true]

/-- A request to accept with the connection 9. -/
def acceptNine : SlowOp := .acceptConn ⟨0, 0⟩ ⟨1, 4, 90⟩ (some (9, .zeroed)) (some 5)

theorem backlog_exact_wraps : ∃ q s s',
    exec (queueStep .plain) (fun _ => [], .ok (slowInit 8192)) threeSyns = some (q, .ok s) ∧
    slowCall .plain s acceptNine = .ok s' ∧ BacklogsExact s q ∧ BacklogsExact s' (queuesNext .plain q s acceptNine) ∧
    SetUpFrom (synTaken .plain q s acceptNine) s s' := by
  obtain ⟨⟨q, r⟩, hr, hok⟩ := (Option.any_eq_true (fun r : Queues × SlowProc => match r.2 with
      | .ok s => (slowCall .plain s acceptNine).toBool && SlowOk (SynsOk .plain) (.ok s) acceptNine
      | .error _ => false) _).mp
    (show (exec (queueStep .plain) (fun _ => [], .ok (slowInit 8192)) threeSyns).any _ by decide +kernel)
  cases r with
  | error e => cases hok
  | ok s =>
    simp only [Bool.and_eq_true, decide_eq_true_eq] at hok
    cases hs' : slowCall .plain s acceptNine with
    | error e =>
      rw [hs'] at hok
      cases hok.1
    | ok s' => exact ⟨q, s, s', hr, hs', backlog_exact (by decide +kernel) hr hok.2 hs'⟩

/-- The last step of a run sets up connections from the SYN that is taken. -/
def SetUpSound (cfg : SlowConfig) (ops : List SlowOp) (op : SlowOp) : Prop :=
  ∀ q s s', exec (queueStep cfg) (fun _ => [], .ok (slowInit 8192)) ops = some (q, .ok s) → slowCall cfg s op = .ok s' →
    SetUpFrom (synTaken cfg q s op) s s'

/-- The connection 9 is set up with another port than that of the SYN, or with ECN that the
SYN does not offer. -/
def wrongPeer (o : Option Syn) (s s' : Slow) : Bool :=
  (s'.conns 9).any fun x => x.status = .regSynack && (s.conns 9).all (·.remotePort ≠ x.remotePort) && o.all fun y =>
    x.remotePort ≠ RawPkt.tcpSrc y.buf ||
      x.flags &&& nicifConnEcn = nicifConnEcn && RawPkt.flags y.buf &&& (tcpEce ||| tcpCwr) ≠ tcpEce ||| tcpCwr

theorem SetUpFrom.not_wrong {o : Option Syn} (h : SetUpFrom o s s') : wrongPeer o s s' = false := by
  rw [← Bool.not_eq_true]
  intro hw
  obtain ⟨x, hx, hp⟩ := (Option.any_eq_true _ _).mp hw
  simp only [Bool.and_eq_true, decide_eq_true_eq] at hp
  obtain ⟨⟨hst, hold⟩, hnew⟩ := hp
  obtain hx₀ | ⟨y, rfl, hy⟩ := h 9 x hx hst
  · simp [hx₀] at hold
  · simp only [all_some, Bool.or_eq_true, Bool.and_eq_true, decide_eq_true_eq] at hnew
    obtain hport | ⟨hecn, hoffer⟩ := hnew
    · exact hport hy.remotePort
    · exact hoffer (hy.ecn.mp hecn)

theorem not_setUpSound {ops : List SlowOp} (h : (exec (queueStep cfg) (fun _ => [], .ok (slowInit 8192)) ops).any fun r =>
      match r.2 with
      | .ok s => match slowCall cfg s op with
        | .ok s' => wrongPeer (synTaken cfg r.1 s op) s s'
        | .error _ => false
      | .error _ => false) : ¬ SetUpSound cfg ops op := by
  intro hsound
  obtain ⟨⟨q, r⟩, hr, hw⟩ := (Option.any_eq_true _ _).mp h
  cases r with
  | error e => cases hw
  | ok s =>
    dsimp only at hw
    cases hs' : slowCall cfg s op with
    | error e =>
      rw [hs'] at hw
      cases hw
    | ok s' =>
      rw [hs'] at hw
      dsimp only at hw
      rw [(hsound q s s' hr hs').not_wrong] at hw
      cases hw

/-- The IP part of a SYN from port 82 is 20 bytes long, after a SYN from port 81 was taken. -/
def shortSyn : List SlowOp :=
  [.listenOpen ⟨0, 0⟩ ⟨1, 90, 1, false⟩ (some (0, fun _ => ⟨fun _ => 0, 0⟩)),
    .packet (.plain 81 90 0x02 true) 0 0 (some 4) true, .acceptConn ⟨0, 0⟩ ⟨1, 3, 90⟩ (some (8, .zeroed)) (some 4),
    .packet ⟨update (RawPkt.plain 82 90 0x02 true).buf 17 20, 66⟩ 0 0 (some 4) true]

/-- A SYN with ECN, for which the flow is not registered. -/
def refusedEcn : List SlowOp :=
  [.listenOpen ⟨0, 0⟩ ⟨1, 90, 4, false⟩ (some (0, fun _ => ⟨fun _ => 0, 0⟩)), acceptNine,
    .packet (.plain 81 90 0xc2 true) 0 0 none true]

/-- Of a SYN that is too short the ports are not stored, and the connection gets those of
the SYN that was in the slot before. A connection whose flow could not be registered
keeps the ECN flag of that SYN for the next one. -/
theorem backlog_stale :
    (All (queueStep .plain) (fun r => SlowOk (fun _ _ => True) r.2) (fun _ => [], .ok (slowInit 8192))
        (shortSyn ++ [acceptNine]) ∧ ¬ SetUpSound .plain shortSyn acceptNine) ∧
      All (queueStep .plain) (fun r => SlowOk (fun _ _ => True) r.2) (fun _ => [], .ok (slowInit 8192))
        (refusedEcn ++ [.packet (.plain 82 90 0x02 true) 0 0 (some 5) true]) ∧
      ¬ SetUpSound .plain refusedEcn (.packet (.plain 82 90 0x02 true) 0 0 (some 5) true) :=
  ⟨⟨by decide +kernel, not_setUpSound (by decide +kernel)⟩, by decide +kernel, not_setUpSound (by decide +kernel)⟩

end TasNic
