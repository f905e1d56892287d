import TasNic.Packet.Bytes

/-!
# Parsing packets (`fast_flows.c`, `fast/tcp_common.h`, `slow/tcp.c`)

A received packet is a memory and a length, and parsing it is a program that reads bytes of the
memory (`ByteProg`). The two option parsers are one loop (`optsLoop`), with or without the MSS option.
It advances by a length byte of the packet, which can be 0 (`ZeroOpt`), and takes an option for
complete of which only two bytes are known to be there (`OptsFit`).
-/

namespace TasNic

open Bytes List ByteProg

/-! ## The parsers -/

/-- How a turn of the loop over options ends. -/
inductive OptTurn where
  | stop (rc : Int) (opts : TcpOpts)
  | next (off : Nat) (opts : TcpOpts)

def tcphHdrlen : ByteProg Nat := (ByteProg.be 46 2).bind fun v => .ret (v / 2 ^ 12)

/-- An option with a length byte, at `off`; `mss` is whether the MSS option is known. The offset
is a `uint16_t`, but an option starts below 40 and is no longer than 255 bytes. -/
def varOpt (mss : Bool) (off : Nat) (o : TcpOpts) (kind len : Byte) : OptTurn :=
  if mss = true ∧ kind = 2 then
    if len ≠ 4 then .stop (-1) o else .next (off + len.toNat) { o with mss := some (pktTcpSize + off) }
  else if kind = 8 then
    if len ≠ 10 then .stop (-1) o else .next (off + len.toNat) { o with ts := some (pktTcpSize + off) }
  else .next (off + len.toNat) o

/-- A turn at `off`. -/
def optsTurn (mss : Bool) (optsLen off : Nat) (o : TcpOpts) : ByteProg OptTurn :=
  (ByteProg.byte (pktTcpSize + off)).bind fun kind =>
    -- TCP_OPT_END_OF_OPTIONS and TCP_OPT_NO_OP
    if kind = 0 then .ret (.stop 0 o)
    else if kind = 1 then .ret (.next (off + 1) o)
    else if optsLen - off < 2 then .ret (.stop (-1) o)
    else (ByteProg.byte (pktTcpSize + off + 1)).bind fun len => .ret (varOpt mss off o kind len)

/-- At most `fuel` turns of the loop from `off` on; `none` if there are more. -/
def optsLoop (mss : Bool) (optsLen : Nat) : Nat → Nat → TcpOpts → ByteProg (Option (Int × TcpOpts))
  | 0, off, o => if off < optsLen then .ret none else .ret (some (0, o))
  | fuel + 1, off, o =>
    if off < optsLen then
      (optsTurn mss optsLen off o).bind fun t =>
        match t with
        | .stop rc o => .ret (some (rc, o))
        | .next off o => optsLoop mss optsLen fuel off o
    else .ret (some (0, o))

/-- Parsing the options. If the packet is shorter than its headers, `len - sizeof(*p)` is not
negative but very large. -/
def optionsParse (mss : Bool) (fuel : Nat) (len : BitVec 16) : ByteProg (Option (Int × TcpOpts)) :=
  tcphHdrlen.bind fun h =>
    let optsLen := h * 4 - 20
    if h < 5 ∨ optsLen > (len.toNat + 2 ^ 64 - pktTcpSize) % 2 ^ 64 then .ret (some (-1, {}))
    else optsLoop mss optsLen fuel 0 {}

/-- `tcp_parse_options` of the fast path. -/
def tcpParseOptions (fuel : Nat) (len : BitVec 16) : ByteProg (Option (Int × TcpOpts)) := optionsParse false fuel len

/-- `parse_options` of the slow path. -/
def slowParseOptions (fuel : Nat) (len : BitVec 16) : ByteProg (Option (Int × TcpOpts)) := optionsParse true fuel len

/-- What becomes of the flow state of a packet. -/
inductive ParseResult where
  /-- The loop over the options has not ended. -/
  | endless
  | dropped
  /-- Kept, with the address of the timestamp option. -/
  | kept (ts : Nat)
deriving DecidableEq

/-- The condition of `fast_flows_packet_parse`, from what it has read. -/
def parseCond (len : BitVec 16) (ethType : Nat) (proto vHl : Byte) (h ipLen : Nat) (r : Option (Int × TcpOpts)) :
    ParseResult :=
  match r with
  | none => .endless
  | some (rc, o) =>
    match o.ts with
    | none => .dropped
    | some ts =>
      if len.toNat < pktTcpSize ∨ ethType ≠ 0x0800 ∨ proto ≠ 6 ∨ vHl >>> 4 ≠ 4 ∨ vHl &&& 0x0f ≠ 5 ∨ h < 5 ∨
        len.toNat < ipLen + 14 ∨ rc ≠ 0 then .dropped
      else .kept ts

/-- `fast_flows_packet_parse` for a packet with flow state. The parts of its condition are joined
by `|`, so that all of them are evaluated, here from left to right. -/
def fastFlowsPacketParse (fuel : Nat) (len : BitVec 16) : ByteProg ParseResult :=
  (ByteProg.be 12 2).bind fun ethType => (ByteProg.byte 23).bind fun proto => (ByteProg.byte 14).bind fun vHl =>
  tcphHdrlen.bind fun h => (ByteProg.be 16 2).bind fun ipLen => (tcpParseOptions fuel len).bind fun r =>
    .ret (parseCond len ethType proto vHl h ipLen r)

/-- `inject_tcp_ts` on the buffer `m` of a packet of the slow path; `none` if the loop over the
options does not end. -/
def injectTcpTs (fuel : Nat) (m : Nat → Byte) (len : BitVec 16) (ts : BitVec 32) (sums : Checksums) : Option (Nat → Byte) :=
  if len.toNat < pktTcpSize ∨ (PktTcp.load m).ethType ≠ 0x0800 ∨ (PktTcp.load m).proto ≠ 6 then some m
  else match (tcpParseOptions fuel len).run m with
    | none => none
    | some (rc, o) =>
      if rc ≠ 0 then some m
      else match o.ts with
        | none => some m
        | some t => some (({ PktTcp.load m with ipChksum := sums.ip, tcpChksum := sums.tcp }).store
            (store m (t + 2) (toBe 4 ts.toNat)))

/-! ## Turns and offsets -/

/-- `opts_len`, for a header of at least 20 bytes. -/
def optsLen (m : Nat → Byte) : Nat := RawPkt.hdrlen m * 4 - 20

/-- The check of the lengths that comes before the loop. -/
def OptsChecked (m : Nat → Byte) (len : BitVec 16) : Prop :=
  5 ≤ RawPkt.hdrlen m ∧ optsLen m ≤ (len.toNat + 2 ^ 64 - pktTcpSize) % 2 ^ 64

/-- The offsets to which the loop comes, with the options found up to there. -/
inductive OptAt (mss : Bool) (m : Nat → Byte) (len : BitVec 16) : Nat → TcpOpts → Prop where
  | start (h : OptsChecked m len) : OptAt mss m len 0 {}
  | next {off off' : Nat} {o o' : TcpOpts} (h : OptAt mss m len off o) (hoff : off < optsLen m)
      (ht : (optsTurn mss (optsLen m) off o).run m = .next off' o') : OptAt mss m len off' o'

/-- An option of length 0 that is not rejected. -/
def ZeroOpt (mss : Bool) (m : Nat → Byte) (off : Nat) : Prop :=
  off + 1 < optsLen m ∧ m (pktTcpSize + off) ≠ 0 ∧ m (pktTcpSize + off) ≠ 1 ∧ m (pktTcpSize + off) ≠ 8 ∧
    ¬ (mss = true ∧ m (pktTcpSize + off) = 2) ∧ m (pktTcpSize + off + 1) = 0

/-- No option of length 0 is reached. -/
def OptsAdvance (mss : Bool) (m : Nat → Byte) (len : BitVec 16) : Prop :=
  ∀ off o, OptAt mss m len off o → ¬ ZeroOpt mss m off

/-- The timestamp and MSS options that are reached lie within the options. -/
def OptsFit (mss : Bool) (m : Nat → Byte) (len : BitVec 16) : Prop :=
  ∀ off o, OptAt mss m len off o → off + 1 < optsLen m →
    (m (pktTcpSize + off) = 8 → m (pktTcpSize + off + 1) = 10 → off + 10 ≤ optsLen m) ∧
    (mss = true → m (pktTcpSize + off) = 2 → m (pktTcpSize + off + 1) = 4 → off + 4 ≤ optsLen m)

section turn

variable {mss : Bool} {m : Nat → Byte} {off off' : Nat} {o o' : TcpOpts}

theorem hdrlen_eq (m : Nat → Byte) : RawPkt.hdrlen m = be m 46 2 / 2 ^ 12 := by
  have hlt := be_lt m 46 2
  rw [RawPkt.hdrlen, PktTcp.readBe16_eq, BitVec.toNat_ushiftRight, BitVec.toNat_ofNat, Nat.shiftRight_eq_div_pow,
    Nat.mod_eq_of_lt (by omega)]

theorem hdrlen_lt (m : Nat → Byte) : RawPkt.hdrlen m < 16 := by
  have hlt := be_lt m 46 2
  rw [hdrlen_eq]
  omega

theorem run_tcphHdrlen : tcphHdrlen.run m = RawPkt.hdrlen m := by
  rw [tcphHdrlen, run_bind, run_be, hdrlen_eq]
  rfl

theorem mem_reads_tcphHdrlen {i : Nat} : i ∈ tcphHdrlen.reads m ↔ 46 ≤ i ∧ i < 48 := by
  rw [tcphHdrlen, reads_bind, reads_ret, append_nil]
  exact mem_reads_be

/-- What a turn that goes on has found: nothing, a timestamp, or an MSS. -/
inductive OptFound (mss : Bool) (m : Nat → Byte) (off : Nat) (o : TcpOpts) : Nat → TcpOpts → Prop where
  | noOp (h : m (pktTcpSize + off) = 1) : OptFound mss m off o (off + 1) o
  | other (h : off + 1 < optsLen m) (h0 : m (pktTcpSize + off) ≠ 0) (h1 : m (pktTcpSize + off) ≠ 1)
      (h2 : ¬ (mss = true ∧ m (pktTcpSize + off) = 2)) (h8 : m (pktTcpSize + off) ≠ 8) :
      OptFound mss m off o (off + (m (pktTcpSize + off + 1)).toNat) o
  | ts (h : off + 1 < optsLen m) (h8 : m (pktTcpSize + off) = 8) (hlen : m (pktTcpSize + off + 1) = 10) :
      OptFound mss m off o (off + 10) { o with ts := some (pktTcpSize + off) }
  | mss (h : off + 1 < optsLen m) (hm : mss = true) (h2 : m (pktTcpSize + off) = 2) (hlen : m (pktTcpSize + off + 1) = 4) :
      OptFound mss m off o (off + 4) { o with mss := some (pktTcpSize + off) }

theorem optsTurn_cases (mss : Bool) (m : Nat → Byte) (off : Nat) (o : TcpOpts) :
    (∃ rc, (optsTurn mss (optsLen m) off o).run m = .stop rc o) ∨
    ∃ off' o', (optsTurn mss (optsLen m) off o).run m = .next off' o' ∧ OptFound mss m off o off' o' := by
  rw [optsTurn, run_byte_bind]
  split
  · exact .inl ⟨_, rfl⟩
  · rename_i h0
    split
    · rename_i h1
      exact .inr ⟨_, _, rfl, .noOp h1⟩
    · rename_i h1
      split
      · exact .inl ⟨_, rfl⟩
      · rw [run_byte_bind, run_ret, varOpt]
        split
        · rename_i h2
          split
          · exact .inl ⟨_, rfl⟩
          · rename_i hlen
            rw [not_not] at hlen
            rw [hlen]
            exact .inr ⟨_, _, rfl, .mss (by omega) h2.1 h2.2 hlen⟩
        · rename_i h2
          split
          · rename_i h8
            split
            · exact .inl ⟨_, rfl⟩
            · rename_i hlen
              rw [not_not] at hlen
              rw [hlen]
              exact .inr ⟨_, _, rfl, .ts (by omega) h8 hlen⟩
          · rename_i h8
            exact .inr ⟨_, _, rfl, .other (by omega) h0 h1 h2 h8⟩

theorem optsTurn_next (h : (optsTurn mss (optsLen m) off o).run m = .next off' o') : OptFound mss m off o off' o' := by
  obtain ⟨rc, e⟩ | ⟨off₁, o₁, e, hf⟩ := optsTurn_cases mss m off o
  · rw [e] at h
    cases h
  · rw [e] at h
    cases h
    exact hf

theorem OptFound.run (h : OptFound mss m off o off' o') : (optsTurn mss (optsLen m) off o).run m = .next off' o' := by
  rw [optsTurn, run_byte_bind]
  cases h with
  | noOp h => rw [h, if_neg (by decide), if_pos rfl, run_ret]
  | other h h0 h1 h2 h8 => rw [if_neg h0, if_neg h1, if_neg (by omega), run_byte_bind, run_ret, varOpt, if_neg h2, if_neg h8]
  | ts h h8 hlen =>
    rw [h8, if_neg (by decide), if_neg (by decide), if_neg (by omega), run_byte_bind, run_ret, varOpt, hlen,
      if_neg (by simp), if_pos rfl, if_neg (by decide)]
    rfl
  | mss h hm h2 hlen =>
    rw [h2, if_neg (by decide), if_neg (by decide), if_neg (by omega), run_byte_bind, run_ret, varOpt, hlen,
      if_pos ⟨hm, rfl⟩, if_neg (by decide)]
    rfl

theorem mem_reads_optsTurn {i : Nat} (h : i ∈ (optsTurn mss (optsLen m) off o).reads m) :
    i = pktTcpSize + off ∨ i = pktTcpSize + off + 1 ∧ off + 1 < optsLen m := by
  rw [optsTurn, reads_byte_bind, mem_cons] at h
  rcases h with h | h
  · exact .inl h
  · split at h
    · cases h
    · split at h
      · cases h
      · split at h
        · cases h
        · rw [reads_byte_bind, reads_ret, mem_singleton] at h
          exact .inr ⟨h, by omega⟩

theorem OptFound.le (h : OptFound mss m off o off' o') : off ≤ off' := by
  cases h <;> omega

end turn

/-! ## The loop -/

/-- What is kept by every turn of the loop, and holds when it ends or runs out of turns. -/
theorem optsLoop_rule {mss : Bool} {m : Nat → Byte}
    {I : Nat → Nat → TcpOpts → List Nat → Option (Int × TcpOpts) → Prop}
    (done : ∀ fuel off o, optsLen m ≤ off → I fuel off o [] (some (0, o)))
    (out : ∀ off o, off < optsLen m → I 0 off o [] none)
    (stop : ∀ fuel off o rc, off < optsLen m → (optsTurn mss (optsLen m) off o).run m = .stop rc o →
      I (fuel + 1) off o ((optsTurn mss (optsLen m) off o).reads m) (some (rc, o)))
    (next : ∀ fuel off o off' o' l r, off < optsLen m → (optsTurn mss (optsLen m) off o).run m = .next off' o' →
      I fuel off' o' l r → I (fuel + 1) off o ((optsTurn mss (optsLen m) off o).reads m ++ l) r)
    (fuel off : Nat) (o : TcpOpts) :
    I fuel off o ((optsLoop mss (optsLen m) fuel off o).reads m) ((optsLoop mss (optsLen m) fuel off o).run m) := by
  induction fuel generalizing off o with
  | zero =>
    rw [optsLoop]
    split
    · rename_i hoff
      exact out off o hoff
    · exact done 0 off o (by omega)
  | succ fuel ih =>
    rw [optsLoop]
    split
    · rename_i hoff
      rw [reads_bind, run_bind]
      obtain ⟨rc, e⟩ | ⟨off', o', e, -⟩ := optsTurn_cases mss m off o
      · rw [e]
        have h := stop fuel off o rc hoff e
        rw [← append_nil ((optsTurn mss (optsLen m) off o).reads m)] at h
        exact h
      · rw [e]
        exact next fuel off o off' o' _ _ hoff e (ih off' o')
    · exact done (fuel + 1) off o (by omega)

section loop

variable {mss : Bool} {m : Nat → Byte} {len : BitVec 16}

theorem optsLoop_next {fuel off off' : Nat} {o o' : TcpOpts} (hoff : off < optsLen m)
    (ht : (optsTurn mss (optsLen m) off o).run m = .next off' o') :
    (optsLoop mss (optsLen m) (fuel + 1) off o).run m = (optsLoop mss (optsLen m) fuel off' o').run m := by
  rw [optsLoop, if_pos hoff, run_bind, ht]

theorem OptAt.checked {off : Nat} {o : TcpOpts} (h : OptAt mss m len off o) : OptsChecked m len := by
  induction h with
  | start h => exact h
  | next _ _ _ ih => exact ih

/-- The loop from the start comes to `off` after `k` turns. -/
theorem OptAt.run {off : Nat} {o : TcpOpts} (h : OptAt mss m len off o) :
    ∃ k, (∀ fuel, (optsLoop mss (optsLen m) (k + fuel) 0 {}).run m = (optsLoop mss (optsLen m) fuel off o).run m) ∧
      ∀ fuel < k, (optsLoop mss (optsLen m) fuel 0 {}).run m = none := by
  induction h with
  | start _ => exact ⟨0, fun fuel => by rw [Nat.zero_add], fun fuel h => absurd h (Nat.not_lt_zero _)⟩
  | @next off off' o o' _ hoff ht ih =>
    obtain ⟨k, hk, hnone⟩ := ih
    refine ⟨k + 1, fun fuel => ?_, fun fuel hf => ?_⟩
    · rw [Nat.add_assoc, Nat.add_comm 1, hk, optsLoop_next hoff ht]
    · rcases Nat.lt_or_eq_of_le (Nat.le_of_lt_succ hf) with hf | rfl
      · exact hnone fuel hf
      · refine (hk 0).trans ?_
        rw [optsLoop, if_pos hoff, run_ret]

theorem mem_reads_optsLoop {fuel off i : Nat} {o : TcpOpts} (h : i ∈ (optsLoop mss (optsLen m) fuel off o).reads m) :
    pktTcpSize + off ≤ i ∧ i < pktTcpSize + optsLen m := by
  refine @optsLoop_rule mss m
    (fun _ off _ l _ => ∀ i ∈ l, pktTcpSize + off ≤ i ∧ i < pktTcpSize + optsLen m) ?_ ?_ ?_ ?_ fuel off o i h
  · exact fun _ _ _ _ _ hi => absurd hi not_mem_nil
  · exact fun _ _ _ _ hi => absurd hi not_mem_nil
  · intro fuel off o rc hoff _ i hi
    have := mem_reads_optsTurn hi
    omega
  · intro fuel off o off' o' l r hoff e ih i hi
    have hle := (optsTurn_next e).le
    rcases mem_append.mp hi with hi | hi
    · have := mem_reads_optsTurn hi
      omega
    · have := ih i hi
      omega

/-- The loop ends after a turn for each byte, if it never stays where it is. -/
theorem optsLoop_ends (hadv : OptsAdvance mss m len) {fuel off : Nat} {o : TcpOpts} (hat : OptAt mss m len off o)
    (hfuel : optsLen m ≤ off + fuel) : ((optsLoop mss (optsLen m) fuel off o).run m).isSome := by
  refine @optsLoop_rule mss m
    (fun fuel off o _ r => OptAt mss m len off o → optsLen m ≤ off + fuel → r.isSome) ?_ ?_ ?_ ?_ fuel off o hat hfuel
  · exact fun _ _ _ _ _ _ => rfl
  · intro off o hoff _ hfuel
    omega
  · exact fun _ _ _ _ _ _ _ _ => rfl
  · intro fuel off o off' o' l r hoff e ih hat hfuel
    have hlt : off < off' := by
      have hz := hadv off o hat
      cases optsTurn_next e with
      | noOp h => omega
      | other h h0 h1 h2 h8 =>
        have hne : (m (pktTcpSize + off + 1)).toNat ≠ 0 := fun he =>
          hz ⟨h, h0, h1, h8, h2, BitVec.eq_of_toNat_eq he⟩
        omega
      | ts h h8 hlen => omega
      | mss h hm h2 hlen => omega
    exact ih (.next hat hoff e) (by omega)

/-- The loop does not get past an option of length 0. -/
theorem optsLoop_endless {off : Nat} (hz : ZeroOpt mss m off) (fuel : Nat) (o : TcpOpts) :
    (optsLoop mss (optsLen m) fuel off o).run m = none := by
  obtain ⟨hlen, h0, h1, h8, h2, hzero⟩ := hz
  have hoff : off < optsLen m := by omega
  have ht : OptFound mss m off o off o := by
    have h := OptFound.other (o := o) hlen h0 h1 h2 h8
    rwa [hzero] at h
  induction fuel with
  | zero => rw [optsLoop, if_pos hoff, run_ret]
  | succ fuel ih => rw [optsLoop_next hoff ht.run, ih]

/-- The options found lie within the options of the packet. -/
structure OptsIn (m : Nat → Byte) (o : TcpOpts) : Prop where
  ts : ∀ t, o.ts = some t → pktTcpSize ≤ t ∧ t + 10 ≤ pktTcpSize + optsLen m
  mss : ∀ t, o.mss = some t → pktTcpSize ≤ t ∧ t + 4 ≤ pktTcpSize + optsLen m

theorem optsIn_none (m : Nat → Byte) : OptsIn m {} :=
  ⟨fun _ h => absurd h (by simp), fun _ h => absurd h (by simp)⟩

theorem OptFound.optsIn {off off' : Nat} {o o' : TcpOpts} (h : OptFound mss m off o off' o') (hat : OptAt mss m len off o)
    (hfit : OptsFit mss m len) (ho : OptsIn m o) : OptsIn m o' := by
  cases h with
  | noOp h => exact ho
  | other => exact ho
  | ts h h8 hlen =>
    have hle := (hfit off o hat h).1 h8 hlen
    refine ⟨fun t ht => ?_, ho.mss⟩
    obtain rfl : pktTcpSize + off = t := Option.some.inj ht
    omega
  | mss h hm h2 hlen =>
    have hle := (hfit off o hat h).2 hm h2 hlen
    refine ⟨ho.ts, fun t ht => ?_⟩
    obtain rfl : pktTcpSize + off = t := Option.some.inj ht
    omega

theorem optsLoop_optsIn (hfit : OptsFit mss m len) {fuel off : Nat} {o o' : TcpOpts} {rc : Int} (hat : OptAt mss m len off o)
    (ho : OptsIn m o) (hr : (optsLoop mss (optsLen m) fuel off o).run m = some (rc, o')) : OptsIn m o' := by
  refine @optsLoop_rule mss m (fun _ off o _ r => OptAt mss m len off o → OptsIn m o → ∀ rc o', r = some (rc, o') → OptsIn m o')
    ?_ ?_ ?_ ?_ fuel off o hat ho rc o' hr
  · rintro _ off o - - ho rc o' ⟨⟩
    exact ho
  · rintro off o - - - rc o' ⟨⟩
  · rintro _ off o rc - - - ho rc' o' ⟨⟩
    exact ho
  · intro fuel off o off' o' l r hoff e ih hat ho
    exact ih (.next hat hoff e) ((optsTurn_next e).optsIn hat hfit ho)

end loop

/-! ## Both parsers -/

section parse

variable {mss : Bool} {m : Nat → Byte} {fuel : Nat} {len : BitVec 16}

theorem OptsChecked.of_le (h5 : 5 ≤ RawPkt.hdrlen m) (hlen : pktTcpSize + optsLen m ≤ len.toNat) : OptsChecked m len :=
  ⟨h5, by omega⟩

/-- The options lie inside the packet, if the headers do. -/
theorem OptsChecked.le (h : OptsChecked m len) (hlen : pktTcpSize ≤ len.toNat) : pktTcpSize + optsLen m ≤ len.toNat := by
  have := h.2
  omega

/-- Parsing is the loop from the start of the options, -/
theorem optionsParse_checked (h : OptsChecked m len) :
    (optionsParse mss fuel len).run m = (optsLoop mss (optsLen m) fuel 0 {}).run m ∧
    (optionsParse mss fuel len).reads m = tcphHdrlen.reads m ++ (optsLoop mss (optsLen m) fuel 0 {}).reads m := by
  obtain ⟨h5, hle⟩ := h
  unfold optsLen at hle
  rw [optionsParse, run_bind, reads_bind, run_tcphHdrlen]
  rw [if_neg (by omega)]
  exact ⟨rfl, rfl⟩

/-- or fails at once. -/
theorem optionsParse_unchecked (h : ¬ OptsChecked m len) :
    (optionsParse mss fuel len).run m = some (-1, {}) ∧ (optionsParse mss fuel len).reads m = tcphHdrlen.reads m := by
  rw [OptsChecked, optsLen] at h
  rw [optionsParse, run_bind, reads_bind, run_tcphHdrlen]
  rw [if_pos (by omega), run_ret, reads_ret, append_nil]
  exact ⟨rfl, rfl⟩

/-- Parsing ends after a turn for each byte, or never. -/
theorem optionsParse_ends (hadv : OptsAdvance mss m len) : ((optionsParse mss (optsLen m) len).run m).isSome := by
  by_cases h : OptsChecked m len
  · rw [(optionsParse_checked h).1]
    exact optsLoop_ends hadv (.start h) (by omega)
  · rw [(optionsParse_unchecked h).1]
    rfl

theorem optionsParse_endless (h : ¬ OptsAdvance mss m len) (fuel : Nat) : (optionsParse mss fuel len).run m = none := by
  simp only [OptsAdvance, not_forall, not_not] at h
  obtain ⟨off, o, hat, hz⟩ := h
  obtain ⟨k, hk, hnone⟩ := hat.run
  rw [(optionsParse_checked hat.checked).1]
  rcases Nat.lt_or_ge fuel k with hf | hf
  · exact hnone fuel hf
  · rw [show fuel = k + (fuel - k) by omega, hk]
    exact optsLoop_endless hz _ o

/-- The byte with the length of the header is read, and the first byte of options. -/
theorem reads_lt_iff : (∀ fuel, ∀ i ∈ (optionsParse mss fuel len).reads m, i < len.toNat) ↔
    48 ≤ len.toNat ∧ (pktTcpSize ≤ len.toNat ∨ optsLen m = 0) := by
  have hsize : pktTcpSize = 54 := rfl
  have hlt := hdrlen_lt m
  constructor
  · intro h
    have h47 := h 0 47 (by rw [optionsParse, reads_bind]; exact mem_append_left _ (mem_reads_tcphHdrlen.mpr (by decide)))
    refine ⟨h47, or_iff_not_imp_right.mpr fun hne => ?_⟩
    by_contra hshort
    have hc : OptsChecked m len := by
      unfold optsLen at hne
      refine ⟨by omega, ?_⟩
      rw [optsLen]
      omega
    have h54 := h 1 pktTcpSize (by
      rw [(optionsParse_checked hc).2, optsLoop, if_pos (by omega), reads_bind, optsTurn, reads_byte_bind]
      exact mem_append_right _ (mem_append_left _ mem_cons_self))
    omega
  · rintro ⟨h48, hle⟩ fuel i hi
    by_cases hc : OptsChecked m len
    · rw [(optionsParse_checked hc).2, mem_append, mem_reads_tcphHdrlen] at hi
      rcases hi with hi | hi
      · omega
      · have hin := mem_reads_optsLoop hi
        have := hc.le
        omega
    · rw [(optionsParse_unchecked hc).2, mem_reads_tcphHdrlen] at hi
      omega

def TcpOpts.noMss (o : TcpOpts) : TcpOpts := { o with mss := none }

def OptTurn.noMss : OptTurn → OptTurn
  | .stop rc o => .stop rc o.noMss
  | .next off o => .next off o.noMss

/-- An MSS option that is not four bytes long. -/
def BadMss (m : Nat → Byte) (off : Nat) : Prop :=
  off + 1 < optsLen m ∧ m (pktTcpSize + off) = 2 ∧ m (pktTcpSize + off + 1) ≠ 4

theorem BadMss.turn {off : Nat} (h : BadMss m off) (o : TcpOpts) :
    (optsTurn true (optsLen m) off o).run m = .stop (-1) o ∧
    (optsTurn false (optsLen m) off o).run m = .next (off + (m (pktTcpSize + off + 1)).toNat) o := by
  obtain ⟨hoff, h2, h4⟩ := h
  refine ⟨?_, (OptFound.other hoff (by simp [h2]) (by simp [h2]) (by simp) (by simp [h2])).run⟩
  rw [optsTurn, run_byte_bind, h2, if_neg (by decide), if_neg (by decide), if_neg (by omega), run_byte_bind, run_ret, varOpt,
    if_pos ⟨rfl, rfl⟩, if_pos h4]

theorem optsTurn_noMss {off : Nat} (h : ¬ BadMss m off) (o : TcpOpts) :
    (optsTurn false (optsLen m) off o.noMss).run m = ((optsTurn true (optsLen m) off o).run m).noMss := by
  simp only [optsTurn, run_byte_bind, apply_ite (run m), run_ret, varOpt]
  grind [BadMss, OptTurn.noMss, TcpOpts.noMss]

theorem optsLoop_noMss (h : ∀ off o, OptAt true m len off o → ¬ BadMss m off) {off : Nat} {o : TcpOpts}
    (hat : OptAt true m len off o) :
    (optsLoop false (optsLen m) fuel off o.noMss).run m =
      ((optsLoop true (optsLen m) fuel off o).run m).map fun r => (r.1, r.2.noMss) := by
  induction fuel generalizing off o with
  | zero =>
    rw [optsLoop, optsLoop]
    split <;> rfl
  | succ fuel ih =>
    rw [optsLoop, optsLoop]
    split
    · rename_i hoff
      rw [run_bind, run_bind, optsTurn_noMss (h off o hat)]
      cases ht : (optsTurn true (optsLen m) off o).run m with
      | stop rc o' => rfl
      | next off' o' => exact ih (hat.next hoff ht)
    · rfl

/-- Where the slow path's loop comes to, the fast path's does. -/
theorem OptAt.noMss {off : Nat} {o : TcpOpts} (h : OptAt true m len off o) : OptAt false m len off o.noMss := by
  induction h with
  | start h => exact .start h
  | @next off off' o o' _ hoff ht ih =>
    refine ih.next hoff ?_
    rw [optsTurn_noMss fun hb => ?_, ht]
    · rfl
    · rw [(hb.turn o).1] at ht
      cases ht

/-- The fast path's parser returns what the slow path's does, without the MSS, unless both
come to a bad MSS option, where the slow path's stops with an error and the fast path's,
which does not know the option, goes on. -/
theorem option_parsers_agree :
    (tcpParseOptions fuel len).run m = ((slowParseOptions fuel len).run m).map (fun r => (r.1, r.2.noMss)) ∨
    ∃ off o, OptAt true m len off o ∧ OptAt false m len off o.noMss ∧ BadMss m off ∧
      (∃ k, ∀ n, (slowParseOptions (k + n) len).run m = some (-1, o)) ∧
      ∃ off', (optsTurn false (optsLen m) off o.noMss).run m = .next off' o.noMss := by
  refine or_iff_not_imp_left.mpr fun hne => ?_
  obtain ⟨off, o, hat, hbad⟩ : ∃ off o, OptAt true m len off o ∧ BadMss m off := by
    by_contra hno
    refine hne ?_
    rw [tcpParseOptions, slowParseOptions]
    by_cases hc : OptsChecked m len
    · rw [(optionsParse_checked hc).1, (optionsParse_checked hc).1]
      exact optsLoop_noMss (fun off o hat hb => hno ⟨off, o, hat, hb⟩) (.start hc)
    · rw [(optionsParse_unchecked hc).1, (optionsParse_unchecked hc).1]
      rfl
  refine ⟨off, o, hat, hat.noMss, hbad, ?_, _, (hbad.turn _).2⟩
  obtain ⟨k, hk, -⟩ := hat.run
  have hoff := hbad.1
  refine ⟨k + 1, fun n => ?_⟩
  rw [slowParseOptions, (optionsParse_checked hat.checked).1, Nat.add_assoc, Nat.add_comm 1, hk, optsLoop, if_pos (by omega),
    run_bind, (hbad.turn o).1, run_ret]

end parse

/-! ## The slow path's parser -/

theorem parseOptionsFrom_succ {m : Nat → Byte} {off : Nat} (hoff : off < optsLen m) (turns : Nat) (o : TcpOpts) :
    (∀ rc o', (optsTurn true (optsLen m) off o).run m = .stop rc o' →
      parseOptionsFrom m (optsLen m) (turns + 1) off o = .ok (if rc = 0 then some o' else none)) ∧
    (∀ off' o', (optsTurn true (optsLen m) off o).run m = .next off' o' →
      parseOptionsFrom m (optsLen m) (turns + 1) off o = parseOptionsFrom m (optsLen m) turns off' o') := by
  rw [parseOptionsFrom, if_pos hoff, optsTurn, run_byte_bind]
  generalize m (pktTcpSize + off) = kind
  by_cases h0 : kind = 0
  · rw [if_pos h0, if_pos h0]
    exact ⟨by rintro rc o' ⟨⟩; rfl, by rintro off' o' ⟨⟩⟩
  rw [if_neg h0, if_neg h0]
  by_cases h1 : kind = 1
  · rw [if_pos h1, if_pos h1]
    exact ⟨by rintro rc o' ⟨⟩, by rintro off' o' ⟨⟩; rfl⟩
  rw [if_neg h1, if_neg h1]
  by_cases hav : optsLen m - off < 2
  · rw [if_pos hav, if_pos hav]
    exact ⟨by rintro rc o' ⟨⟩; rfl, by rintro off' o' ⟨⟩⟩
  rw [if_neg hav, if_neg hav, run_byte_bind, run_ret, varOpt]
  generalize m (pktTcpSize + off + 1) = len
  have hlen : ∀ v : Byte, len.toNat ≠ v.toNat ↔ len ≠ v := fun v => not_congr BitVec.toNat_inj
  by_cases h2 : kind = 2
  · rw [if_pos h2, if_pos ⟨rfl, h2⟩]
    by_cases h4 : len.toNat ≠ 4
    · rw [if_pos h4, if_pos ((hlen 4).mp h4)]
      exact ⟨by rintro rc o' ⟨⟩; rfl, by rintro off' o' ⟨⟩⟩
    · rw [if_neg h4, if_neg ((not_congr (hlen 4)).mp h4)]
      exact ⟨by rintro rc o' ⟨⟩, by rintro off' o' ⟨⟩; rfl⟩
  rw [if_neg h2, if_neg fun h => h2 h.2]
  by_cases h8 : kind = 8
  · rw [if_pos h8, if_pos h8]
    by_cases h10 : len.toNat ≠ 10
    · rw [if_pos h10, if_pos ((hlen 10).mp h10)]
      exact ⟨by rintro rc o' ⟨⟩; rfl, by rintro off' o' ⟨⟩⟩
    · rw [if_neg h10, if_neg ((not_congr (hlen 10)).mp h10)]
      exact ⟨by rintro rc o' ⟨⟩, by rintro off' o' ⟨⟩; rfl⟩
  · rw [if_neg h8, if_neg h8]
    exact ⟨by rintro rc o' ⟨⟩, by rintro off' o' ⟨⟩; rfl⟩

/-- `parseOptionsFrom` makes the turns of the loop. -/
theorem parseOptionsFrom_of_run {m : Nat → Byte} {fuel off : Nat} {o o' : TcpOpts} {rc : Int}
    (h : (optsLoop true (optsLen m) fuel off o).run m = some (rc, o')) :
    parseOptionsFrom m (optsLen m) (fuel + 1) off o = .ok (if rc = 0 then some o' else none) := by
  refine @optsLoop_rule true m (fun fuel off o _ r => ∀ rc o', r = some (rc, o') →
    parseOptionsFrom m (optsLen m) (fuel + 1) off o = .ok (if rc = 0 then some o' else none)) ?_ ?_ ?_ ?_ fuel off o rc o' h
  · rintro fuel off o hoff rc o' ⟨⟩
    rw [parseOptionsFrom, if_neg (by omega)]
    rfl
  · rintro off o hoff rc o' ⟨⟩
  · rintro fuel off o rc hoff e rc' o' ⟨⟩
    exact (parseOptionsFrom_succ hoff (fuel + 1) o).1 rc o e
  · intro fuel off o off' o' l r hoff e ih rc o'' hr
    rw [(parseOptionsFrom_succ hoff (fuel + 1) o).2 off' o' e]
    exact ih rc o'' hr

theorem optsLoop_of_parseOptionsFrom {m : Nat → Byte} {fuel off : Nat} {o : TcpOpts} {x : Option TcpOpts}
    (h : parseOptionsFrom m (optsLen m) fuel off o = .ok x) : ((optsLoop true (optsLen m) fuel off o).run m).isSome := by
  refine @optsLoop_rule true m (fun fuel off o _ r => parseOptionsFrom m (optsLen m) fuel off o = .ok x → r.isSome)
    ?_ ?_ ?_ ?_ fuel off o h
  · exact fun _ _ _ _ _ => rfl
  · rintro off o - ⟨⟩
  · exact fun _ _ _ _ _ _ _ => rfl
  · intro fuel off o off' o' l r hoff e ih h
    rw [(parseOptionsFrom_succ hoff fuel o).2 off' o' e] at h
    exact ih h

/-- The slow path's parser returns, if no option of length 0 is reached. -/
theorem parseOptions_ok_iff {m : Nat → Byte} {len : BitVec 16} : (∃ o, parseOptions m len = .ok o) ↔ OptsAdvance true m len := by
  have hsize : pktTcpSize = 54 := rfl
  have hroom : (len.setWidth 64 - BitVec.ofNat 64 pktTcpSize).toNat = (len.toNat + 2 ^ 64 - pktTcpSize) % 2 ^ 64 := by
    rw [BitVec.toNat_sub, BitVec.toNat_setWidth, BitVec.toNat_ofNat, hsize]
    omega
  rw [parseOptions, hroom]
  by_cases hc : OptsChecked m len
  · have hc' : ¬ (RawPkt.hdrlen m < 5 ∨ (len.toNat + 2 ^ 64 - pktTcpSize) % 2 ^ 64 < RawPkt.hdrlen m * 4 - 20) := by
      rw [OptsChecked, optsLen] at hc
      omega
    rw [if_neg hc']
    constructor
    · rintro ⟨o, h⟩
      by_contra hadv
      have hsome := optsLoop_of_parseOptionsFrom h
      rw [← (optionsParse_checked hc).1, optionsParse_endless hadv] at hsome
      cases hsome
    · intro hadv
      obtain ⟨⟨rc, o⟩, e⟩ := Option.isSome_iff_exists.mp (optsLoop_ends hadv (.start hc) (Nat.le_add_left ..))
      exact ⟨_, parseOptionsFrom_of_run e⟩
  · have hc' : RawPkt.hdrlen m < 5 ∨ (len.toNat + 2 ^ 64 - pktTcpSize) % 2 ^ 64 < RawPkt.hdrlen m * 4 - 20 := by
      rw [OptsChecked, optsLen] at hc
      omega
    rw [if_pos hc']
    exact ⟨fun _ _ _ hat => absurd hat.checked hc, fun _ => ⟨_, rfl⟩⟩

/-! ## Packets that are kept -/

/-- The conditions of `fast_flows_packet_parse` on the headers. -/
structure HeadersOk (m : Nat → Byte) (len : BitVec 16) : Prop where
  long : pktTcpSize ≤ len.toNat
  ethType : be m 12 2 = 0x0800
  proto : m 23 = 6
  version : m 14 >>> 4 = 4
  headerLen : m 14 &&& 0x0f = 5
  hdrlen : 5 ≤ RawPkt.hdrlen m
  ipLen : be m 16 2 + 14 ≤ len.toNat

theorem headersOk_iff (m : Nat → Byte) (len : BitVec 16) : HeadersOk m len ↔
    pktTcpSize ≤ len.toNat ∧ be m 12 2 = 0x0800 ∧ m 23 = 6 ∧ m 14 >>> 4 = 4 ∧ m 14 &&& 0x0f = 5 ∧ 5 ≤ RawPkt.hdrlen m ∧
      be m 16 2 + 14 ≤ len.toNat := by
  constructor
  · rintro ⟨h₁, h₂, h₃, h₄, h₅, h₆, h₇⟩
    exact ⟨h₁, h₂, h₃, h₄, h₅, h₆, h₇⟩
  · rintro ⟨h₁, h₂, h₃, h₄, h₅, h₆, h₇⟩
    exact ⟨h₁, h₂, h₃, h₄, h₅, h₆, h₇⟩

instance (m : Nat → Byte) (len : BitVec 16) : Decidable (HeadersOk m len) := decidable_of_iff' _ (headersOk_iff m len)

section kept

variable {m : Nat → Byte} {fuel ts : Nat} {len : BitVec 16}

theorem run_fastFlowsPacketParse (m : Nat → Byte) (fuel : Nat) (len : BitVec 16) :
    (fastFlowsPacketParse fuel len).run m = parseCond len (be m 12 2) (m 23) (m 14) (RawPkt.hdrlen m) (be m 16 2)
      ((tcpParseOptions fuel len).run m) := by
  rw [fastFlowsPacketParse, run_bind, run_be, run_byte_bind, run_byte_bind,
    run_bind, run_tcphHdrlen, run_bind, run_be, run_bind, run_ret]

theorem kept_iff : (fastFlowsPacketParse fuel len).run m = .kept ts ↔
    HeadersOk m len ∧ ∃ o, (tcpParseOptions fuel len).run m = some (0, o) ∧ o.ts = some ts := by
  rw [run_fastFlowsPacketParse, parseCond.eq_def]
  constructor
  · intro h
    split at h
    · cases h
    · rename_i rc o e
      split at h
      · cases h
      · rename_i ts' hts
        split at h
        · cases h
        · rename_i hc
          simp only [not_or, not_lt, not_not] at hc
          obtain ⟨h₁, h₂, h₃, h₄, h₅, h₆, h₇, rfl⟩ := hc
          cases h
          exact ⟨⟨h₁, h₂, h₃, h₄, h₅, h₆, h₇⟩, o, e, hts⟩
  · rintro ⟨⟨h₁, h₂, h₃, h₄, h₅, h₆, h₇⟩, o, e, hts⟩
    rw [e]
    dsimp only
    rw [hts]
    dsimp only
    rw [if_neg]
    simp only [not_or, not_lt, not_not]
    exact ⟨h₁, h₂, h₃, h₄, h₅, h₆, h₇, trivial⟩

/-- It reads in the headers, and what the parser of the options reads. -/
theorem reads_fastFlowsPacketParse : ∃ l, (∀ i ∈ l, i < 48) ∧
    (fastFlowsPacketParse fuel len).reads m = l ++ (tcpParseOptions fuel len).reads m := by
  refine ⟨(ByteProg.be 12 2).reads m ++ 23 :: 14 :: (tcphHdrlen.reads m ++ (ByteProg.be 16 2).reads m), fun i hi => ?_, ?_⟩
  · simp only [mem_append, mem_cons, mem_reads_be, mem_reads_tcphHdrlen] at hi
    omega
  · simp only [fastFlowsPacketParse, reads_bind, reads_ret, append_nil, append_assoc, cons_append]
    rfl

end kept

end TasNic
