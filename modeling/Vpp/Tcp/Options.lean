import Vpp.Lib.Reads

/-!
# TCP header options

`tcp_options_parse` of `vnet/tcp/tcp_packet.h`, with the length checks that `tcp_input_lookup_buffer`
makes before a segment gets that far. Bytes are addressed by their offset from the start of the TCP
header, and the parser records every option byte it reads. Its remaining length is a `u8` computed
from the data offset field, which nothing on the way compares with the size of the fixed header.
-/

namespace Vpp.Tcp

open Vpp.Lib
open BitVec (eq_of_toNat_eq le_def not_lt toNat_ofNat)

/-! ## The model -/

/-- The fields of `tcp_header_t` that the option parser looks at. -/
structure TcpHeader where
  dataOffsetAndReserved : BitVec 8
  flags : BitVec 8

def tcpDoff (th : TcpHeader) : BitVec 8 := th.dataOffsetAndReserved >>> 4

/-- `tcp_syn`, as a truth value. -/
def tcpSyn (th : TcpHeader) : Bool := th.flags &&& 0x02#8 != 0#8

def tcpHeaderBytes (th : TcpHeader) : Nat := (tcpDoff th).toNat * 4

structure SackBlock where
  start : BitVec 32
  stop : BitVec 32
  deriving DecidableEq, Repr

/-- `tcp_options_t`. -/
structure TcpOptions where
  sacks : List SackBlock
  tsval : BitVec 32
  tsecr : BitVec 32
  mss : BitVec 16
  flags : BitVec 8
  wscale : BitVec 8
  nSackBlocks : BitVec 8

/-! `TCP_OPTS_FLAG_*`. -/

def flagMss : BitVec 8 := 0x01#8
def flagTstamp : BitVec 8 := 0x02#8
def flagWscale : BitVec 8 := 0x04#8
def flagSackPermitted : BitVec 8 := 0x08#8
def flagSack : BitVec 8 := 0x10#8

abbrev Parser := Reads Nat (BitVec 8)

/-- `data[off]`. -/
def readU8 (off : Nat) : Parser (BitVec 8) := Reads.cell off

/-- `clib_net_to_host_u16 (*(u16 *) (data + off))`. -/
def readU16 (off : Nat) : Parser (BitVec 16) := do
  let hi ← readU8 off
  let lo ← readU8 (off + 1)
  pure (hi ++ lo)

/-- `clib_net_to_host_u32 (*(u32 *) (data + off))`. -/
def readU32 (off : Nat) : Parser (BitVec 32) := do
  let hi ← readU16 off
  let lo ← readU16 (off + 2)
  pure (hi ++ lo)

/-- The loop over the blocks of a SACK option at `data`. -/
def readSacks (data : Nat) : Nat → Parser (List SackBlock)
  | 0 => pure []
  | n + 1 => do
    let bs ← readSacks data n
    let start ← readU32 (data + 2 + 8 * n)
    let stop ← readU32 (data + 6 + 8 * n)
    pure (bs ++ [⟨start, stop⟩])

/-- The `switch` over the option kinds, for an option of length `optLen` at `data`. -/
def parseOption (th : TcpHeader) (isSyn : Bool) (data : Nat) (kind optLen : BitVec 8)
    (opts : TcpOptions) : Parser TcpOptions :=
  if kind = 2#8 then
    -- TCP_OPTION_MSS
    if isSyn && optLen == 4#8 && tcpSyn th then do
      let mss ← readU16 (data + 2)
      pure { opts with flags := opts.flags ||| flagMss, mss := mss }
    else pure opts
  else if kind = 3#8 then
    -- TCP_OPTION_WINDOW_SCALE
    if isSyn && optLen == 3#8 && tcpSyn th then do
      let wscale ← readU8 (data + 2)
      pure { opts with
        flags := opts.flags ||| flagWscale
        wscale := if 14#8 < wscale then 14#8 else wscale }
    else pure opts
  else if kind = 8#8 then
    -- TCP_OPTION_TIMESTAMP
    let opts := if isSyn then { opts with flags := opts.flags ||| flagTstamp } else opts
    if opts.flags &&& flagTstamp != 0#8 && optLen == 10#8 then do
      let tsval ← readU32 (data + 2)
      let tsecr ← readU32 (data + 6)
      pure { opts with tsval := tsval, tsecr := tsecr }
    else pure opts
  else if kind = 4#8 then
    -- TCP_OPTION_SACK_PERMITTED
    if isSyn && optLen == 2#8 && tcpSyn th then
      pure { opts with flags := opts.flags ||| flagSackPermitted }
    else pure opts
  else if kind = 5#8 then
    -- TCP_OPTION_SACK_BLOCK
    if opts.flags &&& flagSackPermitted == 0#8 || tcpSyn th then pure opts
    else if optLen < 10#8 || (optLen - 2#8) % 8#8 != 0#8 then pure opts
    else do
      let n := (optLen - 2#8) / 8#8
      let sacks ← readSacks data n.toNat
      pure { opts with flags := opts.flags ||| flagSack, nSackBlocks := n, sacks := sacks }
  else pure opts

/-- The loop of `tcp_options_parse`, with `optsLen` bytes left at `data`. Returns the options and the
return code. -/
def parseLoop (th : TcpHeader) (isSyn : Bool) (optsLen : BitVec 8) (data : Nat)
    (opts : TcpOptions) : Parser (TcpOptions × Int) :=
  if _ : optsLen = 0#8 then pure (opts, 0)
  else do
    let kind ← readU8 data
    if kind = 0#8 then pure (opts, 0)
    else if kind = 1#8 then parseLoop th isSyn (optsLen - 1#8) (data + 1) opts
    else if optsLen < 2#8 then pure (opts, -1)
    else do
      let optLen ← readU8 (data + 1)
      if _ : optLen < 2#8 ∨ optsLen < optLen then pure (opts, -1)
      else do
        let opts ← parseOption th isSyn data kind optLen opts
        parseLoop th isSyn (optsLen - optLen) (data + optLen.toNat) opts
termination_by optsLen.toNat
decreasing_by
  all_goals
    have hpos : 0 < optsLen.toNat := by
      rcases Nat.eq_zero_or_pos optsLen.toNat with h0 | h0
      · exact absurd (eq_of_toNat_eq h0) ‹_›
      · exact h0
    rw [BitVec.toNat_sub_of_le]
    all_goals bv_omega

/-- `sizeof (tcp_header_t)`. -/
def sizeofTcpHeader : Nat := 20

/-- `tcp_options_parse`. The remaining length is computed as a `size_t` and stored in a `u8`. -/
def tcpOptionsParse (th : TcpHeader) (opts : TcpOptions) (isSyn : Bool) :
    Parser (TcpOptions × Int) :=
  let optsLen := (((tcpDoff th).setWidth 64 <<< 2) - BitVec.ofNat 64 sizeofTcpHeader).setWidth 8
  let opts := { opts with
    flags := opts.flags &&& (flagSackPermitted ||| flagWscale ||| flagTstamp ||| flagMss) }
  parseLoop th isSyn optsLen sizeofTcpHeader opts

/-! ## The input path -/

/-- A received segment: the bytes in the first buffer from the IP header on, the IPv4 header and total length
or the IPv6 payload length, the TCP header and what follows. -/
structure RxSegment where
  isIp4 : Bool
  currentLength : BitVec 16
  ip4HeaderBytes : Nat
  ipLength : BitVec 16
  th : TcpHeader
  bytes : Nat → BitVec 8

/-- `sizeof (ip6_header_t)`. -/
def sizeofIp6Header : Nat := 40

/-- The length checks of `tcp_input_lookup_buffer`: offset and length of the data, or nothing when the segment
is dropped. -/
def tcpInputLookupBuffer (b : RxSegment) : Option (Nat × Int) :=
  let ipHdrBytes := if b.isIp4 then b.ip4HeaderBytes else sizeofIp6Header
  if b.currentLength.toNat < ipHdrBytes + sizeofTcpHeader then none
  else
    let nAdvanceBytes := ipHdrBytes + tcpHeaderBytes b.th
    let nDataBytes : Int :=
      if b.isIp4 then (b.ipLength.toNat : Int) - nAdvanceBytes
      else (b.ipLength.toNat : Int) - tcpHeaderBytes b.th
    if nDataBytes < 0 then none else some (nAdvanceBytes, nDataBytes)

/-! ## What one option reads -/

/-- The option area from `lo` on, up to `hi`. -/
def Area (lo hi off : Nat) : Prop := lo ≤ off ∧ off < hi

variable {mem : Nat → BitVec 8} {lo hi : Nat}

variable {off data : Nat}

theorem readU8_in (h : Area lo hi off) : ReadsIn (Area lo hi) mem (readU8 off) :=
  readsIn_cell h

theorem readU16_in (hlo : lo ≤ off) (hhi : off + 2 ≤ hi) : ReadsIn (Area lo hi) mem (readU16 off) :=
  (readU8_in ⟨hlo, by omega⟩).bind ((readU8_in ⟨by omega, by omega⟩).bind (readsIn_pure _))

theorem readU32_in (hlo : lo ≤ off) (hhi : off + 4 ≤ hi) : ReadsIn (Area lo hi) mem (readU32 off) :=
  (readU16_in hlo (by omega)).bind ((readU16_in (by omega) (by omega)).bind (readsIn_pure _))

theorem readSacks_in (hlo : lo ≤ data) (n : Nat) (hhi : data + 2 + 8 * n ≤ hi) :
    ReadsIn (Area lo hi) mem (readSacks data n) := by
  induction n with
  | zero => exact readsIn_pure _
  | succ n ih =>
    refine (ih (by omega)).bind ((readU32_in ?_ ?_).bind ((readU32_in ?_ ?_).bind (readsIn_pure _)))
    all_goals omega

/-- `b` is what the eight bytes at `off` spell. -/
def SackAt (mem : Nat → BitVec 8) (off : Nat) (b : SackBlock) : Prop :=
  b = ⟨(readU32 off).value mem, (readU32 (off + 4)).value mem⟩

theorem mem_readSacks {n : Nat} {b : SackBlock} (h : b ∈ (readSacks data n).value mem) :
    ∃ off, data ≤ off ∧ off + 8 ≤ data + 2 + 8 * n ∧ SackAt mem off b := by
  induction n with
  | zero => exact absurd h List.not_mem_nil
  | succ n ih =>
    rw [readSacks, Reads.value_bind, Reads.value_bind, Reads.value_bind, Reads.value_pure,
      List.mem_append, List.mem_singleton] at h
    rcases h with h | rfl
    · obtain ⟨off, hlo, hhi, hat⟩ := ih h
      exact ⟨off, hlo, by omega, hat⟩
    · refine ⟨data + 2 + 8 * n, by omega, by omega, ?_⟩
      rw [SackAt, show data + 2 + 8 * n + 4 = data + 6 + 8 * n by omega]

/-- The options `opts'` hold the SACK blocks `opts` held, or blocks read from the area. -/
def SacksFrom (mem : Nat → BitVec 8) (lo hi : Nat) (opts opts' : TcpOptions) : Prop :=
  opts'.sacks = opts.sacks ∨
    ∀ b ∈ opts'.sacks, ∃ off, lo ≤ off ∧ off + 8 ≤ hi ∧ SackAt mem off b

theorem SacksFrom.trans {o₁ o₂ o₃ : TcpOptions} (h₁ : SacksFrom mem lo hi o₁ o₂)
    (h₂ : SacksFrom mem lo hi o₂ o₃) : SacksFrom mem lo hi o₁ o₃ := by
  rcases h₂ with h₂ | h₂
  · unfold SacksFrom
    rw [h₂]
    exact h₁
  · exact .inr h₂

/-- A parser that started from `opts` stays in the area, and so do the SACK blocks of its result. -/
def Stays {α : Type} (mem : Nat → BitVec 8) (lo hi : Nat) (opts : TcpOptions) (out : α → TcpOptions)
    (m : Parser α) : Prop :=
  ReadsIn (Area lo hi) mem m ∧ SacksFrom mem lo hi opts (out (m.value mem))

section Stays

variable {α β : Type} {opts : TcpOptions} {out : α → TcpOptions}

theorem stays_pure {a : α} (h : (out a).sacks = opts.sacks) :
    Stays mem lo hi opts out (pure a : Parser α) :=
  ⟨readsIn_pure _, .inl h⟩

theorem Stays.after_read {m : Parser β} {k : β → Parser α} (hm : ReadsIn (Area lo hi) mem m)
    (hk : Stays mem lo hi opts out (k (m.value mem))) : Stays mem lo hi opts out (m >>= k) :=
  ⟨hm.bind hk.1, hk.2⟩

theorem Stays.bind {m : Parser TcpOptions} {k : TcpOptions → Parser α}
    (hm : Stays mem lo hi opts id m) (hk : Stays mem lo hi (m.value mem) out (k (m.value mem))) :
    Stays mem lo hi opts out (m >>= k) :=
  ⟨hm.1.bind hk.1, hm.2.trans hk.2⟩

end Stays

variable {th : TcpHeader} {opts : TcpOptions} {isSyn : Bool} {optsLen : BitVec 8}

theorem parseOption_stays (kind : BitVec 8) {optLen : BitVec 8} (hlo : lo ≤ data)
    (hhi : data + optLen.toNat ≤ hi) :
    Stays mem lo hi opts id (parseOption th isSyn data kind optLen opts) := by
  unfold parseOption
  split
  · -- MSS
    split
    · rename_i h
      simp only [Bool.and_eq_true, beq_iff_eq] at h
      obtain ⟨⟨-, rfl⟩, -⟩ := h
      exact .after_read (readU16_in (by omega) hhi) (stays_pure rfl)
    · exact stays_pure rfl
  split
  · -- window scale
    split
    · rename_i h
      simp only [Bool.and_eq_true, beq_iff_eq] at h
      obtain ⟨⟨-, rfl⟩, -⟩ := h
      exact .after_read (readU8_in ⟨by omega, hhi⟩) (stays_pure rfl)
    · exact stays_pure rfl
  split
  · -- timestamps
    have hsacks : (if isSyn then { opts with flags := opts.flags ||| flagTstamp } else opts).sacks =
        opts.sacks := by split <;> rfl
    generalize (if isSyn then { opts with flags := opts.flags ||| flagTstamp } else opts) = opts'
      at hsacks
    dsimp only
    split
    · rename_i h
      simp only [Bool.and_eq_true, beq_iff_eq] at h
      obtain ⟨-, rfl⟩ := h
      have hhi : data + 10 ≤ hi := hhi
      exact .after_read (readU32_in (by omega) (by omega))
        (.after_read (readU32_in (by omega) hhi) (stays_pure hsacks))
    · exact stays_pure hsacks
  split
  · -- SACK permitted
    split
    · exact stays_pure rfl
    · exact stays_pure rfl
  split
  · -- SACK blocks
    split
    · exact stays_pure rfl
    split
    · exact stays_pure rfl
    rename_i h
    have hlen : data + 2 + 8 * ((optLen - 2#8) / 8#8).toNat ≤ hi := by
      rw [Bool.or_eq_true, not_or, decide_eq_true_eq, not_lt, le_def] at h
      have hsub : (optLen - 2#8).toNat = optLen.toNat - 2 := by bv_omega
      rw [BitVec.toNat_udiv, hsub]
      have h10 : 10 ≤ optLen.toNat := h.1
      show data + 2 + 8 * ((optLen.toNat - 2) / 8) ≤ hi
      omega
    refine ⟨(readSacks_in hlo _ hlen).bind (readsIn_pure _), .inr fun b hb => ?_⟩
    obtain ⟨off, hoff, hend, hat⟩ := mem_readSacks hb
    exact ⟨off, by omega, by omega, hat⟩
  · exact stays_pure rfl

/-! ## The loop -/

/-- **The loop stays in the bytes it was given**: the remaining length never exceeds the area, since no option
is longer than what remains. -/
theorem parseLoop_stays (optsLen : BitVec 8) (data : Nat) (opts : TcpOptions) (hlo : lo ≤ data)
    (hhi : data + optsLen.toNat ≤ hi) :
    Stays mem lo hi opts Prod.fst (parseLoop th isSyn optsLen data opts) := by
  induction h : optsLen.toNat using Nat.strongRecOn generalizing optsLen data opts with
  | _ n ih =>
    rw [parseLoop]
    split
    · exact stays_pure rfl
    rename_i hne
    have hpos : 0 < optsLen.toNat := by
      rcases Nat.eq_zero_or_pos optsLen.toNat with h0 | h0
      · exact absurd (eq_of_toNat_eq h0) hne
      · exact h0
    refine .after_read (readU8_in ⟨hlo, by omega⟩) ?_
    generalize (readU8 data).value mem = kind
    split
    · exact stays_pure rfl
    split
    · -- a no-op is one byte long
      have hsub : (optsLen - 1#8).toNat = optsLen.toNat - 1 := by bv_omega
      exact ih _ (by omega) (optsLen - 1#8) (data + 1) opts (by omega) (by omega) rfl
    split
    · exact stays_pure rfl
    rename_i h2
    have h2 : 2 ≤ optsLen.toNat := le_def.mp (not_lt.mp h2)
    refine .after_read (readU8_in ⟨by omega, by omega⟩) ?_
    generalize (readU8 (data + 1)).value mem = optLen
    split
    · exact stays_pure rfl
    rename_i hlen
    rw [not_or, not_lt, not_lt, le_def, le_def] at hlen
    obtain ⟨hge, hle⟩ := hlen
    have hge : 2 ≤ optLen.toNat := hge
    have hsub : (optsLen - optLen).toNat = optsLen.toNat - optLen.toNat :=
      BitVec.toNat_sub_of_le hle
    exact (parseOption_stays kind hlo (by omega)).bind
      (ih _ (by omega) _ _ _ (by omega) (by omega) rfl)

theorem mem_touched_parseLoop (h : optsLen ≠ 0#8) :
    data ∈ (parseLoop th isSyn optsLen data opts).touched mem := by
  rw [parseLoop, dif_neg h]
  exact List.mem_append_left _ List.mem_cons_self

/-! ## The whole parser -/

/-- The parser reads only option bytes of the segment, and every SACK block it stores was read
there. -/
def ParsesInside (b : RxSegment) (opts : TcpOptions) (isSyn : Bool) : Prop :=
  Stays b.bytes sizeofTcpHeader (4 * (tcpDoff b.th).toNat) opts Prod.fst
    (tcpOptionsParse b.th opts isSyn)

theorem toNat_optsLen :
    (((tcpDoff th).setWidth 64 <<< 2) - BitVec.ofNat 64 sizeofTcpHeader).setWidth 8 =
      BitVec.ofNat 8 (4 * (tcpDoff th).toNat + 236) := by
  apply eq_of_toNat_eq
  rw [BitVec.toNat_setWidth, BitVec.toNat_sub, BitVec.toNat_shiftLeft, BitVec.toNat_setWidth, toNat_ofNat, toNat_ofNat, sizeofTcpHeader]
  omega

/-- **Option parsing is confined exactly when the data offset covers the fixed header**: the parser keeps to
the option area of the segments with an offset of at least 5 words, and of no others. -/
theorem tcpOptionsParse_inside_iff (b : RxSegment) (adv : Nat × Int)
    (_ : tcpInputLookupBuffer b = some adv) (opts : TcpOptions) (isSyn : Bool) :
    ParsesInside b opts isSyn ↔ 5 ≤ (tcpDoff b.th).toNat := by
  unfold ParsesInside tcpOptionsParse
  rw [toNat_optsLen]
  constructor
  · -- below 5 the length wraps to something positive, and the first byte is already outside
    intro h
    by_contra hlt
    have hne : BitVec.ofNat 8 (4 * (tcpDoff b.th).toNat + 236) ≠ 0#8 := by
      intro h0
      have := congrArg BitVec.toNat h0
      rw [toNat_ofNat, toNat_ofNat] at this
      omega
    have hmem := h.1 _ (mem_touched_parseLoop hne)
    unfold Area sizeofTcpHeader at hmem
    omega
  · intro hge
    refine parseLoop_stays _ sizeofTcpHeader _ (Nat.le_refl _) ?_
    rw [toNat_ofNat, sizeofTcpHeader]
    omega

def TcpOptions.none : TcpOptions := ⟨[], 0#32, 0#32, 0#16, 0#8, 0#8, 0#8⟩

/-- An IPv4 segment of 60 bytes with data offset `doff` and the bytes `bytes`. -/
def segmentWithOffset (doff : BitVec 8) (bytes : Nat → BitVec 8) : RxSegment where
  isIp4 := true
  currentLength := 60#16
  ip4HeaderBytes := 20
  ipLength := 60#16
  th := ⟨doff <<< 4, 0x10#8⟩
  bytes := bytes

/-- A segment with twelve bytes of options is parsed inside them. -/
theorem tcpOptionsParse_inside_iff_eight :
    tcpInputLookupBuffer (segmentWithOffset 8#8 fun _ => 1#8) = some (52, 8) ∧
      ParsesInside (segmentWithOffset 8#8 fun _ => 1#8) TcpOptions.none false := by
  have h : tcpInputLookupBuffer (segmentWithOffset 8#8 fun _ => 1#8) = some (52, 8) := by decide
  exact ⟨h, (tcpOptionsParse_inside_iff _ (52, 8) h _ _).mpr (by decide)⟩

/-- With a data offset of 4 words the segment passes the length checks, and the parser starts past the end of
the header. -/
theorem options_read_past_header :
    tcpInputLookupBuffer (segmentWithOffset 4#8 fun _ => 1#8) = some (36, 24) ∧
      ¬ ParsesInside (segmentWithOffset 4#8 fun _ => 1#8) TcpOptions.none false := by
  refine ⟨by decide, fun h => ?_⟩
  have hmem := h.1 _ (mem_touched_parseLoop (by decide))
  exact absurd hmem.2 (by decide)

end Vpp.Tcp
