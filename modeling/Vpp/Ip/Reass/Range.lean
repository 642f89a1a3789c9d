import Vpp.Lib.Word
import Vpp.Lib.Spans

/-!
# Fragments kept by full reassembly

The reassembly opaque of a kept fragment buffer (`ip.reass` in `vnet/buffer.h`), the reassembly
context shared in shape by `ip4_full_reass_t` and `ip6_full_reass_t`, and the two chain operations.
The chain of kept ranges, linked through `next_range_bi` in the source, is a list here: `first_bi`
is its head, and `~0` is the empty list.
-/

namespace Vpp.Ip.Reass

open Vpp.Lib List

/-- The `ip.reass` opaque of a buffer: the octets of the fragment, and those of them that the reassembly
keeps, in 16 bit fields. -/
structure Buf where
  fragmentFirst : Nat
  fragmentLast : Nat
  rangeFirst : Nat
  rangeLast : Nat
deriving DecidableEq, Repr

def Buf.dataOffset (b : Buf) : Nat := subW 32 b.rangeFirst b.fragmentFirst

/-- `get_data_len`, a `u16`. -/
def Buf.dataLen (b : Buf) : Nat :=
  wrap 16 (addW 32 (subW 32 (min b.rangeLast b.fragmentLast)
    (addW 32 b.fragmentFirst b.dataOffset)) 1)

/-- The sanity check made on every chain operation of the IPv4 code. -/
def Buf.insane (b : Buf) : Bool :=
  !decide (b.rangeFirst ≥ b.fragmentFirst) && !decide (b.rangeLast > b.fragmentFirst)

/-- Return codes of the two update functions; `ok` is carried by `Update`. -/
inductive Rc
  | internalError
  | tooManyFragments
  | invalidFragLen
  | overlap
deriving DecidableEq, Repr

/-- `~0` as a `u32`. -/
def unset : Nat := 2 ^ 32 - 1

/-- A reassembly context. `lastPacketOctet` is `~0` until the last fragment arrives. -/
structure Context where
  ranges : List Buf
  lastPacketOctet : Nat
  dataLen : Nat
  fragmentsN : Nat
deriving DecidableEq, Repr

/-- A context as `find_or_create` sets it up. -/
def Context.init : Context := ⟨[], unset, 0, 0⟩

/-- The chain, `data_len` and `consumed` when the candidate loop of an update is left. -/
abbrev Walked := List Buf × Nat × Bool

/-- `insert_range_in_chain` between `pre` and `post`. -/
def insertRangeInChain (b : Buf) (pre post : List Buf) (dataLen : Nat) : Walked :=
  (pre ++ b :: post, addW 32 dataLen b.dataLen, true)

/-- The candidate stays in front of what the rest of the loop makes of the chain. -/
def behind (c : Buf) (w : Except Rc Walked) : Except Rc Walked :=
  w.map fun (l, n, consumed) => (c :: l, n, consumed)

/-- The last octet of the packet once a fragment up to `last` has been looked at. -/
def lastInForce (r : Context) (last : Nat) (more : Bool) : Nat :=
  if more then r.lastPacketOctet else last

/-- What an update did with the fragment and the context. -/
inductive Update
  /-- The fragment was kept and the reassembly goes on. -/
  | kept (r : Context)
  /-- The fragment was dropped as a duplicate and the reassembly goes on. -/
  | duplicate (r : Context)
  /-- `finalize` was called on this context, which is freed after it. -/
  | finalize (r : Context)
  /-- The fragments and the context were dropped. -/
  | failed (rc : Rc)
deriving DecidableEq, Repr

def Context.complete (r : Context) : Bool :=
  decide (r.lastPacketOctet ≠ unset) && r.dataLen == addW 32 r.lastPacketOctet 1

def Buf.stop (b : Buf) : Nat := b.rangeLast + 1

def octets (l : List Buf) : List Nat := points Buf.rangeFirst Buf.stop l

/-- **Full coverage**: the kept ranges hold every octet up to the last one of the packet exactly
once, and no octet beyond it. -/
def Context.Covers (r : Context) : Prop :=
  ∀ x, (octets r.ranges).count x = if x ≤ r.lastPacketOctet then 1 else 0

/-! ## Well-formed buffers -/

/-- A kept buffer: its range is a non-empty final part of its fragment, below the packet limit. -/
structure Buf.Wf (b : Buf) : Prop where
  first_le : b.fragmentFirst ≤ b.rangeFirst
  le_last : b.rangeFirst ≤ b.rangeLast
  last_eq : b.rangeLast = b.fragmentLast
  last_lt : b.rangeLast < 65535

variable {b : Buf} {l : List Buf} {cs : List Buf} {k n : Nat} {r : Context} {first last : Nat}
  {more : Bool}

theorem Buf.Wf.dataOffset_eq (h : b.Wf) : b.dataOffset = b.rangeFirst - b.fragmentFirst := by
  have := h.le_last
  have := h.last_lt
  exact subW_of_le h.first_le (by omega)

theorem Buf.Wf.dataLen_eq (h : b.Wf) : b.dataLen = b.stop - b.rangeFirst := by
  have h1 := h.first_le
  have h2 := h.le_last
  have h3 := h.last_lt
  unfold Buf.dataLen Buf.stop
  have hf : addW 32 b.fragmentFirst b.dataOffset = b.rangeFirst := by
    rw [h.dataOffset_eq, addW_of_lt (by omega)]
    omega
  rw [hf, ← h.last_eq, min_self, subW_of_le h2 (by omega)]
  unfold addW wrap
  omega

theorem Buf.Wf.not_insane (h : b.Wf) : b.insane = false := by
  simp [Buf.insane, h.first_le]

theorem Buf.Wf.pos (h : b.Wf) : b.rangeFirst < b.stop :=
  Nat.lt_succ_of_le h.le_last

/-- A chain of kept ranges: well-formed, in order, without overlap. -/
structure Chain (l : List Buf) : Prop where
  wf : ∀ b ∈ l, b.Wf
  spans : Spans Buf.rangeFirst Buf.stop l

def kept (l : List Buf) : Nat := size Buf.rangeFirst Buf.stop l

def Holds (l : List Buf) (x : Nat) : Prop := Covered Buf.rangeFirst Buf.stop l x

@[simp] theorem chain_nil : Chain [] := ⟨(fun _ h => nomatch h), spans_nil⟩

@[simp] theorem kept_nil : kept [] = 0 := rfl

@[simp] theorem holds_nil (x : Nat) : ¬ Holds [] x := covered_nil x

@[simp] theorem holds_cons (x : Nat) :
    Holds (b :: l) x ↔ (b.rangeFirst ≤ x ∧ x ≤ b.rangeLast) ∨ Holds l x := by
  simp only [Holds, covered_cons, Buf.stop, Nat.lt_succ_iff]

theorem kept_cons (h : b.Wf) (l : List Buf) : kept (b :: l) = b.dataLen + kept l := by
  simp [kept, h.dataLen_eq]

theorem Chain.tail (h : Chain (b :: l)) : Chain l :=
  ⟨fun c hc => h.wf c (mem_cons_of_mem _ hc), h.spans.tail⟩

theorem Chain.head (h : Chain (b :: l)) : b.Wf :=
  h.wf b mem_cons_self

variable {x : Nat}

theorem Chain.lt_of_holds (h : Chain (b :: l)) (hx : Holds l x) : b.rangeLast < x :=
  h.spans.hi_le_of_covered hx

theorem Chain.cons (h : Chain l) (hb : b.Wf)
    (hlt : ∀ x, Holds l x → b.rangeLast < x) : Chain (b :: l) := by
  refine ⟨fun c hc => ?_, h.spans.cons hb.pos hlt⟩
  rcases mem_cons.mp hc with rfl | hc
  · exact hb
  · exact h.wf c hc

theorem Chain.kept_le (h : Chain l) : kept l ≤ 65535 :=
  h.spans.size_le fun b hb => (h.wf b hb).last_lt

/-- **Counting is enough below the last octet.** A chain that keeps `l + 1` octets, none of them
beyond `l`, keeps each of them once. -/
theorem Chain.count_octets (h : Chain l) (hle : ∀ b ∈ l, b.rangeLast ≤ last) (hk : kept l = last + 1) :
    (octets l).count x = if x ≤ last then 1 else 0 := by
  have hp := h.spans.points_perm_range (fun b hb => Nat.succ_le_succ (hle b hb)) hk
  rw [octets, hp.count_eq, count_range]
  simp only [Nat.lt_succ_iff]

/-! ## Placing a fragment -/

/-- What a candidate loop makes of the chain `cs`: a chain that holds what `cs` and the octets from `lo` to
`last` hold, the length counter moved by as much. -/
structure Placed (cs : List Buf) (lo last k : Nat) (w : Walked) : Prop where
  chain : Chain w.1
  len : w.2.1 = k + kept w.1
  holds : ∀ x, Holds w.1 x ↔ Holds cs x ∨ (lo ≤ x ∧ x ≤ last)

/-- The loop is left without an error, with the fragment placed. -/
def Places (cs : List Buf) (lo last k : Nat) (e : Except Rc Walked) : Prop :=
  ∃ w, e = .ok w ∧ Placed cs lo last k w

theorem insertRangeInChain_eq (hb : b.Wf) (pre post : List Buf) (hn : n ≤ 65535) :
    insertRangeInChain b pre post n = (pre ++ b :: post, n + b.dataLen, true) := by
  have h1 := hb.dataLen_eq
  have h2 := hb.last_lt
  unfold Buf.stop at h1
  rw [insertRangeInChain, addW_of_lt (by omega)]

theorem Places.behind {c : Buf} {lo : Nat} {e : Except Rc Walked} (hc : Chain (c :: cs))
    (hlo : c.rangeLast < lo) (h : Places cs lo last (k + c.dataLen) e) :
    Places (c :: cs) lo last k (behind c e) := by
  obtain ⟨⟨l, n, consumed⟩, rfl, hp⟩ := h
  refine ⟨(c :: l, n, consumed), rfl, ?_, ?_, ?_⟩
  · refine hp.chain.cons hc.head fun x hx => ?_
    rcases (hp.holds x).mp hx with hx | hx
    · exact hc.lt_of_holds hx
    · omega
  · have := hp.len
    simp only [kept_cons hc.head] at this ⊢
    omega
  · intro x
    simp only [holds_cons, hp.holds x]
    tauto

theorem placed_front (hb : b.Wf) (hc : Chain cs)
    (hlt : ∀ x, Holds cs x → b.rangeLast < x) (hn : n = k + kept cs) (hn' : n ≤ 65535) :
    Placed cs b.rangeFirst b.rangeLast k (insertRangeInChain b [] cs n) := by
  rw [insertRangeInChain_eq hb [] cs hn']
  refine ⟨hc.cons hb hlt, ?_, fun x => ?_⟩
  · simp only [nil_append, kept_cons hb]
    omega
  · simp only [nil_append, holds_cons]
    tauto

theorem placed_end {c : Buf} (hb : b.Wf) (hc : c.Wf) (hlt : c.rangeLast < b.rangeFirst)
    (hn : n = k + kept [c]) (hn' : n ≤ 65535) :
    Placed [c] b.rangeFirst b.rangeLast k (insertRangeInChain b [c] [] n) := by
  have hch : Chain [b] := chain_nil.cons hb (fun x hx => absurd hx (holds_nil x))
  rw [insertRangeInChain_eq hb [c] [] hn']
  refine ⟨hch.cons hc fun x hx => ?_, ?_, fun x => ?_⟩
  · simp only [holds_cons, holds_nil, or_false] at hx
    omega
  · simp only [cons_append, nil_append, kept_cons hc, kept_cons hb] at hn ⊢
    omega
  · simp only [cons_append, nil_append, holds_cons, holds_nil, or_false]

/-! ## The context -/

/-- The invariant of a context: the kept ranges are a chain of `dataLen` octets. -/
structure Context.Inv (r : Context) : Prop where
  chain : Chain r.ranges
  len : r.dataLen = kept r.ranges
  last_le : r.lastPacketOctet ≤ unset

/-- No kept range reaches beyond the last octet of the packet, once that is known. -/
def Context.Within (r : Context) : Prop :=
  r.lastPacketOctet ≠ unset → ∀ b ∈ r.ranges, b.rangeLast ≤ r.lastPacketOctet

/-- The fragment keeps the context within the packet: neither it nor a range kept so far reaches
beyond the last octet that is in force with it. -/
def InBounds (r : Context) (last : Nat) (more : Bool) : Prop :=
  lastInForce r last more ≠ unset →
    last ≤ lastInForce r last more ∧ ∀ b ∈ r.ranges, b.rangeLast ≤ lastInForce r last more

instance (r : Context) (last : Nat) (more : Bool) : Decidable (InBounds r last more) :=
  inferInstanceAs (Decidable (_ → _))

theorem Context.inv_init : Context.init.Inv := ⟨chain_nil, rfl, le_refl _⟩

/-- The context `r'` is `r` with the octets from `first` to `last` added. -/
structure Context.Adds (r : Context) (first last : Nat) (more : Bool) (r' : Context) : Prop where
  inv : r'.Inv
  last_eq : r'.lastPacketOctet = lastInForce r last more
  holds : ∀ x, Holds r'.ranges x ↔ Holds r.ranges x ∨ (first ≤ x ∧ x ≤ last)

theorem Context.Adds.of_placed {w : Walked} {m : Nat}
    (hr : r.Inv) (hlast : last < 65535) (hp : Placed r.ranges first last 0 w) :
    r.Adds first last more ⟨w.1, lastInForce r last more, w.2.1, m⟩ := by
  refine ⟨⟨hp.chain, by simpa using hp.len, ?_⟩, rfl, hp.holds⟩
  cases more
  · exact (le_of_lt hlast).trans (by decide)
  · exact hr.last_le

theorem Context.Inv.placed_first (hr : r.Inv) (hnil : r.ranges = []) (hb : b.Wf) :
    Placed r.ranges b.rangeFirst b.rangeLast 0 (insertRangeInChain b [] [] r.dataLen) := by
  have hlen : r.dataLen = 0 + kept [] := by rw [hr.len, hnil, Nat.zero_add]
  rw [hnil]
  exact placed_front hb chain_nil (fun x hx => absurd hx (holds_nil x)) hlen
    (by rw [hlen, kept_nil]; omega)

theorem Context.Adds.within {r' : Context} (h : r.Adds first last more r') (hin : InBounds r last more) :
    r'.Within := by
  intro hl b hb
  rw [h.last_eq] at hl ⊢
  have hh : Holds r'.ranges b.rangeLast :=
    ⟨b, hb, (h.inv.chain.wf b hb).le_last, Nat.lt_succ_self _⟩
  obtain ⟨hlast, hall⟩ := hin hl
  rcases (h.holds _).mp hh with ⟨c, hc, -, hlt⟩ | hx
  · exact (Nat.le_of_lt_succ hlt).trans (hall c hc)
  · exact hx.2.trans hlast

/-- **A complete context covers the packet exactly when it stays within it.** -/
theorem Context.Inv.covers_iff (h : r.Inv) (hc : r.complete = true) : r.Covers ↔ r.Within := by
  simp only [complete, Bool.and_eq_true, decide_eq_true_eq, beq_iff_eq] at hc
  obtain ⟨hl, hd⟩ := hc
  have hlen := h.len
  have hsum : addW 32 r.lastPacketOctet 1 = r.lastPacketOctet + 1 := by
    have := h.last_le
    unfold unset at this hl
    exact addW_of_lt (by omega)
  constructor
  · intro hcov _ b hb
    have hmem : b.rangeLast ∈ octets r.ranges :=
      (mem_points _).mpr ⟨b, hb, (h.chain.wf b hb).le_last, Nat.lt_succ_self _⟩
    have hpos := count_pos_iff.mpr hmem
    rw [hcov b.rangeLast] at hpos
    split at hpos
    · assumption
    · omega
  · intro hw x
    exact h.chain.count_octets (hw hl) (by omega)

/-- The contexts an update may leave behind or hand to `finalize`. -/
def Update.Spec (r : Context) (first last : Nat) (more : Bool) : Update → Prop
  | .kept r' | .duplicate r' => r.Adds first last more r'
  | .finalize r' => r.Adds first last more r' ∧ r'.complete = true
  | .failed _ => True

end Vpp.Ip.Reass
