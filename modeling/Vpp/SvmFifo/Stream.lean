import Vpp.SvmFifo.Ops

/-!
# The byte stream behind a fifo

A fifo carries one stream of bytes. Seen from outside there are the positions of head and tail,
which never wrap, and the byte last written at each position. `Stream.Step` says what an operation
may do to it. `Rep` ties a fifo to its stream: where the chunks lie, what the chunk pointers, the
out-of-order segments and the lookup trees stand for, and that the memory holds what was written.
Growing the chunk list keeps the tie.
-/

namespace Vpp.SvmFifo

open Lib Lib.Blocks List
open Chunk (len)

/-- The stream: head and tail as positions, and the byte last written at each position. -/
structure Stream where
  head : Nat
  tail : Nat
  written : Nat → Option UInt8

namespace Stream

def empty : Stream := ⟨0, 0, fun _ => none⟩

/-- Write `n` bytes of `src` at position `p`. -/
def write (s : Stream) (p n : Nat) (src : Nat → UInt8) : Nat → Option UInt8 :=
  fun q => if p ≤ q ∧ q < p + n then some (src (q - p)) else s.written q

variable {s : Stream} {p n q : Nat} {src : Nat → UInt8}

theorem write_of_mem (h₁ : p ≤ q) (h₂ : q < p + n) : s.write p n src q = some (src (q - p)) :=
  if_pos ⟨h₁, h₂⟩

theorem write_of_notMem (h : q < p ∨ p + n ≤ q) : s.write p n src q = s.written q :=
  if_neg (by omega)

theorem write_ne_none : s.write p n src q ≠ none ↔ s.written q ≠ none ∨ (p ≤ q ∧ q < p + n) := by
  unfold write
  split
  · rename_i h
    simp [h]
  · rename_i h
    simp [h]

/-- How much a fifo of `size` bytes still takes. -/
def free (s : Stream) (size : Nat) : Nat := s.head + size - s.tail

def cursize (s : Stream) : Nat := s.tail - s.head

/-- The bytes written at the `n` positions from `p` on. -/
def peeked (s : Stream) (p n : Nat) : List (Option UInt8) :=
  (List.range n).map fun i => s.written (p + i)

end Stream

def gather : List Fifo.FifoSeg → Nat → UInt8
  | [], _ => 0
  | s :: segs, i => if i < s.len.toNat then s.data i else gather segs (i - s.len.toNat)

def gatherLen (segs : List Fifo.FifoSeg) : Nat := total (fun s => s.len.toNat) segs

namespace Stream

/-- **Appending.** `n` bytes are written at the tail, which moves past them to the first position not written;
the answer is how far it moved. -/
structure Append (s : Stream) (n : Nat) (src : Nat → UInt8) (ret : Int) (s' : Stream) : Prop where
  head : s'.head = s.head
  written : s'.written = s.write s.tail n src
  tail : s.tail + n ≤ s'.tail
  passed : ∀ p, p < s'.tail → s'.written p ≠ none
  stops : s'.written s'.tail = none
  ret : ret = ((s'.tail - s.tail : Nat) : Int)

def MayRefuse (s : Stream) (size : Nat) : Op → Prop
  | .enqueue answer _ _ => s.free size = 0 ∨ answer = none
  | .enqueueSegments answer segs allowPartial =>
    s.free size = 0 ∨ answer = none ∨ (allowPartial = false ∧ s.free size < gatherLen segs)
  | .enqueueWithOffset answer offset len _ =>
    s.free size < offset.toNat + len.toNat ∨ answer = none
  | .dequeue _ => s.cursize = 0
  | .peek offset _ => s.cursize < offset.toNat
  | .dequeueDrop _ => s.cursize = 0

/-- **What an operation does to the stream** behind a fifo of `size` bytes, and what it answers. How much of
an enqueue is taken is open only without chunks. -/
inductive Step (size : Nat) (s : Stream) : Op → Out → Stream → Prop
  | refused {op ret} (hop : s.MayRefuse size op) (hret : ret < 0) : Step size s op ⟨ret, []⟩ s
  | enqueue {answer len src ret s'} (n : Nat) (hn : n ≤ min len.toNat (s.free size))
      (hall : answer ≠ none → n = min len.toNat (s.free size)) (happ : s.Append n src ret s') :
      Step size s (.enqueue answer len src) ⟨ret, []⟩ s'
  | enqueueSegments {answer segs allowPartial ret s'} (n : Nat)
      (hn : n ≤ min (gatherLen segs) (s.free size))
      (hall : answer ≠ none ∨ allowPartial = false → n = min (gatherLen segs) (s.free size))
      (happ : s.Append n (gather segs) ret s') :
      Step size s (.enqueueSegments answer segs allowPartial) ⟨ret, []⟩ s'
  | enqueueWithOffset {answer offset len src} :
      Step size s (.enqueueWithOffset answer offset len src) ⟨0, []⟩
        { s with written := s.write (s.tail + offset.toNat) len.toNat src }
  | dequeue {len bytes} (n : Nat) (hn : n = min len.toNat s.cursize)
      (hbytes : bytes.map some = s.peeked s.head n) :
      Step size s (.dequeue len) ⟨n, bytes⟩ { s with head := s.head + n }
  | peek {offset len bytes} (n : Nat) (hn : n = min len.toNat (s.cursize - offset.toNat))
      (hbytes : bytes.map some = s.peeked (s.head + offset.toNat) n) :
      Step size s (.peek offset len) ⟨n, bytes⟩ s
  | dequeueDrop {len} (n : Nat) (hn : n = min len.toNat s.cursize) :
      Step size s (.dequeueDrop len) ⟨n, []⟩ { s with head := s.head + n }

end Stream

abbrev byteAt (mem : Memory) (base : Nat) (cs : List Chunk) (p : Nat) : Option UInt8 :=
  read len Chunk.addr mem base cs p

/-- A chunk list over the stream from `base` on, short enough that 32-bit positions can be
compared. -/
structure Layout (base : Nat) (cs : List Chunk) : Prop where
  laid : Laid base cs
  lt : total len cs < 2 ^ 31
  nodup : (cs.map Chunk.addr).Nodup
  ne : cs ≠ []

/-- **The fifo `f` carries the stream `s`.** The first chunk starts at `base`, `l` are the out-of-order
segments, `enq` and `deq` the chunks in the two trees. -/
structure Rep (f : Fifo) (s : Stream) (base : Nat) (l : List (Nat × Span)) (enq deq : List Chunk) :
    Prop where
  layout : Layout base f.chunks
  size_lt : f.size.toNat < 2 ^ 31
  base_le : base ≤ s.head
  head_le : s.head ≤ s.tail
  tail_le : s.tail ≤ base + total len f.chunks
  room : s.tail ≤ s.head + f.size.toNat
  head_eq : f.head = wrap32 s.head
  tail_eq : f.tail = wrap32 s.tail
  headChunk : f.headChunk = none ∨ f.headChunk = ptr base f.chunks s.head
  tailChunk : f.tailChunk = ptr base f.chunks s.tail
  pending : Pending f.ooo s.tail (s.head + f.size.toNat) l
  pending_le : ∀ x ∈ l, x.2.hi ≤ base + total len f.chunks
  oooEnq : f.oooEnq = none ∨ l ≠ [] ∧ ∃ p, s.tail ≤ p ∧ f.oooEnq = ptr base f.chunks p
  oooDeq : f.oooDeq = none ∨ ∃ p, base ≤ p ∧ f.oooDeq = ptr base f.chunks p
  enq_registers : Registers f.oooEnqLookup f.chunks enq
  enq_prefix : enq <+: seek len base f.chunks s.tail
  enq_le : ∀ pre c post, f.chunks = pre ++ c :: post → c ∈ enq →
    ∃ x ∈ l, base + total len pre ≤ x.2.hi
  deq_registers : Registers f.oooDeqLookup f.chunks deq
  deq_prefix : deq <+: f.chunks
  written_lt : ∀ p, p < s.tail → s.written p ≠ none
  written_iff : ∀ p, s.tail ≤ p → (s.written p ≠ none ↔ Occupied l p)
  data : ∀ p b, s.head ≤ p → s.written p = some b → byteAt f.mem base f.chunks p = some b

theorem split_unique {α : Type*} {pre pre' post post' : List α} {a : α}
    (h : pre ++ a :: post = pre' ++ a :: post') (hnd : (pre ++ a :: post).Nodup) :
    pre = pre' ∧ post = post' := by
  obtain ⟨-, hpost, hdis⟩ := nodup_append.mp hnd
  have hpre : a ∉ pre := fun hm => hdis a hm a mem_cons_self rfl
  have hpost : a ∉ post := (nodup_cons.mp hpost).1
  exact ((append_cons_inj_of_notMem hpre hpost).mp h).imp_right And.right

theorem minW_wrap32 {a : Nat} (ha : a < 2 ^ 32) (b : BitVec 32) :
    minW (wrap32 a) b = wrap32 (min b.toNat a) := by
  apply BitVec.eq_of_toNat_eq
  rw [toNat_minW, toNat_wrap32 ha, toNat_wrap32 (by omega), min_comm]

section Layout

variable {base p : Nat} {cs : List Chunk}

theorem fChunkEnd_getLast? (h : Laid base cs) (hne : cs ≠ []) :
    (cs.getLast?.map Chunk.fChunkEnd).getD 0 = wrap32 (base + total len cs) := by
  rcases eq_nil_or_concat cs with rfl | ⟨pre, c, rfl⟩
  · exact absurd rfl hne
  · rw [concat_eq_append] at h ⊢
    have hc := (laid_append.mp h).2.1
    rw [getLast?_concat, Option.map_some, Option.getD_some, fChunkEnd_eq hc, total_concat,
      add_assoc]

theorem fChunkEnd_head? {c : Chunk} (h : Laid base (c :: cs)) :
    (((c :: cs).head?.map Chunk.fChunkEnd).getD 0) = wrap32 (base + c.len) :=
  fChunkEnd_eq h.1

theorem layOut_spec (b : Nat) (cs : List NewChunk) (hpos : ∀ c ∈ cs, 0 < c.2.toNat) :
    Laid b (layOut (wrap32 b) cs) ∧ (layOut (wrap32 b) cs).map Chunk.addr = cs.map Prod.fst ∧
      total len (layOut (wrap32 b) cs) = (cs.map fun c => c.2.toNat).sum := by
  induction cs generalizing b with
  | nil => exact ⟨trivial, rfl, rfl⟩
  | cons c cs ih =>
    obtain ⟨addr, length⟩ := c
    have hnext : wrap32 b + length = wrap32 (b + length.toNat) := by
      rw [← wrap32_add, wrap32_toNat]
    obtain ⟨h₁, h₂, h₃⟩ := ih (b + length.toNat) fun d hd => hpos d (mem_cons_of_mem _ hd)
    rw [layOut, hnext]
    refine ⟨⟨rfl, hpos (addr, length) mem_cons_self, h₁⟩, ?_, ?_⟩
    · rw [map_cons, h₂]
      rfl
    · rw [total_cons, h₃]
      rfl

end Layout

/-! ## Growing the chunk list -/

/-- What a fifo needs of the chunks it gets for `asked` bytes: enough of them, none empty, none in use, and
not more than positions can tell apart. -/
structure GoodAnswer (chunks : List Chunk) (asked : BitVec 32) (cs : List NewChunk) : Prop where
  ne : cs ≠ []
  pos : ∀ c ∈ cs, 0 < c.2.toNat
  enough : asked.toNat ≤ (cs.map fun c => c.2.toNat).sum
  fresh : (chunks.map Chunk.addr ++ cs.map Prod.fst).Nodup
  lt : total len chunks + (cs.map fun c => c.2.toNat).sum < 2 ^ 31

section Append

variable {base p : Nat} {cs new : List Chunk}

theorem ptr_append_left (h : p < base + total len cs) (hb : base ≤ p) :
    ptr base (cs ++ new) p = ptr base cs p := by
  obtain ⟨pre, c, post, rfl, h₁, h₂⟩ := exists_split hb h
  rw [ptr, ptr, seek_append_left h, seek_split h₁ h₂]
  rfl

theorem ptr_eq_none (h : base + total len cs ≤ p) : ptr base cs p = none := by
  rw [ptr, seek_eq_nil h]
  rfl

theorem ptr_ne_none (hb : base ≤ p) (h : p < base + total len cs) : ptr base cs p ≠ none := by
  obtain ⟨pre, c, post, rfl, h₁, h₂⟩ := exists_split hb h
  rw [ptr, seek_split h₁ h₂]
  exact Option.some_ne_none _

theorem ptr_append_or (hb : base ≤ p) {a : Option Nat} (h : a = ptr base cs p) :
    a = none ∨ a = ptr base (cs ++ new) p := by
  by_cases hp : p < base + total len cs
  · exact .inr (h.trans (ptr_append_left hp hb).symm)
  · exact .inl (h.trans (ptr_eq_none (Nat.le_of_not_lt hp)))

theorem Registers.reset {rt : Lookup} {all run : List Chunk} (h : Registers rt all run)
    (hsub : ∀ c ∈ run, c ∈ all) (hnd : ((all ++ new).map Chunk.addr).Nodup) :
    Registers (rt.reset new) (all ++ new) run := by
  rw [map_append, nodup_append] at hnd
  refine ⟨h.nodes, fun c hc => ?_, h.off⟩
  show (rt.index c.addr && !new.any fun d => decide (d.addr = c.addr)) = true ↔ _
  rw [Bool.and_eq_true, Bool.not_eq_true', any_eq_false]
  rcases mem_append.mp hc with hc | hc
  · rw [h.index c hc]
    refine ⟨fun h => h.1, fun hr => ⟨hr, fun d hd he => ?_⟩⟩
    exact hnd.2.2 _ (mem_map_of_mem hc) _ (mem_map_of_mem hd) (of_decide_eq_true he).symm
  constructor
  · rintro ⟨-, h'⟩
    exact absurd rfl (fun he => h' c hc (decide_eq_true he))
  · intro hr
    exact absurd rfl (hnd.2.2 _ (mem_map_of_mem (hsub c hr)) _ (mem_map_of_mem hc))

end Append

/-! ## Looking a position up -/

/-- What becomes of the run a tree holds when the chunk of `p` is looked up, from the chunks `first` on that
start at `start`. It grows up to the chunk of `e` unless the cached chunk was a `hit` or the run went past `p`
before. -/
structure LookedUp (hit isInit : Bool) (start : Nat) (first : List Chunk) (p e : Nat)
    (run run' : List Chunk) : Prop where
  prefix_first : run' <+: first
  kept : hit = true ∨ ¬ run <+: through len start first p → run' = run
  grown : hit = false → isInit = true → run <+: through len start first p →
    run' = through len start first e

section LookUp

variable {base p q e : Nat} {all front first run : List Chunk} {rt : Lookup} {cached : Option Nat}

theorem ptr_of_includes (hlay : Layout base all) (hq : base ≤ q) (hp : base ≤ p)
    (hpl : p < base + total len all)
    (h : (fCptr all (ptr base all q)).head?.any (·.fChunkIncludesPos (wrap32 p)) = true) :
    ptr base all q = ptr base all p := by
  have hlt := hlay.lt
  rw [fCptr_ptr hlay.nodup] at h
  match heq : seek len base all q with
  | [] =>
    rw [heq] at h
    cases h
  | c :: post =>
    obtain ⟨pre, rfl, h₁, h₂⟩ := exists_of_seek_eq_cons hq heq
    have hc := (laid_append.mp hlay.laid).2.1
    rw [heq] at h
    rw [total_append, total_cons] at hlt hpl
    have h : c.fChunkIncludesPos (wrap32 p) = true := h
    rw [fChunkIncludesPos_eq hc (by omega) (by omega), decide_eq_true_eq] at h
    rw [ptr, ptr, heq, seek_split h.1 h.2]

/-- **Looking up** by the cached chunk, the tree or the list finds the chunk that holds `p`. -/
theorem lookUp_spec (hlay : Layout base all) (hreg : Registers rt all run)
    (hsplit : all = front ++ first) (hrun : run <+: first)
    (hcached : cached = none ∨ ∃ q, base ≤ q ∧ cached = ptr base all q)
    (hp : base + total len front ≤ p) (hpl : p < base + total len all) (hpe : p ≤ e)
    (he : e ≤ base + total len all) :
    ∃ rt' run',
      (if (fCptr all cached).head?.any (·.fChunkIncludesPos (wrap32 p)) then some (rt, cached)
        else fUpdateOoo all first rt cached (wrap32 p) (wrap32 e)) =
        some (rt', ptr base all p) ∧
      rt'.isInit = rt.isInit ∧ Registers rt' all run' ∧
      LookedUp ((fCptr all cached).head?.any (·.fChunkIncludesPos (wrap32 p))) rt.isInit
        (base + total len front) first p e run run' := by
  have hlt := hlay.lt
  cases hhit : (fCptr all cached).head?.any (·.fChunkIncludesPos (wrap32 p)) with
  | true =>
    refine ⟨rt, run, ?_, rfl, hreg, hrun, fun _ => rfl, fun h => nomatch h⟩
    rcases hcached with rfl | ⟨q, hq, rfl⟩
    · cases hhit
    · rw [if_pos rfl, ptr_of_includes hlay hq (by omega) hpl hhit]
  | false =>
    obtain ⟨rest, rfl⟩ := hrun
    have hlaid := (laid_append.mp (hsplit ▸ hlay.laid)).2
    have htotal : total len all =
        total len front + total len (run ++ rest) := by rw [hsplit, total_append]
    obtain ⟨rt', run', hupd, hinit, hreg', hpre, hgrown, hkept⟩ := fUpdateOoo_spec hreg hlay.nodup
      hsplit hlaid (by omega) hp (by omega) hpe (by omega)
    refine ⟨rt', run', ?_, hinit, hreg', hpre, fun h => hkept (h.resolve_left (nomatch ·)),
      fun _ => hgrown⟩
    rw [if_neg (nomatch ·), hupd]
    conv_rhs => rw [hsplit]
    rw [ptr, ptr, seek_append_right hp]

end LookUp

structure Kept (f f' : Fifo) : Prop where
  size : f'.size = f.size
  enqInit : f'.oooEnqLookup.isInit = f.oooEnqLookup.isInit
  deqInit : f'.oooDeqLookup.isInit = f.oooDeqLookup.isInit
  oooDeq : f'.oooDeq = f.oooDeq

theorem Kept.trans {f f' f'' : Fifo} (h : Kept f f') (h' : Kept f' f'') : Kept f f'' :=
  ⟨h'.size.trans h.size, h'.enqInit.trans h.enqInit, h'.deqInit.trans h.deqInit,
    h'.oooDeq.trans h.oooDeq⟩

namespace Rep

variable {f : Fifo} {s : Stream} {base : Nat} {l : List (Nat × Span)} {enq deq : List Chunk}

section

variable (h : Rep f s base l enq deq)
include h

theorem endPos_eq : f.endPos = wrap32 (base + total len f.chunks) :=
  fChunkEnd_getLast? h.layout.laid h.layout.ne

theorem enq_subset : ∀ c ∈ enq, c ∈ f.chunks :=
  fun _ hc => seek_suffix.subset (h.enq_prefix.subset hc)

theorem lt_of_written {p : Nat} (hw : s.written p ≠ none) : p < base + total len f.chunks := by
  by_cases hp : p < s.tail
  · exact hp.trans_le h.tail_le
  · obtain ⟨x, hx, -, hlt⟩ := (h.written_iff p (Nat.le_of_not_lt hp)).mp hw
    exact hlt.trans_le (h.pending_le x hx)

theorem base_le_tail : base ≤ s.tail := h.base_le.trans h.head_le

theorem written_tail : s.written s.tail = none := by
  by_contra hne
  obtain ⟨x, hx, hle, -⟩ := occupied_iff.mp ((h.written_iff s.tail (le_refl _)).mp hne)
  have := h.pending.after x hx
  omega

theorem fFreeCount_eq : f.fFreeCount = wrap32 (s.free f.size.toNat) := by
  have hroom := h.room
  have hhead := h.head_le
  rw [Fifo.fFreeCount, fCursize, h.head_eq, h.tail_eq, wrap32_sub hhead, ← wrap32_toNat f.size,
    wrap32_sub (by omega), wrap32_toNat, Stream.free]
  congr 1
  omega

theorem free_lt : s.free f.size.toNat < 2 ^ 31 := by
  have hsize := h.size_lt
  have hhead := h.head_le
  rw [Stream.free]
  omega

/-- **Growing.** Chunks linked in at the end leave the stream as it is. -/
theorem linkChunks {new : List Chunk} (hlaid : Laid (base + total len f.chunks) new)
    (hnd : ((f.chunks ++ new).map Chunk.addr).Nodup) (hlt : total len (f.chunks ++ new) < 2 ^ 31) :
    Rep (f.linkChunks new) s base l enq deq := by
  have hle : base + total len f.chunks ≤ base + total len (f.chunks ++ new) := by
    rw [total_append]
    omega
  exact
    { layout := ⟨laid_append.mpr ⟨h.layout.laid, hlaid⟩, hlt, hnd,
        append_ne_nil_of_left_ne_nil h.layout.ne _⟩
      size_lt := h.size_lt
      base_le := h.base_le
      head_le := h.head_le
      tail_le := h.tail_le.trans hle
      room := h.room
      head_eq := h.head_eq
      tail_eq := h.tail_eq
      headChunk := h.headChunk.elim .inl fun hc => ptr_append_or h.base_le hc
      tailChunk := by
        show (f.tailChunk <|> fCsptr new) = ptr base (f.chunks ++ new) s.tail
        rw [h.tailChunk]
        by_cases hp : s.tail < base + total len f.chunks
        · rw [ptr_append_left hp h.base_le_tail]
          obtain ⟨a, ha⟩ := Option.ne_none_iff_exists'.mp (ptr_ne_none h.base_le_tail hp)
          rw [ha]
          rfl
        · have hp := Nat.le_of_not_lt hp
          have htail := h.tail_le.antisymm hp
          rw [ptr_eq_none hp, ptr, seek_append_right hp]
          cases new with
          | nil => rfl
          | cons c new =>
            have hpos := hlaid.2.1
            rw [seek, if_pos (by omega)]
            rfl
      pending := h.pending
      pending_le := fun x hx => (h.pending_le x hx).trans hle
      oooEnq := by
        rcases h.oooEnq with hn | ⟨hl, p, hp, hc⟩
        · exact .inl hn
        · exact (ptr_append_or (h.base_le_tail.trans hp) hc).imp_right fun hc => ⟨hl, p, hp, hc⟩
      oooDeq := by
        rcases h.oooDeq with hn | ⟨p, hp, hc⟩
        · exact .inl hn
        · exact (ptr_append_or hp hc).imp_right fun hc => ⟨p, hp, hc⟩
      enq_registers := h.enq_registers.reset h.enq_subset hnd
      enq_prefix := by
        by_cases hp : s.tail < base + total len f.chunks
        · show enq <+: seek len base (f.chunks ++ new) s.tail
          rw [seek_append_left hp]
          exact h.enq_prefix.trans (prefix_append _ _)
        · have := h.enq_prefix
          rw [seek_eq_nil (Nat.le_of_not_lt hp), prefix_nil] at this
          rw [this]
          exact nil_prefix
      enq_le := by
        intro pre c post heq hc
        obtain ⟨pre', post', hsplit⟩ := append_of_mem (h.enq_subset c hc)
        have hnd' : (f.chunks ++ new).Nodup := List.Nodup.of_map _ hnd
        have heq' : pre ++ c :: post = pre' ++ c :: (post' ++ new) := by
          rw [← heq]
          show f.chunks ++ new = _
          rw [hsplit]
          simp
        rw [(split_unique heq' (heq ▸ hnd')).1]
        exact h.enq_le pre' c post' hsplit hc
      deq_registers := h.deq_registers.reset (fun c hc => h.deq_prefix.subset hc) hnd
      deq_prefix := h.deq_prefix.trans (prefix_append _ _)
      written_lt := h.written_lt
      written_iff := h.written_iff
      data := fun p b hp hb => by
        have hlt := h.lt_of_written (by rw [hb]; exact Option.some_ne_none _)
        exact (read_append_left (h.base_le.trans hp) hlt).trans (h.data p b hp hb) }

/-- **Growing by what the allocator answers.** -/
theorem alloc {asked : BitVec 32} {cs : List NewChunk} (hcs : GoodAnswer f.chunks asked cs) :
    ∃ f', f.fTryChunkAlloc (some cs) = some f' ∧ Rep f' s base l enq deq ∧ Kept f f' ∧
      f'.oooEnq = f.oooEnq ∧ (f.tailChunk ≠ none → f'.tailChunk = f.tailChunk) ∧
      total len f.chunks + asked.toNat ≤ total len f'.chunks := by
  obtain ⟨hlaid, haddr, htot⟩ := layOut_spec (base + total len f.chunks) cs hcs.pos
  rw [← h.endPos_eq] at hlaid haddr htot
  have htotal : total len (f.chunks ++ layOut f.endPos cs) =
      total len f.chunks + (cs.map fun c => c.2.toNat).sum := by rw [total_append, htot]
  refine ⟨_, rfl, h.linkChunks hlaid ?_ ?_, ⟨rfl, rfl, rfl, rfl⟩, rfl, fun hne => ?_, ?_⟩
  · rw [map_append, haddr]
    exact hcs.fresh
  · rw [htotal]
    exact hcs.lt
  · obtain ⟨a, ha⟩ := Option.ne_none_iff_exists'.mp hne
    show (f.tailChunk <|> _) = f.tailChunk
    rw [ha]
    rfl
  · show _ ≤ total len (f.chunks ++ layOut f.endPos cs)
    rw [htotal]
    exact Nat.add_le_add_left hcs.enough _

end

end Rep

end Vpp.SvmFifo
