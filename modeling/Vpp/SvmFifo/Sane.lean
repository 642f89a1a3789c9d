import Vpp.SvmFifo.Refinement

/-!
# The sanity check

`svm_fifo_is_sane` asks that the head and tail chunks hold head and tail, that the cached chunks are
found again, in the lookup tree if there is one, and that the chunks are contiguous and cover what
is stored. For a fifo that carries a stream all of it holds except perhaps that a cached chunk is in
its tree: the copy routines move the cached pointer on to the next chunk without registering it.
-/

namespace Vpp.SvmFifo

open Lib Lib.Blocks
open List hiding after
open Chunk (len)

namespace Fifo

/-- The test of a chunk pointer that may be null: the chunk holds the position. -/
def holdsPos (f : Fifo) (ptr : Option Nat) (pos : BitVec 32) : Bool :=
  match ptr with
  | none => true
  | some a => (fCptr f.chunks (some a)).head?.any (·.fChunkIncludesPos pos)

/-- The test of `ooo_deq` and `ooo_enq`: looking the start of the cached chunk up gives that
chunk. -/
def isSaneCached (f : Fifo) (rt : Lookup) (first : List Chunk) (cached : Option Nat) : Bool :=
  match cached with
  | none => true
  | some a =>
    match (fCptr f.chunks (some a)).head? with
    | none => false
    | some c =>
      if rt.isInit then
        !(seqLt c.startByte ((f.chunks.head?.map Chunk.startByte).getD 0) ||
            seqGt c.startByte f.endPos) &&
          rt.fFindChunkRbtree f.chunks c.startByte == some a
      else (first.find? (·.fChunkIncludesPos c.startByte)).map Chunk.addr == some a

def isSaneIndex (f : Fifo) (rt : Lookup) (c : Chunk) : Bool :=
  !rt.index c.addr || (rt.fFindChunkRbtree f.chunks c.startByte).all (· == c.addr)

def isSaneChunks (f : Fifo) : Option Chunk → List Chunk → Bool
  | _, [] => true
  | prev, c :: cs =>
    (f.chunks.find? (·.fChunkIncludesPos c.startByte)).map Chunk.addr == some c.addr &&
      prev.all (fun p => p.fChunkEnd == c.startByte) && f.isSaneIndex f.oooEnqLookup c &&
      f.isSaneIndex f.oooDeqLookup c && isSaneChunks f (some c) cs

/-- `svm_fifo_is_sane` -/
def svmFifoIsSane (f : Fifo) : Bool :=
  f.holdsPos f.headChunk f.head && f.holdsPos f.tailChunk f.tail &&
    f.isSaneCached f.oooDeqLookup f.chunks f.oooDeq &&
    f.isSaneCached f.oooEnqLookup (fCptr f.chunks f.tailChunk) f.oooEnq &&
    (if 1 < f.chunks.length then
      isSaneChunks f none f.chunks && !((f.chunks.map Chunk.length).sum < fCursize f.head f.tail)
    else true)

end Fifo

/-! ## What the check comes down to -/

/-- The cached chunk is one of those in the tree, if there is a tree. -/
def CachedIn (run : List Chunk) (isInit : Bool) (cached : Option Nat) : Prop :=
  isInit = true → ∀ a ∈ cached, ∃ c ∈ run, c.addr = a

variable {cached : Option Nat} {rt : Lookup} {f : Fifo} {s : Stream} {base a b : Nat} {l : List (Nat × Span)}
  {all front first run enq deq : List Chunk}

section Find

variable {p : Nat} {pre post : List Chunk} {c : Chunk}

/-- **`f_find_chunk_rbtree`** at the start of a chunk finds it exactly if it is in the tree. -/
theorem fFindChunkRbtree_iff (hlay : Layout base all) (hsplit : all = front ++ first)
    (hreg : Registers rt all run) (hrun : run <+: first) (hinit : rt.isInit = true)
    (hc : first = pre ++ c :: post) :
    rt.fFindChunkRbtree all c.startByte = some c.addr ↔ c ∈ run := by
  have hlt := hlay.lt
  have hlaid := (laid_append.mp (hsplit ▸ hlay.laid)).2
  have hnd : first.Nodup :=
    (nodup_append.mp (hsplit ▸ List.Nodup.of_map _ hlay.nodup)).2.1
  have hmem : ∀ d ∈ first, d ∈ all := fun d hd => hsplit ▸ mem_append_right _ hd
  obtain ⟨start, hstart⟩ : ∃ start, start = base + total len front := ⟨_, rfl⟩
  rw [← hstart] at hlaid
  have hs := hlaid.startByte hc
  have htotal : total len first < 2 ^ 31 := by
    rw [hsplit, total_append] at hlt
    omega
  have hle := total_split len hc
  have hpos : 0 < c.len := hlaid.pos c (by rw [hc]; simp)
  unfold Lookup.fFindChunkRbtree
  rw [if_pos hinit]
  by_cases hnil : run = []
  · subst hnil
    rw [Lookup.fFindNodeRbtree, hreg.nodes]
    constructor <;> rintro ⟨⟩
  obtain ⟨rest, hrest⟩ := hrun
  have hlaidr : Laid start run := (laid_append.mp (hrest ▸ hlaid)).1
  have htotalr : total len run ≤ total len first := by
    rw [← hrest, total_append]
    omega
  obtain ⟨r₁, k, r₂, hr, hfind, h₁, h₂⟩ := fFindNodeRbtree_spec (p := start + total len pre)
    hlaidr (by omega) hnil (by omega) (by omega)
  have hk : k ∈ run := by
    rw [hr]
    simp
  have hkall : k ∈ all := hmem k (hrest ▸ mem_append_left _ hk)
  have hcptr : (fCptr all (some k.addr)).head? = some k := by
    obtain ⟨x, y, hxy⟩ := append_of_mem hkall
    have := fCptr_fCsptr (hxy ▸ hlay.nodup)
    rw [hxy]
    show (fCptr (x ++ k :: y) (fCsptr (k :: y))).head? = some k
    rw [this]
    rfl
  have hfind' : rt.fFindNodeRbtree c.startByte = some (node k) := by
    rw [Lookup.fFindNodeRbtree, hreg.nodes, hs]
    exact hfind
  have hks := hlaidr.startByte hr
  have hkle := total_split len hr
  have hinc : k.fChunkIncludesPos c.startByte = decide (start + total len pre <
      start + total len r₁ + k.len) := by
    rw [hs, fChunkIncludesPos_eq hks (by omega) (by omega)]
    simp [h₁]
  rw [hfind']
  show (Option.bind (fCptr all (some k.addr)).head? fun d =>
    if d.fChunkIncludesPos c.startByte then some d.addr else none) = some c.addr ↔ c ∈ run
  rw [hcptr]
  show (if k.fChunkIncludesPos c.startByte then some k.addr else none) = some c.addr ↔ c ∈ run
  rw [hinc]
  constructor
  · intro h
    split at h
    · have := eq_of_addr_eq hlay.nodup hkall (hmem c (by rw [hc]; simp)) (Option.some.inj h)
      exact this ▸ hk
    · cases h
  · intro hcr
    obtain ⟨x, y, hxy⟩ := append_of_mem hcr
    have heq : x ++ c :: (y ++ rest) = pre ++ c :: post := by
      rw [← hc, ← hrest, hxy]
      simp
    obtain ⟨rfl, -⟩ := split_unique heq (heq ▸ hc ▸ hnd)
    have hin : start + total len x < start + total len r₁ + k.len := by
      rcases h₂ with rfl | h₂
      · have htot := congrArg (total len) (hxy.symm.trans hr)
        rw [total_append, total_cons, total_concat] at htot
        omega
      · exact h₂
    -- both are the chunk of the run that holds the start of `c`
    have hseek : seek len start (r₁ ++ k :: r₂) (start + total len x) = k :: r₂ :=
      seek_split h₁ hin
    rw [← hr, hxy, seek_split (le_refl _) (by omega)] at hseek
    rw [if_pos (decide_eq_true hin), (List.cons.inj hseek).1]

/-- **The test of a cached chunk** asks that it is in the tree, if there is one. -/
theorem isSaneCached_iff {f : Fifo} (hlay : Layout base f.chunks) (hsplit : f.chunks = front ++ first)
    (hreg : Registers rt f.chunks run) (hrun : run <+: first)
    (hcached : cached = none ∨ ∃ q, base + total len front ≤ q ∧ cached = ptr base f.chunks q) :
    f.isSaneCached rt first cached = true ↔ CachedIn run rt.isInit cached := by
  match cached with
  | none => exact ⟨fun _ _ a ha => (nomatch ha), fun _ => rfl⟩
  | some a =>
    have hlt := hlay.lt
    have hlaid := (laid_append.mp (hsplit ▸ hlay.laid)).2
    obtain ⟨q, hq, hptr⟩ := hcached.resolve_left (Option.some_ne_none a)
    have hseek : seek len base f.chunks q = seek len (base + total len front) first q := by
      rw [hsplit, seek_append_right hq]
    obtain ⟨c, post, heq⟩ : ∃ c post, seek len base f.chunks q = c :: post := by
      refine exists_cons_of_ne_nil fun hnil => ?_
      rw [ptr, hnil] at hptr
      cases hptr
    have ha : a = c.addr := by
      rw [ptr, heq] at hptr
      exact Option.some.inj hptr
    obtain ⟨pre, hfirst, h₁, h₂⟩ := exists_of_seek_eq_cons hq (hseek.symm.trans heq)
    have hcptr : fCptr f.chunks (some a) = c :: post := by
      rw [hptr, fCptr_ptr hlay.nodup, heq]
    have hs := hlaid.startByte hfirst
    have hmem : c ∈ f.chunks := by
      rw [hsplit, hfirst]
      simp
    have htotal : total len f.chunks = total len front + total len pre + c.len +
        total len post := by
      rw [hsplit, hfirst, total_append, total_append, total_cons]
      omega
    have hin : CachedIn run rt.isInit (some a) ↔ (rt.isInit = true → c ∈ run) := by
      constructor
      · intro h hinit
        obtain ⟨d, hd, haddr⟩ := h hinit a rfl
        have hdall : d ∈ f.chunks := hsplit ▸ mem_append_right _ (hrun.subset hd)
        exact eq_of_addr_eq hlay.nodup hdall hmem (haddr.trans ha) ▸ hd
      · intro h hinit x hx
        exact ⟨c, h hinit, ha.symm.trans (Option.some.inj hx)⟩
    rw [hin]
    have hbody : f.isSaneCached rt first (some a) = if rt.isInit then
        !(seqLt c.startByte ((f.chunks.head?.map Chunk.startByte).getD 0) ||
            seqGt c.startByte f.endPos) &&
          rt.fFindChunkRbtree f.chunks c.startByte == some a
        else (first.find? (·.fChunkIncludesPos c.startByte)).map Chunk.addr == some a := by
      simp only [Fifo.isSaneCached, hcptr, head?_cons]
    rw [hbody]
    cases hinit : rt.isInit with
    | false =>
      have hfind : (first.find? (·.fChunkIncludesPos c.startByte)) = some c := by
        rw [hs, find?_includesPos hlaid (by omega) (by omega) (by
          rw [hsplit, total_append] at hlt
          omega), hfirst, seek_split (le_refl _) (by omega)]
        rfl
      rw [hfind, ha]
      simp
    | true =>
      obtain ⟨d, ds, hds⟩ := exists_cons_of_ne_nil hlay.ne
      have hd : d.startByte = wrap32 base := (hds ▸ hlay.laid).1
      have hbefore : seqLt c.startByte ((f.chunks.head?.map Chunk.startByte).getD 0) = false := by
        rw [hds]
        show seqLt c.startByte d.startByte = false
        rw [hs, hd, seqLt_wrap32 (by omega) (by omega)]
        exact decide_eq_false (by omega)
      have hafter : seqGt c.startByte f.endPos = false := by
        rw [Fifo.endPos, fChunkEnd_getLast? hlay.laid hlay.ne, hs, seqGt_wrap32 (by omega) (by omega)]
        exact decide_eq_false (by omega)
      rw [if_pos rfl, hbefore, hafter, ha]
      simp only [Bool.or_false, Bool.not_false, Bool.true_and, beq_iff_eq, true_implies]
      exact fFindChunkRbtree_iff hlay hsplit hreg hrun hinit hfirst

end Find

theorem sum_length_eq (cs : List Chunk) : (cs.map Chunk.length).sum = wrap32 (total len cs) := by
  induction cs with
  | nil => rfl
  | cons c cs ih => rw [map_cons, sum_cons, ih, total_cons, c.length_eq, wrap32_add]

namespace Rep

section

variable (h : Rep f s base l enq deq)
include h

theorem isSaneIndex {front first run : List Chunk} (hsplit : f.chunks = front ++ first)
    (hreg : Registers rt f.chunks run) (hrun : run <+: first) {c : Chunk} (hc : c ∈ f.chunks) :
    f.isSaneIndex rt c = true := by
  unfold Fifo.isSaneIndex
  cases hidx : rt.index c.addr with
  | false => rfl
  | true =>
    have hmem := (hreg.index c hc).mp hidx
    have hinit : rt.isInit = true := by
      by_contra hoff
      rw [hreg.off (by simpa using hoff)] at hmem
      cases hmem
    obtain ⟨pre, post, hfirst⟩ := append_of_mem (hrun.subset hmem)
    rw [(fFindChunkRbtree_iff h.layout hsplit hreg hrun hinit hfirst).mpr hmem]
    simp

theorem isSaneChunks (pre cs : List Chunk) (prev : Option Chunk)
    (hsplit : f.chunks = pre ++ cs) (hprev : prev = pre.getLast?) :
    f.isSaneChunks prev cs = true := by
  have hlt := h.layout.lt
  obtain ⟨front, hfront, -⟩ := exists_append_seek len f.chunks h.base_le_tail
  induction cs generalizing pre prev with
  | nil => rfl
  | cons c cs ih =>
    have hmem : c ∈ f.chunks := by
      rw [hsplit]
      simp
    have hs := h.layout.laid.startByte hsplit
    have hpos : 0 < c.len := h.layout.laid.pos c hmem
    have htotal := total_split len hsplit
    have hfind : f.chunks.find? (·.fChunkIncludesPos c.startByte) = some c := by
      rw [hs, find?_includesPos h.layout.laid (by omega) (by omega) hlt, hsplit,
        seek_split (le_refl _) (by omega)]
      rfl
    have hcont : prev.all (fun p => p.fChunkEnd == c.startByte) = true := by
      subst hprev
      rcases eq_nil_or_concat pre with rfl | ⟨pre, d, rfl⟩
      · rfl
      rw [concat_eq_append] at hsplit hs ⊢
      rw [append_assoc] at hsplit
      have hd := h.layout.laid.startByte hsplit
      rw [getLast?_concat, Option.all_some, beq_iff_eq, fChunkEnd_eq hd, hs, total_concat,
        add_assoc]
    have hrest := ih (pre ++ [c]) (some c) (by rw [hsplit, append_assoc]; rfl)
      getLast?_concat.symm
    rw [Fifo.isSaneChunks, hfind, hcont, hrest, h.isSaneIndex hfront h.enq_registers h.enq_prefix hmem,
      h.isSaneIndex (nil_append _).symm h.deq_registers h.deq_prefix hmem]
    simp

theorem holdsPos {a : Option Nat} {p : Nat} (hp : base ≤ p) (ha : a = none ∨ a = ptr base f.chunks p) :
    f.holdsPos a (wrap32 p) = true := by
  have hlt := h.layout.lt
  match a with
  | none => rfl
  | some a =>
    have ha := ha.resolve_left (Option.some_ne_none a)
    show (fCptr f.chunks (some a)).head?.any _ = true
    rw [ha, fCptr_ptr h.layout.nodup]
    match heq : seek len base f.chunks p with
    | [] =>
      rw [ptr, heq] at ha
      cases ha
    | c :: post =>
      obtain ⟨pre, hsplit, h₁, h₂⟩ := exists_of_seek_eq_cons hp heq
      have hs := h.layout.laid.startByte hsplit
      have htotal := total_split len hsplit
      show c.fChunkIncludesPos (wrap32 p) = true
      rw [fChunkIncludesPos_eq hs (by omega) (by omega)]
      exact decide_eq_true ⟨h₁, h₂⟩

/-- **Sanity of a fifo that carries a stream** is that the cached chunks are in their trees. -/
theorem isSane_iff :
    f.svmFifoIsSane = true ↔ CachedIn deq f.oooDeqLookup.isInit f.oooDeq ∧
      CachedIn enq f.oooEnqLookup.isInit f.oooEnq := by
  have hlt := h.layout.lt
  have htail := h.tail_le
  have hbase := h.base_le
  obtain ⟨front, hfront, hstart⟩ := exists_append_seek len f.chunks h.base_le_tail
  have hdeq := isSaneCached_iff h.layout (nil_append _).symm h.deq_registers
    h.deq_prefix h.oooDeq
  have henq := isSaneCached_iff h.layout hfront h.enq_registers h.enq_prefix
    (h.oooEnq.imp_right fun ⟨_, q, hq, hptr⟩ => ⟨q, hstart.trans hq, hptr⟩)
  have hchunks := h.isSaneChunks [] f.chunks none rfl rfl
  have hbytes : ¬ (f.chunks.map Chunk.length).sum < fCursize f.head f.tail := by
    rw [sum_length_eq, h.cursize_eq, wrap32_lt (by omega) (by rw [Stream.cursize]; omega),
      Stream.cursize]
    omega
  unfold Fifo.svmFifoIsSane
  rw [h.head_eq, h.tail_eq, h.holdsPos h.base_le h.headChunk,
    h.holdsPos h.base_le_tail (.inr h.tailChunk), hchunks, h.tailChunk, fCptr_ptr h.layout.nodup]
  rw [h.head_eq, h.tail_eq] at hbytes
  simp only [Bool.true_and, decide_eq_false hbytes, Bool.not_false, ite_self, Bool.and_true,
    Bool.and_eq_true, hdeq, henq]

end

end Rep

/-! ## What the operations do to the cached chunks -/

section LookUp

variable {run' : List Chunk} {hit : Bool}

theorem eq_of_includes (hlay : Layout base all) {c d : Chunk} {pre post : List Chunk}
    (hsplit : all = pre ++ c :: post) (h₁ : base + total len pre ≤ b)
    (h₂ : b < base + total len pre + c.len) (hd : d ∈ all)
    (hinc : d.fChunkIncludesPos (wrap32 b) = true) : d = c := by
  have hlt := hlay.lt
  obtain ⟨x, y, hxy⟩ := append_of_mem hd
  have hs := hlay.laid.startByte hxy
  have htotal := total_split len hxy
  have htotal' := total_split len hsplit
  rw [fChunkIncludesPos_eq hs (by omega) (by omega), decide_eq_true_eq] at hinc
  have hseek : seek len base (x ++ d :: y) b = d :: y := seek_split hinc.1 hinc.2
  rw [← hxy, hsplit, seek_split h₁ h₂] at hseek
  exact (List.cons.inj hseek).1.symm

theorem prefix_through_iff (hlay : Layout base all) (hsplit : all = front ++ first)
    (hrun : run <+: first) (ha : base + total len front ≤ a) (hal : a < base + total len all) :
    run <+: through len (base + total len front) first a ↔
      ∀ c ∈ run, seqLt (wrap32 a) c.startByte = false := by
  have hlt := hlay.lt
  have hlaid := (laid_append.mp (hsplit ▸ hlay.laid)).2
  have htotal : total len all = total len front + total len first := by
    rw [hsplit, total_append]
  obtain ⟨start, hstart⟩ : ∃ start, start = base + total len front := ⟨_, rfl⟩
  rw [← hstart] at ha hlaid ⊢
  have hcmp : ∀ pre c post, first = pre ++ c :: post →
      (seqLt (wrap32 a) c.startByte = false ↔ start + total len pre ≤ a) := by
    intro pre c post hc
    have hle := total_split len hc
    have hs := hlaid.startByte hc
    rw [hs, seqLt_wrap32 (by omega) (by omega), decide_eq_false_iff_not, not_lt]
  constructor
  · intro hpre c hc
    obtain ⟨x, y, hxy⟩ := append_of_mem (hpre.subset hc)
    obtain ⟨rest, hrest⟩ : through len start first a <+: first := through_prefix
    refine (hcmp x c (y ++ rest) ?_).mpr (le_of_through_eq ha hxy)
    rw [← hrest, hxy]
    simp
  · intro hle
    have hthrough : through len start first a <+: first := through_prefix
    rcases prefix_or_prefix_of_prefix hrun hthrough with h | ⟨r, hr⟩
    · exact h
    -- a chunk of the run after the one that holds `a` starts after it
    have hlt' : a < start + total len first := by omega
    obtain ⟨pre, c, post, hfirst, h₁, h₂⟩ := exists_split ha hlt'
    rw [hfirst, through_split h₁ h₂] at hr ⊢
    cases r with
    | nil =>
      rw [append_nil] at hr
      exact hr ▸ prefix_rfl
    | cons d r =>
      obtain ⟨rest, hrest⟩ := hrun
      have hd : first = (pre ++ [c]) ++ d :: (r ++ rest) := by
        rw [← hrest, ← hr]
        simp
      have := (hcmp _ d _ hd).mp (hle d (by rw [← hr]; simp))
      rw [total_concat] at this
      omega

/-- **Where a look-up and a copy leave the cached pointer.** The chunk that holds the end `b` is in the tree
if there is no such chunk, if it was before, or if the tree was consulted and grew. -/
theorem lookedUp_cachedIn_iff (hlay : Layout base all) (hsplit : all = front ++ first)
    (hrun : run <+: first) (ha : base + total len front ≤ a)
    (hal : a < base + total len all) (hab : a ≤ b) (hb : b ≤ base + total len all)
    (hup : LookedUp hit true (base + total len front) first a b run run') :
    CachedIn run' true (ptr base all b) ↔ b = base + total len all ∨
      (∃ c ∈ run, c.fChunkIncludesPos (wrap32 b) = true) ∨
      (hit = false ∧ ∀ c ∈ run, seqLt (wrap32 a) c.startByte = false) := by
  have hlt := hlay.lt
  rw [← prefix_through_iff hlay hsplit hrun ha hal]
  by_cases hend : b = base + total len all
  · rw [ptr_eq_none (le_of_eq hend.symm)]
    exact ⟨fun _ => .inl hend, fun _ _ x hx => nomatch hx⟩
  have hfirst : ∀ c ∈ first, c ∈ all := fun c hc => hsplit ▸ mem_append_right _ hc
  have hsplit' : total len all = total len front + total len first := by
    rw [hsplit, total_append]
  have hlt' : b < base + total len front + total len first := by omega
  obtain ⟨pre, c, post, hc, h₁, h₂⟩ := exists_split (ha.trans hab) hlt'
  have hc' : all = (front ++ pre) ++ c :: post := by
    rw [hsplit, hc, append_assoc]
  have h₁' : base + total len (front ++ pre) ≤ b := by
    rw [total_append]
    omega
  have h₂' : b < base + total len (front ++ pre) + c.len := by
    rw [total_append]
    omega
  have hptr : ptr base all b = some c.addr := by
    rw [ptr, hc', seek_split h₁' h₂']
    rfl
  have hin : CachedIn run' true (ptr base all b) ↔ c ∈ run' := by
    rw [hptr]
    constructor
    · intro h
      obtain ⟨d, hd, haddr⟩ := h rfl c.addr rfl
      have hdall := hfirst d (hup.prefix_first.subset hd)
      exact eq_of_addr_eq hlay.nodup hdall (hfirst c (by rw [hc]; simp)) haddr ▸ hd
    · intro h _ x hx
      exact ⟨c, h, Option.some.inj hx⟩
  have hold : (∃ d ∈ run, d.fChunkIncludesPos (wrap32 b) = true) ↔ c ∈ run := by
    constructor
    · rintro ⟨d, hd, hinc⟩
      exact eq_of_includes hlay hc' h₁' h₂' (hfirst d (hrun.subset hd)) hinc ▸ hd
    intro h
    refine ⟨c, h, ?_⟩
    have hle := total_split len hc
    have hs := hlay.laid.startByte hc'
    rw [fChunkIncludesPos_eq hs (by omega) (by omega)]
    exact decide_eq_true ⟨h₁', h₂'⟩
  rw [hin, hold]
  by_cases hmiss : hit = false ∧ run <+: through len (base + total len front) first a
  · rw [hup.grown hmiss.1 rfl hmiss.2, hc, through_split h₁ h₂]
    simp [hc ▸ hmiss]
  have hkept : run' = run := hup.kept (by
    cases hit with
    | true => exact .inl rfl
    | false => exact .inr fun h => hmiss ⟨rfl, h⟩)
  rw [hkept]
  simp [hend, hmiss]

end LookUp

/-- When a look-up of `a` and a copy up to `b`, in chunks that end at `stop`, leave a cached chunk in the
tree: there is no tree, no chunk left to point at, the chunk is in the tree already, or the cached chunk did
not hold `a` and no chunk in the tree starts after it. -/
def StaysRegistered (rt : Lookup) (chunks : List Chunk) (cached : Option Nat) (a b stop : BitVec 32) :
    Prop :=
  rt.isInit = false ∨ b = stop ∨
    (∃ c ∈ chunks, rt.index c.addr = true ∧ c.fChunkIncludesPos b = true) ∨
    ((fCptr chunks cached).head?.any (·.fChunkIncludesPos a) = false ∧
      ∀ n ∈ rt.nodes, seqLt a n.key = false)

/-- Where the chunks end once they have grown for a write up to `b`. -/
def Fifo.grownEnd (f : Fifo) (answer : Option (List NewChunk)) (b : BitVec 32) : BitVec 32 :=
  if seqGt b f.endPos then f.endPos + ((answer.getD []).map Prod.snd).sum else f.endPos

/-- The operations that keep a fifo sane: all but those that move a cached pointer on to a chunk
that is not in the tree. -/
def KeepsSane (f : Fifo) : Op → Prop
  | .enqueueWithOffset answer offset len _ =>
    f.Refuses answer offset len ∨
      StaysRegistered f.oooEnqLookup f.chunks f.oooEnq (f.tail + offset) (f.tail + offset + len)
        (f.grownEnd answer (f.tail + offset + len))
  | .peek offset len =>
    StaysRegistered f.oooDeqLookup f.chunks f.oooDeq (f.head + offset)
      (f.head + offset + minW (fCursize f.head f.tail - offset) len) f.endPos
  | _ => True

section Step

variable {f' f₁ : Fifo} {enq' deq' : List Chunk} {answer : Option (List NewChunk)}

theorem registered_iff {all run : List Chunk} {a b : BitVec 32} (hreg : Registers rt all run)
    (hsub : ∀ c ∈ run, c ∈ all) :
    ((∃ c ∈ run, c.fChunkIncludesPos b = true) ↔
      ∃ c ∈ all, rt.index c.addr = true ∧ c.fChunkIncludesPos b = true) ∧
    ((∀ c ∈ run, seqLt a c.startByte = false) ↔ ∀ n ∈ rt.nodes, seqLt a n.key = false) := by
  constructor
  · constructor
    · rintro ⟨c, hc, hinc⟩
      exact ⟨c, hsub c hc, (hreg.index c (hsub c hc)).mpr hc, hinc⟩
    · rintro ⟨c, hc, hidx, hinc⟩
      exact ⟨c, (hreg.index c hc).mp hidx, hinc⟩
  · rw [hreg.nodes]
    constructor
    · intro h n hn
      obtain ⟨c, hc, rfl⟩ := mem_map.mp hn
      exact h c hc
    · intro h c hc
      exact h (node c) (mem_map_of_mem hc)

theorem head?_fCptr_append {all new : List Chunk} (hnd : ((all ++ new).map Chunk.addr).Nodup)
    (hcached : cached = none ∨ ∃ q, base ≤ q ∧ cached = ptr base all q) :
    (fCptr (all ++ new) cached).head? = (fCptr all cached).head? := by
  rcases hcached with rfl | ⟨q, hq, rfl⟩
  · rfl
  have hnd' : (all.map Chunk.addr).Nodup := by
    rw [map_append] at hnd
    exact (nodup_append.mp hnd).1
  rw [fCptr_ptr hnd']
  match heq : seek len base all q with
  | [] =>
    rw [ptr, heq]
    rfl
  | c :: post =>
    obtain ⟨pre, rfl, -, -⟩ := exists_of_seek_eq_cons hq heq
    have happ : (pre ++ c :: post) ++ new = pre ++ c :: (post ++ new) := by simp
    have := fCptr_fCsptr (happ ▸ hnd)
    rw [ptr, heq, happ]
    show (fCptr (pre ++ c :: (post ++ new)) (fCsptr (c :: (post ++ new)))).head? = some c
    rw [this]
    rfl

theorem sum_snd_eq (cs : List NewChunk) :
    (cs.map Prod.snd).sum = wrap32 (cs.map fun c => c.2.toNat).sum := by
  induction cs with
  | nil => rfl
  | cons c cs ih =>
    rw [map_cons, sum_cons, ih, map_cons, sum_cons, ← wrap32_add, wrap32_toNat]

theorem WroteAhead.chunks_eq (h : Rep f s base l enq deq)
    (hw : WroteAhead f f₁ f' s base l enq enq' deq answer a b)
    (hans : ∀ cs ∈ answer, ∀ c ∈ cs, 0 < c.2.toNat) :
    (∃ new, f₁.chunks = f.chunks ++ new) ∧ f₁.endPos = f.grownEnd answer (wrap32 b) := by
  rw [Fifo.grownEnd]
  rcases hw.grown with ⟨hgt, heq⟩ | ⟨hgt, halloc⟩
  · rw [hgt, heq]
    exact ⟨⟨[], (append_nil _).symm⟩, rfl⟩
  rw [hgt]
  cases answer with
  | none => cases halloc
  | some cs =>
    obtain ⟨-, -, htotal⟩ := layOut_spec (base + total len f.chunks) cs (hans cs rfl)
    rw [← h.endPos_eq] at htotal
    obtain rfl := Option.some.inj halloc
    refine ⟨⟨_, rfl⟩, ?_⟩
    rw [hw.rep.endPos_eq, if_pos rfl, Option.getD_some, sum_snd_eq, h.endPos_eq, wrap32_add]
    show wrap32 (base + total len (f.chunks ++ layOut f.endPos cs)) = _
    rw [total_append, htotal, add_assoc]

/-- **Writing ahead** leaves the cached chunk in the tree under the condition. -/
theorem WroteAhead.cachedIn_iff (h : Rep f s base l enq deq)
    (hw : WroteAhead f f₁ f' s base l enq enq' deq answer a b)
    (hans : ∀ cs ∈ answer, ∀ c ∈ cs, 0 < c.2.toNat) (ha : s.tail ≤ a) (hab : a < b) :
    CachedIn enq' f.oooEnqLookup.isInit f'.oooEnq ↔
      StaysRegistered f.oooEnqLookup f.chunks f.oooEnq (wrap32 a) (wrap32 b)
        (f.grownEnd answer (wrap32 b)) := by
  obtain ⟨⟨new, hnew⟩, hend⟩ := hw.chunks_eq h hans
  obtain ⟨front, hfront, hup⟩ := hw.lookedUp
  have hlt := hw.rep.layout.lt
  have hle := hw.le
  have hbase := h.base_le_tail
  have hinit := hw.kept.enqInit
  rw [StaysRegistered]
  cases hi : f.oooEnqLookup.isInit with
  | false => exact ⟨fun _ => .inl rfl, fun _ h => nomatch h⟩
  | true =>
    rw [hinit, hi] at hup
    have hstart : base + total len front ≤ s.tail := by
      obtain ⟨pre, hpre, hle⟩ := exists_append_seek len f₁.chunks hbase
      rwa [append_cancel_right (hfront.symm.trans hpre)]
    have hiff := lookedUp_cachedIn_iff hw.rep.layout hfront hw.rep.enq_prefix (by omega) (by omega)
      (by omega) hle hup
    obtain ⟨hidx, hnodes⟩ := registered_iff h.enq_registers
      h.enq_subset
    have hhit : (fCptr f₁.chunks f₁.oooEnq).head? = (fCptr f.chunks f.oooEnq).head? := by
      rw [hw.cached, hnew]
      exact head?_fCptr_append (hnew ▸ hw.rep.layout.nodup) (h.oooEnq.imp_right
        fun ⟨_, q, hq, hptr⟩ => ⟨q, hbase.trans hq, hptr⟩)
    rw [hw.oooEnq, hiff, hidx, hnodes, hhit, ← hend, hw.rep.endPos_eq, wrap32_inj hle (by omega)]
    simp

theorem cachedIn_none (run : List Chunk) (isInit : Bool) : CachedIn run isInit none :=
  fun _ _ h => nomatch h

/-- **In-order data** keeps a fifo sane. -/
theorem Produced.isSane {op : Op} {result : Option (Fifo × Int)} {ret : Int}
    (h : Rep f s base l enq deq) (hsane : f.svmFifoIsSane = true)
    (hp : Produced f s base enq deq op result) (hres : result = some (f', ret)) :
    f'.svmFifoIsSane = true := by
  obtain ⟨g, r, s', l', enq', hg, -, hrep, hkept, hcached⟩ := hp
  obtain ⟨rfl, -⟩ := Prod.mk.inj (Option.some.inj (hg.symm.trans hres))
  obtain ⟨hdeq, henq⟩ := h.isSane_iff.mp hsane
  refine hrep.isSane_iff.mpr ⟨?_, ?_⟩
  · rw [hkept.oooDeq, hkept.deqInit]
    exact hdeq
  rcases hcached with hnone | ⟨hsame, rfl⟩
  · rw [hnone]
    exact cachedIn_none _ _
  · rw [hsame, hkept.enqInit]
    exact henq

/-- **Consuming** keeps a fifo sane. -/
theorem Drained.isSane {s' : Stream} {base' : Nat} (h : Rep f s base l enq deq)
    (hsane : f.svmFifoIsSane = true) (hd : Drained f f' deq deq')
    (hrep : Rep f' s' base' l enq deq') : f'.svmFifoIsSane = true := by
  obtain ⟨hdeq, henq⟩ := h.isSane_iff.mp hsane
  refine hrep.isSane_iff.mpr ⟨?_, ?_⟩
  · rcases hd.cached with hnone | ⟨hsame, hmem⟩
    · rw [hnone]
      exact cachedIn_none _ _
    · rw [hsame, hd.deqInit]
      intro hinit x hx
      obtain ⟨c, hc, haddr⟩ := hdeq hinit x hx
      exact ⟨c, hmem c hc (haddr ▸ hx), haddr⟩
  · rw [hd.oooEnq, hd.enqInit]
    exact henq

/-- **One operation on a sane fifo** leaves it sane exactly under the condition. -/
theorem isSane_step_iff {op : Op} (h : Carries f s) (hop : Allowed f op)
    (hsane : f.svmFifoIsSane = true) : (step f op).1.svmFifoIsSane = true ↔ KeepsSane f op := by
  obtain ⟨base, l, enq, deq, h⟩ := h
  obtain ⟨hdeq, henq⟩ := h.isSane_iff.mp hsane
  cases op with
  | enqueue answer len src =>
    have hprod := h.svmFifoEnqueue src hop.1 hop.2
    obtain ⟨f', ret, -, -, -, hres, -⟩ := id hprod
    rw [step_of_exec f' ⟨ret, []⟩ (by rw [exec, hres]; rfl)]
    exact iff_of_true (hprod.isSane h hsane hres) trivial
  | enqueueSegments answer segs allowPartial =>
    have hprod := h.svmFifoEnqueueSegments hop.1 hop.2.1 hop.2.2
    obtain ⟨f', ret, -, -, -, hres, -⟩ := id hprod
    rw [step_of_exec f' ⟨ret, []⟩ (by rw [exec, hres]; rfl)]
    exact iff_of_true (hprod.isSane h hsane hres) trivial
  | enqueueWithOffset answer offset len src =>
    obtain ⟨hans, hoffset, hlen, hlt⟩ := hop
    obtain ⟨f', ret, s', l', enq', hres, -, hrep, hkept, hcases⟩ :=
      h.svmFifoEnqueueWithOffset src hans hoffset hlen hlt
    rw [step_of_exec f' ⟨ret, []⟩ (by rw [exec, hres]; rfl), hrep.isSane_iff,
      hkept.oooDeq, hkept.deqInit, hkept.enqInit]
    rcases hcases with ⟨hrefuses, hsame, rfl⟩ | ⟨hfits, f₁, hw⟩
    · rw [hsame]
      exact iff_of_true ⟨hdeq, henq⟩ (.inl hrefuses)
    have hiff := hw.cachedIn_iff h (fun cs hcs => (hans cs hcs).pos) (by omega) (by omega)
    have hpos : wrap32 (s.tail + offset.toNat) = f.tail + offset := by
      rw [← wrap32_add, wrap32_toNat, h.tail_eq]
    rw [← wrap32_add _ len.toNat, hpos, wrap32_toNat] at hiff
    rw [hiff]
    exact ⟨fun h => .inr h.2, fun h => ⟨hdeq, h.resolve_left hfits⟩⟩
  | dequeue len =>
    have hdeq : deq = [] := map_eq_nil_iff.mp (h.deq_registers.nodes.symm.trans hop)
    subst hdeq
    obtain ⟨f', ret, bytes, s', base', deq', hres, -, hrep, hdr⟩ := h.svmFifoDequeue len
    rw [step_of_exec f' ⟨ret, bytes⟩ (by rw [exec, hres]; rfl)]
    exact iff_of_true (hdr.isSane h hsane hrep) trivial
  | peek offset len =>
    have htail := h.tail_le
    have hlt := h.layout.lt
    have hbase := h.base_le
    have hdef : s.cursize = s.tail - s.head := rfl
    have hoffset : offset.toNat < s.cursize := h.toNat_cursize ▸ hop
    obtain ⟨f', ret, bytes, deq', hres, -, -, -, hrep, -, henq', hlook, -, hinit, hptr, hup⟩ :=
      h.svmFifoPeek len (le_of_lt hoffset) (by omega)
    rw [step_of_exec f' ⟨ret, bytes⟩ (by rw [exec, hres]; rfl), hrep.isSane_iff,
      henq', hlook, hinit, hptr]
    obtain ⟨n, hn⟩ : ∃ n, n = min len.toNat (s.cursize - offset.toNat) := ⟨_, rfl⟩
    rw [← hn] at hup ⊢
    have hpos : wrap32 (s.head + offset.toNat) = f.head + offset := by
      rw [← wrap32_add, wrap32_toNat, h.head_eq]
    have hlen : minW (fCursize f.head f.tail - offset) len = wrap32 n := by
      rw [h.cursize_eq, ← wrap32_toNat offset, wrap32_sub (by omega), minW_wrap32 (by omega), hn]
    have hend : f.head + offset + wrap32 n = wrap32 (s.head + offset.toNat + n) := by
      rw [← hpos, wrap32_add]
    show _ ↔ StaysRegistered f.oooDeqLookup f.chunks f.oooDeq (f.head + offset)
      (f.head + offset + minW (fCursize f.head f.tail - offset) len) f.endPos
    rw [hlen, hend, ← hpos, StaysRegistered]
    cases hi : f.oooDeqLookup.isInit with
    | false => exact iff_of_true ⟨(absurd · Bool.false_ne_true), henq⟩ (.inl rfl)
    | true =>
      rw [hi] at hup
      have hiff := lookedUp_cachedIn_iff h.layout (nil_append _).symm h.deq_prefix
        (by rw [total_nil]; omega) (by omega) (by omega) (by omega) hup
      obtain ⟨hidx, hnodes⟩ := registered_iff (a := wrap32 (s.head + offset.toNat))
        (b := wrap32 (s.head + offset.toNat + n)) h.deq_registers
        (fun c hc => h.deq_prefix.subset hc)
      rw [hiff, hidx, hnodes, h.endPos_eq, wrap32_inj (by omega) (by omega)]
      simp [henq]
  | dequeueDrop len =>
    obtain ⟨f', ret, s', base', deq', hres, -, hrep, hdr⟩ := h.svmFifoDequeueDrop len
    rw [step_of_exec f' ⟨ret, []⟩ (by rw [exec, hres]; rfl)]
    exact iff_of_true (hdr.isSane h hsane hrep) trivial

end Step

/-! ## Runs -/

/-- The trees hold chunks of the list, under their start bytes, and the list covers head to tail. -/
structure Covers (f : Fifo) : Prop where
  enq : ∀ n ∈ f.oooEnqLookup.nodes, ∃ c ∈ f.chunks, n = ⟨c.startByte, c.addr⟩
  deq : ∀ n ∈ f.oooDeqLookup.nodes, ∃ c ∈ f.chunks, n = ⟨c.startByte, c.addr⟩
  stored : ∃ base head tail, Laid base f.chunks ∧ f.head = wrap32 head ∧ f.tail = wrap32 tail ∧
    base ≤ head ∧ head ≤ tail ∧ tail ≤ base + total len f.chunks

theorem Carries.covers {f : Fifo} {s : Stream} (h : Carries f s) : Covers f := by
  obtain ⟨base, l, enq, deq, h⟩ := h
  refine ⟨fun n hn => ?_, fun n hn => ?_, base, s.head, s.tail, h.layout.laid, h.head_eq, h.tail_eq,
    h.base_le, h.head_le, h.tail_le⟩
  · rw [h.enq_registers.nodes] at hn
    obtain ⟨c, hc, rfl⟩ := mem_map.mp hn
    exact ⟨c, h.enq_subset c hc, rfl⟩
  · rw [h.deq_registers.nodes] at hn
    obtain ⟨c, hc, rfl⟩ := mem_map.mp hn
    exact ⟨c, h.deq_prefix.subset hc, rfl⟩

section Run

variable {size : BitVec 32} {cs : List NewChunk}

/-- **Sanity along a run.** A fresh fifo is sane, and stays so as long as the operations keep to the
condition. -/
theorem run_isSane (h : Fresh size cs) (mem : Memory) (enqLookup deqLookup : Bool) {ops : List Op}
    (hops : Along step (fun f op => Allowed f op ∧ KeepsSane f op)
      (svmFifoInit size cs mem enqLookup deqLookup) ops) :
    (after step (svmFifoInit size cs mem enqLookup deqLookup) ops).svmFifoIsSane = true := by
  have hinit := rep_init h mem enqLookup deqLookup
  refine (hops.invariant (fun f => f.svmFifoIsSane = true ∧ ∃ s, Carries f s) (fun _ => True) ?_
    ⟨?_, _, 0, [], [], [], hinit⟩).1.1
  · rintro f op ⟨hsane, s, hcarries⟩ ⟨hop, hkeeps⟩
    obtain ⟨s', -, hcarries', -⟩ := step_carries hcarries hop
    exact ⟨⟨(isSane_step_iff hcarries hop hsane).mpr hkeeps, s', hcarries'⟩, trivial⟩
  · exact hinit.isSane_iff.mpr ⟨cachedIn_none _ _, cachedIn_none _ _⟩

/-- Data ahead of the tail puts its chunk into the tree, a peek does so for the other tree, and more data ahead
finds the chunk there. -/
theorem run_isSane_ahead_and_peek :
    (after step (svmFifoInit 16384 [(1, 4096), (2, 4096)] (fun _ _ => 0) true true)
      [.enqueue none 100 fun _ => 0, .enqueueWithOffset none 10 20 fun _ => 0, .peek 0 50,
        .enqueueWithOffset none 40 20 fun _ => 0]).svmFifoIsSane = true := by
  refine run_isSane ⟨by decide, by decide, by decide, by decide, by decide⟩ _ _ _
    ⟨⟨⟨fun _ h => (nomatch h), fun h => absurd h (by decide)⟩, trivial⟩,
      ⟨⟨fun _ h => (nomatch h), by decide, by decide, by decide⟩, .inr (.inr (.inr (.inr ?_)))⟩,
      ⟨show _ < _ by decide +kernel, .inr (.inr (.inr ?_))⟩,
      ⟨⟨fun _ h => (nomatch h), by decide, by decide, by decide⟩,
        .inr (.inr (.inr (.inl ⟨⟨1, 0, 4096⟩, ?_⟩)))⟩, trivial⟩
  all_goals decide +kernel

/-- **When sanity is preserved.** In any state reached, an operation leaves the trees and the chunk list in
order; a sane fifo stays sane exactly if no cached pointer moves on to a chunk that is not in its tree. -/
theorem sane_preserved_iff (h : Fresh size cs) (mem : Memory) (enqLookup deqLookup : Bool)
    (ops : List Op) (hops : Along step Allowed (svmFifoInit size cs mem enqLookup deqLookup) ops)
    (op : Op) (hop : Allowed (after step (svmFifoInit size cs mem enqLookup deqLookup) ops) op)
    (hsane : (after step (svmFifoInit size cs mem enqLookup deqLookup) ops).svmFifoIsSane = true) :
    Covers (step (after step (svmFifoInit size cs mem enqLookup deqLookup) ops) op).1 ∧
    ((step (after step (svmFifoInit size cs mem enqLookup deqLookup) ops) op).1.svmFifoIsSane = true ↔
      KeepsSane (after step (svmFifoInit size cs mem enqLookup deqLookup) ops) op) := by
  obtain ⟨s, -, hcarries, -⟩ := run_carries h mem enqLookup deqLookup hops
  obtain ⟨s', -, hcarries', -⟩ := step_carries hcarries hop
  exact ⟨hcarries'.covers, isSane_step_iff hcarries hop hsane⟩

/-- Data that stays within its chunk. -/
theorem sane_preserved_within_chunk :
    let f := after step (svmFifoInit 16384 [(1, 4096), (2, 4096)] (fun _ _ => 0) true false)
      [.enqueueWithOffset none 1 1 fun _ => 0]
    f.svmFifoIsSane = true ∧ (step f (.enqueueWithOffset none 10 20 fun _ => 0)).1.svmFifoIsSane = true := by
  refine ⟨by decide +kernel, (sane_preserved_iff ⟨by decide, by decide, by decide, by decide, by decide⟩
    (fun _ _ => 0) true false [.enqueueWithOffset none 1 1 fun _ => 0]
    ⟨⟨fun _ h => (nomatch h), by decide, by decide, by decide⟩, trivial⟩
    (.enqueueWithOffset none 10 20 fun _ => 0)
    ⟨fun _ h => (nomatch h), by decide, by decide, by decide⟩ (by decide +kernel)).2.mpr ?_⟩
  exact .inr (.inr (.inr (.inl ⟨⟨1, 0, 4096⟩, by decide +kernel⟩)))

/-- Data crosses into the next chunk while the cached chunk holds its start: the pointer moves on to a chunk
the tree does not know. The same happens to a peek. -/
theorem cached_chunk_unregistered :
    let f := after step (svmFifoInit 16384 [(1, 4096), (2, 4096)] (fun _ _ => 0) true true)
      [.enqueueWithOffset none 1 1 fun _ => 0]
    let g := after step (svmFifoInit 16384 [(1, 4096), (2, 4096)] (fun _ _ => 0) true true)
      [.enqueue none 8000 fun _ => 0, .peek 0 1]
    f.svmFifoIsSane = true ∧
      (step f (.enqueueWithOffset none 10 4096 fun _ => 0)).1.svmFifoIsSane = false ∧
      (step f (.enqueueWithOffset none 10 4096 fun _ => 0)).1.oooEnq = some 2 ∧
      (step f (.enqueueWithOffset none 10 4096 fun _ => 0)).1.oooEnqLookup.nodes = [⟨0, 1⟩] ∧
      g.svmFifoIsSane = true ∧ (step g (.peek 10 4096)).1.svmFifoIsSane = false := by
  decide +kernel

end Run

end Vpp.SvmFifo
