import Vpp.SvmFifo.Stream

/-!
# The consumer side

What dequeueing, peeking and dropping do to the stream. The head moves over what was consumed, and
chunks wholly before it are unlinked, except the last one. What is left of the chunk list carries the
same stream from a later start.
-/

namespace Vpp.SvmFifo

open Lib Lib.Blocks List
open Chunk (len)

variable {rt : Lookup} {all run cs enq deq : List Chunk} {c : Chunk} {base p : Nat} {f : Fifo} {s : Stream}
  {l : List (Nat × Span)}

theorem Registers.restrict {sub : List Chunk} (h : Registers rt all run) (hsub : ∀ c ∈ sub, c ∈ all) :
    Registers rt sub run :=
  ⟨h.nodes, fun c hc => h.index c (hsub c hc), h.off⟩

theorem Pending.mono {o : OooList} {tail bound bound' : Nat} {l : List (Nat × Span)}
    (h : Pending o tail bound l) (hle : bound ≤ bound') : Pending o tail bound' l :=
  ⟨h.chained, h.apart, h.after, fun x hx => (h.within x hx).trans hle⟩

/-! ## Unlinking -/

theorem Registers.del_head
    (h : Registers rt all run) (hall : (all.map Chunk.addr).Nodup) (hrun : run <+: c :: cs)
    (hc : c ∈ all) (hcs : c ∉ cs) (hp : base + c.len ≤ p) :
    ∃ run', run' <+: cs ∧ Registers (rt.del c) all run' ∧
      seek len base run p = seek len (base + c.len) run' p := by
  rcases prefix_cons_iff.mp hrun with rfl | ⟨run', rfl, hrun'⟩
  · rw [h.del_of_notMem hc not_mem_nil]
    exact ⟨[], nil_prefix, h, rfl⟩
  · refine ⟨run', hrun', h.del hall hc fun hmem => hcs (hrun'.subset hmem), ?_⟩
    rw [seek, if_neg (by omega)]

variable {maybeOoo : Bool} {a : Option Nat} {e : BitVec 32}

theorem isInit_delIf : (if maybeOoo then rt.del c else rt).isInit = rt.isInit := by
  split
  · exact Lookup.isInit_del ..
  · rfl

/-- **The loop of `f_unlink_chunks`** stops at the chunk that holds `p`, or at the last one. -/
theorem unlinkLoop_spec (hreg : maybeOoo = true → Registers rt all run ∧ run <+: c :: cs)
    (hall : (all.map Chunk.addr).Nodup) (hsub : ∀ d ∈ c :: cs, d ∈ all) (hnd : (c :: cs).Nodup)
    (hl : Laid base (c :: cs)) (ht : total len (c :: cs) < 2 ^ 31) (hp : base + c.len ≤ p)
    (hpe : p ≤ base + total len (c :: cs)) :
    ∃ rt' pre r rest, unlinkLoop (wrap32 p) maybeOoo rt (c :: cs) = (rt', r :: rest) ∧
      c :: cs = pre ++ r :: rest ∧ base + total len pre ≤ p ∧
      (p < base + total len pre + r.len ∨
        rest = [] ∧ p = base + total len pre + r.len) ∧
      rt'.isInit = rt.isInit ∧ (maybeOoo = false → rt' = rt) ∧
      (maybeOoo = true → Registers rt' all (seek len base run p)) := by
  induction cs generalizing base run rt c with
  | nil =>
    rw [total_cons, total_nil] at hpe
    refine ⟨_, [], c, [], rfl, rfl, by rw [total_nil]; omega, .inr ⟨rfl, ?_⟩, isInit_delIf ..,
      fun h => by rw [h]; rfl, fun h => ?_⟩
    · rw [total_nil]
      omega
    obtain ⟨hreg, hrun⟩ := hreg h
    obtain ⟨run', hrun', hreg', hseek⟩ := hreg.del_head hall hrun (hsub c mem_cons_self)
      not_mem_nil hp
    obtain rfl := prefix_nil.mp hrun'
    rw [h, hseek]
    exact hreg'
  | cons d cs ih =>
    obtain ⟨hcs, hnd'⟩ := nodup_cons.mp hnd
    obtain ⟨hs, hpos, hd, hposd, hlc⟩ := hl
    rw [total_cons, total_cons] at ht hpe
    have hsub' : ∀ x ∈ d :: cs, x ∈ all := fun x hx => hsub x (mem_cons_of_mem _ hx)
    have hinc := fChunkIncludesPos_eq (p := p) hd (by omega) (by omega)
    obtain ⟨run', hreg'⟩ : ∃ run', maybeOoo = true → (Registers (rt.del c) all run' ∧
        run' <+: d :: cs) ∧
        seek len base run p = seek len (base + c.len) run' p := by
      by_cases h : maybeOoo = true
      · obtain ⟨hreg, hrun⟩ := hreg h
        obtain ⟨run', hrun', hreg', hseek⟩ := hreg.del_head hall hrun (hsub c mem_cons_self)
          hcs hp
        exact ⟨run', fun _ => ⟨⟨hreg', hrun'⟩, hseek⟩⟩
      · exact ⟨[], fun h' => absurd h' h⟩
    rw [unlinkLoop, hinc]
    by_cases hpd : p < base + c.len + d.len
    · rw [if_pos (decide_eq_true ⟨hp, hpd⟩)]
      refine ⟨_, [c], d, cs, rfl, rfl, ?_, .inl ?_, isInit_delIf .., fun h => by rw [h]; rfl,
        fun h => ?_⟩
      · rw [total_cons, total_nil]
        omega
      · rw [total_cons]
        omega
      obtain ⟨⟨hreg, hrun⟩, hseek⟩ := hreg' h
      rw [h, hseek]
      rcases prefix_cons_iff.mp hrun with rfl | ⟨r, rfl, -⟩
      · exact hreg
      · rw [seek, if_pos hpd]
        exact hreg
    · rw [if_neg fun h => hpd (of_decide_eq_true h).2]
      have hrest : maybeOoo = true →
          Registers (if maybeOoo then rt.del c else rt) all run' ∧ run' <+: d :: cs := fun h => by
        rw [h]
        exact (hreg' h).1
      obtain ⟨rt', pre, r, rest, hloop, hsplit, hpre, hstop, hinit, hfalse, htrue⟩ :=
        ih hrest hsub' hnd' (⟨hd, hposd, hlc⟩ : Laid (base + c.len) (d :: cs))
          (by rw [total_cons]; omega) (by omega) (by rw [total_cons]; omega)
      refine ⟨rt', c :: pre, r, rest, hloop, by rw [hsplit]; rfl, by rw [total_cons]; omega, ?_,
        hinit.trans (isInit_delIf ..), fun h => ?_, fun h => ?_⟩
      · rw [total_cons, ← add_assoc]
        exact hstop
      · rw [hfalse h, h]
        rfl
      · rw [(hreg' h).2]
        exact htrue h

/-- What `f_unlink_chunks` leaves: the chunks `rest` after `pre`, the tree, and the cached chunk. -/
structure Unlinked (f f' : Fifo) (base e : Nat) (pre : List Chunk) (deq deq' : List Chunk) :
    Prop where
  split : f.chunks = pre ++ f'.chunks
  ne : f'.chunks ≠ []
  le : base + total len pre ≤ e
  registers : Registers f'.oooDeqLookup f.chunks deq'
  deq_prefix : deq' <+: f'.chunks
  isInit : f'.oooDeqLookup.isInit = f.oooDeqLookup.isInit
  cached : f'.oooDeq = none ∨
    f'.oooDeq = f.oooDeq ∧ (∃ p, base + total len pre ≤ p ∧ f'.oooDeq = ptr base f.chunks p) ∧
      ∀ d ∈ deq, f.oooDeq = some d.addr → d ∈ deq'

namespace Rep

variable {e : Nat} {deq' pre rest : List Chunk} {rt' : Lookup} {headChunk' oooDeq' : Option Nat}

section

variable (h : Rep f s base l enq deq)
include h

/-- **The head moves** to `e`, and the chunks `pre` before it are unlinked. -/
theorem consume (hhead : s.head ≤ e) (htail : e ≤ s.tail)
    (hsplit : f.chunks = pre ++ rest) (hne : rest ≠ []) (hpre : base + total len pre ≤ e)
    (hreg : Registers rt' f.chunks deq') (hdeq : deq' <+: rest)
    (hhc : headChunk' = none ∨ headChunk' = ptr base f.chunks e) (hod : oooDeq' = none ∨
      ∃ p, base + total len pre ≤ p ∧ oooDeq' = ptr base f.chunks p) :
    Rep { f with
          chunks := rest, headChunk := headChunk', head := wrap32 e, oooDeqLookup := rt'
          oooDeq := oooDeq' }
      { s with head := e } (base + total len pre) l enq deq' := by
  have hptr : ∀ p, base + total len pre ≤ p →
      ptr base f.chunks p = ptr (base + total len pre) rest p := fun p hp => by
    rw [hsplit, ptr, ptr, seek_append_right hp]
  have hsub : ∀ c ∈ rest, c ∈ f.chunks := fun c hc => hsplit ▸ mem_append_right _ hc
  have hend : base + total len f.chunks = base + total len pre + total len rest := by
    rw [hsplit, total_append, add_assoc]
  have hlaid := h.layout.laid
  have hlt := h.layout.lt
  have hnodup := h.layout.nodup
  rw [hsplit, laid_append] at hlaid
  rw [hsplit, map_append] at hnodup
  exact
    { layout := ⟨hlaid.2, by show total len rest < _; omega,
        (nodup_append.mp hnodup).2.1, hne⟩
      size_lt := h.size_lt
      base_le := hpre
      head_le := htail
      tail_le := hend ▸ h.tail_le
      room := h.room.trans (Nat.add_le_add_right hhead _)
      head_eq := rfl
      tail_eq := h.tail_eq
      headChunk := hhc.imp_right fun hc => hc.trans (hptr e hpre)
      tailChunk := h.tailChunk.trans (hptr _ (hpre.trans htail))
      pending := h.pending.mono (Nat.add_le_add_right hhead _)
      pending_le := fun x hx => hend ▸ h.pending_le x hx
      oooEnq := h.oooEnq.imp_right <| And.imp_right <| Exists.imp fun p hp =>
        ⟨hp.1, hp.2.trans (hptr p (hpre.trans (htail.trans hp.1)))⟩
      oooDeq := hod.imp_right <| Exists.imp fun p hp => ⟨hp.1, hp.2.trans (hptr p hp.1)⟩
      enq_registers := h.enq_registers.restrict hsub
      enq_prefix := by
        have := h.enq_prefix
        rwa [hsplit, seek_append_right (hpre.trans htail)] at this
      enq_le := fun pre' c post heq hc => by
        have heq : rest = pre' ++ c :: post := heq
        obtain ⟨x, hx, hle⟩ := h.enq_le (pre ++ pre') c post (by rw [hsplit, heq, append_assoc]) hc
        rw [total_append] at hle
        exact ⟨x, hx, by omega⟩
      deq_registers := hreg.restrict hsub
      deq_prefix := hdeq
      written_lt := h.written_lt
      written_iff := h.written_iff
      data := fun p b hp hb => by
        have := h.data p b (hhead.trans hp) hb
        rwa [byteAt, hsplit, read_append_right (hpre.trans hp)] at this }

theorem mem_seek_of_le {d : Chunk} {post : List Chunk}
    (hd : d ∈ deq) (hsplit : f.chunks = pre ++ d :: post) (he : base ≤ e)
    (hle : e < base + total len pre + d.len) : d ∈ seek len base deq e := by
  obtain ⟨front, hfront, hstart⟩ := exists_append_seek len deq he
  rw [hfront, mem_append] at hd
  refine hd.resolve_left fun hmem => ?_
  obtain ⟨x, y, rfl⟩ := append_of_mem hmem
  obtain ⟨rest, hrest⟩ := h.deq_prefix
  have heq : pre ++ d :: post = x ++ d :: (y ++ (seek len base deq e ++ rest)) := by
    rw [← hsplit, ← hrest]
    conv_lhs => rw [hfront]
    simp
  rw [(split_unique heq (hsplit ▸ List.Nodup.of_map _ h.layout.nodup)).1] at hle
  rw [total_append, total_cons] at hstart
  omega

/-- **`f_unlink_chunks`.** -/
theorem fUnlinkChunks (hchunks : f.chunks = c :: cs) (hfirst : base + c.len ≤ e) (htail : e ≤ s.tail)
    (hdeq : maybeOoo = false → deq = []) :
    ∃ pre rest rt' oooDeq' deq',
      f.fUnlinkChunks (wrap32 e) maybeOoo =
        some { f with chunks := rest, oooDeqLookup := rt', oooDeq := oooDeq' } ∧
      Unlinked f { f with chunks := rest, oooDeqLookup := rt', oooDeq := oooDeq' } base e pre deq
        deq' := by
  have hlt := h.layout.lt
  have hend := htail.trans h.tail_le
  have hnd := List.Nodup.of_map _ h.layout.nodup
  have hrun : maybeOoo = true → Registers f.oooDeqLookup f.chunks deq ∧ deq <+: c :: cs := fun _ =>
    ⟨h.deq_registers, hchunks ▸ h.deq_prefix⟩
  obtain ⟨rt', pre, r, rest, hloop, hsplit, hpre, hstop, hinit, hfalse, htrue⟩ :=
    unlinkLoop_spec hrun h.layout.nodup
      (fun d hd => hchunks ▸ hd) (hchunks ▸ hnd) (hchunks ▸ h.layout.laid) (hchunks ▸ hlt) hfirst
      (hchunks ▸ hend)
  rw [← hchunks] at hloop hsplit
  have hreg : Registers rt' f.chunks (seek len base deq e) := by
    cases maybeOoo with
    | true => exact htrue rfl
    | false =>
      obtain rfl := hdeq rfl
      rw [hfalse rfl]
      exact h.deq_registers
  have hpref : seek len base deq e <+: r :: rest := by
    have hseek : seek len base deq e <+: seek len base f.chunks e :=
      seek_prefix h.deq_prefix
    rcases hstop with hlt' | ⟨rfl, heq⟩
    · rwa [hsplit, seek_split hpre hlt'] at hseek
    have hnil : seek len base (pre ++ [r]) e = [] :=
      seek_eq_nil (by rw [total_concat]; omega)
    rw [hsplit, hnil, prefix_nil] at hseek
    rw [hseek]
    exact nil_prefix
  have hdone : ∀ oooDeq', (oooDeq' = none ∨ oooDeq' = f.oooDeq ∧
        (∃ p, base + total len pre ≤ p ∧ oooDeq' = ptr base f.chunks p) ∧
        ∀ d ∈ deq, f.oooDeq = some d.addr → d ∈ seek len base deq e) →
      Unlinked f { f with chunks := r :: rest, oooDeqLookup := rt', oooDeq := oooDeq' } base e pre
        deq (seek len base deq e) := fun oooDeq' hc =>
    ⟨hsplit, cons_ne_nil _ _, hpre, hreg, hpref, hinit, hc⟩
  rw [Fifo.fUnlinkChunks, hloop]
  dsimp only [head?_cons, Option.bind_eq_bind, Option.bind_some]
  cases hod : f.oooDeq with
  | none => exact ⟨pre, r :: rest, rt', none, _, rfl, hdone none (.inl rfl)⟩
  | some a =>
    cases maybeOoo with
    | false => exact ⟨pre, r :: rest, rt', none, _, rfl, hdone none (.inl rfl)⟩
    | true =>
      obtain ⟨q, hq, hptr⟩ := h.oooDeq.resolve_left (by rw [hod]; exact Option.some_ne_none a)
      have hcptr : fCptr f.chunks (some a) = seek len base f.chunks q := by
        rw [← hod, hptr, fCptr_ptr h.layout.nodup]
      obtain ⟨d, post, heq⟩ : ∃ d post, seek len base f.chunks q = d :: post := by
        refine exists_cons_of_ne_nil fun hnil => ?_
        rw [hod, ptr, hnil] at hptr
        cases hptr
      obtain ⟨front, hfront, h₁, h₂⟩ := exists_of_seek_eq_cons hq heq
      have hd := h.layout.laid.startByte hfront
      have hr := h.layout.laid.startByte hsplit
      have hle₁ := total_split len hfront
      have hle₂ := total_split len hsplit
      have hcmp : seqLt d.startByte r.fChunkEnd = decide (base + total len front <
          base + total len pre + r.len) := by
        rw [hd, fChunkEnd_eq hr, seqLt_wrap32 (by omega) (by omega)]
      dsimp only
      rw [hcptr, heq]
      dsimp only [head?_cons, Option.bind_some]
      rw [hcmp]
      by_cases hbefore : base + total len front < base + total len pre + r.len
      · rw [if_pos (decide_eq_true hbefore)]
        exact ⟨pre, r :: rest, rt', none, _, rfl, hdone none (.inl rfl)⟩
      rw [if_neg fun h' => hbefore (of_decide_eq_true h')]
      refine ⟨pre, r :: rest, rt', some a, _, rfl, hdone (some a) (.inr ⟨hod.symm, ⟨q, by omega,
        hod ▸ hptr⟩, fun d' hd' ha => ?_⟩)⟩
      have hmem : d' ∈ f.chunks := h.deq_prefix.subset hd'
      have haddr : some d'.addr = some d.addr := by
        rw [← ha, hptr, ptr, heq]
        rfl
      obtain rfl := eq_of_addr_eq h.layout.nodup hmem (by rw [hfront]; simp) (Option.some.inj haddr)
      refine h.mem_seek_of_le hd' hfront (by omega) ?_
      omega

theorem reads_eq_peeked {n : Nat} (hp : s.head ≤ p) (hn : p + n ≤ s.tail) :
    reads len Chunk.addr f.mem base f.chunks p n = s.peeked p n := by
  refine map_congr_left fun i hi => ?_
  have hi := mem_range.mp hi
  obtain ⟨b, hb⟩ := Option.ne_none_iff_exists'.mp (h.written_lt (p + i) (by omega))
  rw [hb]
  exact h.data (p + i) b (by omega) hb

theorem cursize_eq : fCursize f.head f.tail = wrap32 s.cursize := by
  rw [fCursize, h.head_eq, h.tail_eq, wrap32_sub h.head_le]
  rfl

theorem toNat_cursize : (fCursize f.head f.tail).toNat = s.cursize := by
  have hroom := h.room
  rw [h.cursize_eq, toNat_wrap32 (by rw [Stream.cursize]; omega)]

end

end Rep

/-- What a consumer operation leaves alone, and that the cached chunk is gone or the old one, in the
tree if it was. -/
structure Drained (f f' : Fifo) (deq deq' : List Chunk) : Prop where
  size : f'.size = f.size
  enqInit : f'.oooEnqLookup.isInit = f.oooEnqLookup.isInit
  deqInit : f'.oooDeqLookup.isInit = f.oooDeqLookup.isInit
  oooEnq : f'.oooEnq = f.oooEnq
  cached : f'.oooDeq = none ∨
    f'.oooDeq = f.oooDeq ∧ ∀ d ∈ deq, f.oooDeq = some d.addr → d ∈ deq'

theorem Drained.moved {f : Fifo} {deq : List Chunk} :
    Drained f { f with headChunk := a, head := e } deq deq :=
  ⟨rfl, rfl, rfl, rfl, .inr ⟨rfl, fun _ hd _ => hd⟩⟩

theorem fUnlinkChunks_headChunk (f : Fifo) : { f with headChunk := a }.fUnlinkChunks e false =
      (f.fUnlinkChunks e false).map fun f' => { f' with headChunk := a } := by
  unfold Fifo.fUnlinkChunks
  dsimp only
  cases (unlinkLoop e false f.oooDeqLookup f.chunks).2.head? with
  | none => rfl
  | some c => cases f.oooDeq <;> rfl

/-- How much `svm_fifo_peek` copies. -/
def Fifo.peekLen (f : Fifo) (offset len : BitVec 32) : BitVec 32 :=
  minW (fCursize f.head f.tail - offset) len

namespace Rep

variable {e n : Nat} {len : BitVec 32}

theorem seqGeq_startEnd (h : Rep f s base l enq deq) (hchunks : f.chunks = c :: cs) (hhead : s.head ≤ e)
    (htail : e ≤ s.tail) : seqGeq (wrap32 e) f.startEnd = decide (base + c.len ≤ e) := by
  have hlt := h.layout.lt
  have hbase := h.base_le
  have hend := htail.trans h.tail_le
  rw [hchunks, total_cons] at hlt hend
  rw [Fifo.startEnd, hchunks, fChunkEnd_head? (hchunks ▸ h.layout.laid),
    seqGeq_wrap32 (by omega) (by omega)]

/-- **Moving the head** by the test, the unlinking and the store, with some head chunk that fits. -/
theorem moveHead (h : Rep f s base l enq deq) (maybeOoo : Bool) (hhead : s.head ≤ e)
    (htail : e ≤ s.tail) (hdeq : maybeOoo = false → deq = []) :
    seqGeq (wrap32 e) f.startEnd = false ∧ ptr base f.chunks s.head = ptr base f.chunks e ∧
      (∀ a, a = none ∨ a = ptr base f.chunks e →
        Rep { f with headChunk := a, head := wrap32 e } { s with head := e } base l enq deq) ∨
    seqGeq (wrap32 e) f.startEnd = true ∧
      ∃ f' base' deq', f.fUnlinkChunks (wrap32 e) maybeOoo = some f' ∧ Drained f f' deq deq' ∧
        ptr base' f'.chunks e = ptr base f.chunks e ∧
        ∀ a, a = none ∨ a = ptr base f.chunks e →
          Rep { f' with headChunk := a, head := wrap32 e } { s with head := e } base' l enq deq' := by
  obtain ⟨c, cs, hchunks⟩ := exists_cons_of_ne_nil h.layout.ne
  rw [h.seqGeq_startEnd hchunks hhead htail]
  by_cases hle : base + c.len ≤ e
  · obtain ⟨pre, rest, rt', oooDeq', deq', hunlink, hun⟩ := h.fUnlinkChunks hchunks hle htail hdeq
    refine .inr ⟨decide_eq_true hle, _, base + total len pre, deq', hunlink,
      ⟨rfl, rfl, hun.isInit, rfl, ?_⟩, ?_, fun a ha => ?_⟩
    · exact hun.cached.imp_right fun ⟨h₁, _, h₃⟩ => ⟨h₁, h₃⟩
    · rw [hun.split, ptr, ptr, seek_append_right hun.le]
    · exact h.consume hhead htail hun.split hun.ne hun.le hun.registers hun.deq_prefix ha
        (hun.cached.imp_right fun ⟨_, h₂, _⟩ => h₂)
  · refine .inl ⟨decide_eq_false hle, ?_, fun a ha => ?_⟩
    · rw [hchunks, ptr, ptr, seek, seek, if_pos (by omega), if_pos (by omega)]
    exact h.consume hhead htail (nil_append _).symm h.layout.ne (h.base_le.trans hhead)
      h.deq_registers h.deq_prefix ha h.oooDeq

theorem headChunk_find (h : Rep f s base l enq deq) (hlt : s.head < s.tail) :
    (f.headChunk <|> (f.chunks.find? (·.fChunkIncludesPos f.head)).map Chunk.addr) =
      ptr base f.chunks s.head := by
  have htotal := h.layout.lt
  have hend : s.head < base + total len f.chunks := hlt.trans_le h.tail_le
  rcases h.headChunk with hnone | hsome
  · rw [hnone, h.head_eq, find?_includesPos h.layout.laid h.base_le (by omega) htotal]
    rfl
  · obtain ⟨a, ha⟩ := Option.ne_none_iff_exists'.mp (ptr_ne_none h.base_le hend)
    rw [hsome, ha]
    rfl

/-- **`svm_fifo_dequeue`**, as long as nothing is in the lookup tree. -/
theorem svmFifoDequeue (h : Rep f s base l enq []) (len : BitVec 32) :
    ∃ f' ret bytes s' base' deq', f.svmFifoDequeue len = some (f', ret, bytes) ∧
      s.Step f.size.toNat (.dequeue len) ⟨ret, bytes⟩ s' ∧ Rep f' s' base' l enq deq' ∧
      Drained f f' [] deq' := by
  have hsize := h.size_lt
  have hroom := h.room
  have htail := h.tail_le
  have hdef : s.cursize = s.tail - s.head := rfl
  rw [Fifo.svmFifoDequeue]
  dsimp only
  rw [h.cursize_eq]
  by_cases hempty : s.cursize = 0
  · rw [if_pos ((wrap32_eq_zero (by omega)).mpr hempty)]
    exact ⟨f, _, [], s, base, [], rfl, .refused hempty (by decide), h, .moved⟩
  rw [if_neg fun hz => hempty ((wrap32_eq_zero (by omega)).mp hz), minW_wrap32 (by omega),
    h.headChunk_find (by omega), fCptr_ptr h.layout.nodup]
  obtain ⟨n, hn⟩ : ∃ n, n = min len.toNat s.cursize := ⟨_, rfl⟩
  rw [← hn]
  obtain ⟨bytes, last, hcopy, hbytes, hlast⟩ := svmFifoCopyFromChunk_spec (n := n)
    h.layout.laid h.base_le (by omega) (by omega) (by omega)
  rw [h.reads_eq_peeked (le_refl _) (by omega)] at hbytes
  have hnext : f.head + wrap32 n = wrap32 (s.head + n) := by rw [h.head_eq, wrap32_add]
  have hstep : s.Step f.size.toNat (.dequeue len) ⟨(wrap32 n).toInt, bytes⟩
      { s with head := s.head + n } := by
    rw [toInt_wrap32 (by omega)]
    exact .dequeue n hn hbytes
  rw [← h.head_eq] at hcopy
  rw [hcopy]
  dsimp only [Option.bind_eq_bind, Option.bind_some]
  rw [hlast, hnext]
  rcases h.moveHead (e := s.head + n) false (by omega) (by omega) (fun _ => rfl) with
    ⟨hgeq, hsame, hrep⟩ | ⟨hgeq, f', base', deq', hunlink, hdr, hptr, hrep⟩
  · refine ⟨_, _, bytes, _, base, [], if_neg ?_, hstep, hrep _ (.inr rfl), .moved⟩
    exact fun h => Bool.false_ne_true (hgeq.symm.trans h)
  · refine ⟨_, _, bytes, _, base', deq', ?_, hstep, hrep _ (.inr rfl), ?_⟩
    · rw [fUnlinkChunks_headChunk, hunlink]
      exact if_pos hgeq
    · exact { hdr with }

theorem headChunk_start {base' : Nat} (hlay : Layout base' cs) (hb : base' ≤ e)
    (he : e ≤ base' + total Chunk.len cs) :
    (if cs.head?.any (·.fChunkIncludesPos (wrap32 e)) then fCsptr cs else none) = none ∨
      (if cs.head?.any (·.fChunkIncludesPos (wrap32 e)) then fCsptr cs else none) =
        ptr base' cs e := by
  have hlt := hlay.lt
  obtain ⟨c, cs, rfl⟩ := exists_cons_of_ne_nil hlay.ne
  rw [total_cons] at he hlt
  have hinc := fChunkIncludesPos_eq (p := e) hlay.laid.1 (by omega) (by omega)
  rw [head?_cons, Option.any_some, hinc]
  split
  · rename_i h
    right
    rw [ptr, seek, if_pos (of_decide_eq_true h).2]
  · exact .inl rfl

/-- **`svm_fifo_dequeue_drop`.** -/
theorem svmFifoDequeueDrop (h : Rep f s base l enq deq) (len : BitVec 32) :
    ∃ f' ret s' base' deq', f.svmFifoDequeueDrop len = some (f', ret) ∧
      s.Step f.size.toNat (.dequeueDrop len) ⟨ret, []⟩ s' ∧ Rep f' s' base' l enq deq' ∧
      Drained f f' deq deq' := by
  have hsize := h.size_lt
  have hroom := h.room
  have hdef : s.cursize = s.tail - s.head := rfl
  rw [Fifo.svmFifoDequeueDrop]
  dsimp only
  rw [h.cursize_eq]
  by_cases hempty : s.cursize = 0
  · rw [if_pos ((wrap32_eq_zero (by omega)).mpr hempty)]
    exact ⟨f, _, s, base, deq, rfl, .refused hempty (by decide), h, .moved⟩
  rw [if_neg fun hz => hempty ((wrap32_eq_zero (by omega)).mp hz), minW_wrap32 (by omega)]
  obtain ⟨n, hn⟩ : ∃ n, n = min len.toNat s.cursize := ⟨_, rfl⟩
  have hnext : f.head + wrap32 n = wrap32 (s.head + n) := by rw [h.head_eq, wrap32_add]
  have hstep : s.Step f.size.toNat (.dequeueDrop len) ⟨(wrap32 n).toInt, []⟩
      { s with head := s.head + n } := by
    rw [toInt_wrap32 (by omega)]
    exact .dequeueDrop n hn
  rw [← hn, hnext, Fifo.dropChunks]
  rcases h.moveHead (e := s.head + n) true (by omega) (by omega)
    (fun h => nomatch h) with ⟨hgeq, hsame, hrep⟩ | ⟨hgeq, f', base', deq', hunlink, hdr, hptr, hrep⟩
  · rw [hgeq]
    have hc := h.headChunk.imp_right fun hc => hc.trans hsame
    exact ⟨_, _, _, base, deq, rfl, hstep, hrep _ hc, .moved⟩
  rw [hgeq, hunlink]
  have hlay := (hrep none (.inl rfl)).layout
  have hb := (hrep none (.inl rfl)).base_le
  have he := (hrep none (.inl rfl)).head_le.trans (hrep none (.inl rfl)).tail_le
  refine ⟨_, _, _, base', deq', rfl, hstep, hrep _ ((headChunk_start hlay hb he).imp_right ?_), ?_⟩
  · exact fun h => h.trans hptr
  · exact { hdr with }

/-- **`svm_fifo_peek`** at a position that a chunk holds, up to the tail. -/
theorem svmFifoPeek (h : Rep f s base l enq deq) (len : BitVec 32) {offset : BitVec 32}
    (hoffset : offset.toNat ≤ s.cursize)
    (hend : s.head + offset.toNat < base + total Chunk.len f.chunks) :
    ∃ f' ret bytes deq', f.svmFifoPeek offset len = some (f', ret, bytes) ∧
      ret = (f.peekLen offset len).toInt ∧
      (f.oooDeqChunk (f.head + offset) (f.peekLen offset len)).map Prod.snd =
        some (ptr base f.chunks (s.head + offset.toNat)) ∧
      s.Step f.size.toNat (.peek offset len) ⟨ret, bytes⟩ s ∧ Rep f' s base l enq deq' ∧
      f'.chunks = f.chunks ∧ f'.oooEnq = f.oooEnq ∧ f'.oooEnqLookup = f.oooEnqLookup ∧
      f'.size = f.size ∧ f'.oooDeqLookup.isInit = f.oooDeqLookup.isInit ∧
      f'.oooDeq = ptr base f.chunks (s.head + offset.toNat + min len.toNat (s.cursize - offset.toNat)) ∧
      LookedUp ((fCptr f.chunks f.oooDeq).head?.any
          (·.fChunkIncludesPos (wrap32 (s.head + offset.toNat))))
        f.oooDeqLookup.isInit base f.chunks (s.head + offset.toNat)
        (s.head + offset.toNat + min len.toNat (s.cursize - offset.toNat)) deq deq' := by
  have hsize := h.size_lt
  have hroom := h.room
  have htail := h.tail_le
  have hbase := h.base_le
  have hle := h.head_le
  have hdef : s.cursize = s.tail - s.head := rfl
  obtain ⟨p, hp⟩ : ∃ p, p = s.head + offset.toNat := ⟨_, rfl⟩
  obtain ⟨n, hn⟩ : ∃ n, n = min len.toNat (s.cursize - offset.toNat) := ⟨_, rfl⟩
  rw [← hp, ← hn]
  have hpos : f.head + offset = wrap32 p := by
    rw [h.head_eq, hp, ← wrap32_add, wrap32_toNat]
  have hlen : f.peekLen offset len = wrap32 n := by
    rw [Fifo.peekLen, h.cursize_eq, ← wrap32_toNat offset, wrap32_sub (by omega),
      minW_wrap32 (by omega), hn]
  obtain ⟨rt', deq', hlook, hinit, hreg, hup⟩ := lookUp_spec (p := p) (e := p + n) h.layout
    h.deq_registers (nil_append _).symm h.deq_prefix h.oooDeq (by rw [total_nil]; omega) (by omega)
    (by omega) (by omega)
  obtain ⟨bytes, last, hcopy, hbytes, hlast⟩ := svmFifoCopyFromChunk_spec (m := f.mem) (p := p)
    (n := n) h.layout.laid (by omega) (by omega) (by omega) (by omega)
  rw [h.reads_eq_peeked (by omega) (by omega)] at hbytes
  have hchunk : f.oooDeqChunk (wrap32 p) (wrap32 n) = some (rt', ptr base f.chunks p) := by
    rw [Fifo.oooDeqChunk, wrap32_add, hlook]
  have hret : n = (wrap32 n).toInt := (toInt_wrap32 (by omega)).symm
  refine ⟨{ f with oooDeqLookup := rt', oooDeq := ptr base f.chunks (p + n) }, n, bytes, deq', ?_,
    hlen ▸ hret, by rw [hpos, hlen, hchunk]; rfl, .peek n hn (hp ▸ hbytes), ?_, rfl, rfl, rfl, rfl,
    hinit, rfl, hup⟩
  · rw [Fifo.svmFifoPeek]
    dsimp only
    have hlt : ¬ fCursize f.head f.tail < offset := by
      rw [BitVec.lt_def, h.toNat_cursize]
      omega
    rw [if_neg hlt, ← Fifo.peekLen, hlen, hpos, hchunk]
    dsimp only [Option.bind_eq_bind, Option.bind_some]
    rw [fCptr_ptr h.layout.nodup, hcopy]
    dsimp only [Option.bind_some]
    rw [hlast, ← hret]
  · exact { h with
      oooDeq := .inr ⟨p + n, by omega, rfl⟩
      deq_registers := hreg
      deq_prefix := hup.prefix_first }

end Rep

end Vpp.SvmFifo
