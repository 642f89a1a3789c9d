import Vpp.SvmFifo.Stream

/-!
# The producer side

What enqueueing does to the stream. Data copied in at the tail, in one piece or segment by segment,
is written at the tail, which then moves past it and past whatever out-of-order data follows. Data
copied in past the tail is written there and becomes an out-of-order segment.
-/

namespace Vpp.SvmFifo

open Lib Lib.Blocks List
open Chunk (len)

theorem Pending.head_eq_none_iff {o : OooList} {tail bound : Nat} {l : List (Nat × Span)}
    (h : Pending o tail bound l) : o.head = none ↔ l = [] := by
  rw [h.chained.head_eq]
  cases l with
  | nil => exact ⟨fun _ => rfl, fun _ => rfl⟩
  | cons x l => exact ⟨fun h => (nomatch h), fun h => (nomatch h)⟩

abbrev Fifo.moved (f : Fifo) (m' : Memory) (tailChunk : Option Nat) : Fifo :=
  { f with mem := m', tailChunk }

/-- A fifo that carries `s` has taken `n` bytes at the tail. -/
def Appended (f : Fifo) (s : Stream) (base : Nat) (deq : List Chunk) (n : Nat) (src : Nat → UInt8)
    (result : Option (Fifo × Int)) : Prop :=
  ∃ f' ret s' l' enq', result = some (f', ret) ∧ Kept f f' ∧ f'.oooEnq = none ∧
    s.Append n src ret s' ∧ Rep f' s' base l' enq' deq

theorem some_moved_mem {f : Fifo} {c : Option Nat} {p : BitVec 32} (h : f.tailChunk = c) :
    some (f, p) = some (f.moved f.mem c, p) := by rw [← h]

variable {f : Fifo} {s : Stream} {base p n tail' : Nat} {l l' : List (Nat × Span)} {enq enq' deq : List Chunk}
  {m' : Memory} {src : Nat → UInt8} {o' : OooList} {rt' : Lookup} {answer : Option (List NewChunk)}
  {segs : List Fifo.FifoSeg} {oldTailC : Option Nat}

namespace Rep

section

variable (h : Rep f s base l enq deq)
include h

theorem data_write (hw : Wrote len Chunk.addr f.mem m' base f.chunks p n src) (q : Nat) (b : UInt8)
    (hq : s.head ≤ q) (hb : s.write p n src q = some b) : byteAt m' base f.chunks q = some b := by
  by_cases hin : p ≤ q ∧ q < p + n
  · rw [Stream.write_of_mem hin.1 hin.2] at hb
    rw [byteAt, hw.inside q hin.1 hin.2, hb]
  · rw [Stream.write_of_notMem (by omega)] at hb
    rw [byteAt, hw.outside q (h.base_le.trans hq) (by omega)]
    exact h.data q b hq hb

/-- **The tail moves** over `n` bytes written at it and the out-of-order data behind them. The lookup tree
keeps chunks from the new tail on, and none when no out-of-order data is left. -/
theorem advance (hw : Wrote len Chunk.addr f.mem m' base f.chunks s.tail n src)
    (hn : s.tail + n ≤ base + total len f.chunks)
    (hc : Collected o' l (s.tail + n) tail' (s.head + f.size.toNat) l')
    (hreg : Registers rt' f.chunks enq') (hpre : enq' <+: seek len base f.chunks tail')
    (hsub : ∀ c ∈ enq', c ∈ enq ∧ l' ≠ []) :
    Rep { f with
          mem := m', ooo := o', oooEnqLookup := rt', tailChunk := ptr base f.chunks tail'
          tail := wrap32 tail', oooEnq := none }
      ⟨s.head, tail', s.write s.tail n src⟩ base l' enq' deq := by
  have hle := hc.le
  exact
    { layout := h.layout
      size_lt := h.size_lt
      base_le := h.base_le
      head_le := h.head_le.trans ((Nat.le_add_right _ _).trans hle)
      tail_le := hc.tail_le h.pending_le hn
      room := hc.le_bound
      head_eq := h.head_eq
      tail_eq := rfl
      headChunk := h.headChunk
      tailChunk := rfl
      pending := hc.pending
      pending_le := fun x hx => by
        obtain ⟨y, hy, hle⟩ := hc.exists_hi_le x hx
        exact hle.trans (h.pending_le y hy)
      oooEnq := .inl rfl
      oooDeq := h.oooDeq
      enq_registers := hreg
      enq_prefix := hpre
      enq_le := by
        intro pre c post hsplit hc'
        obtain ⟨hmem, hne⟩ := hsub c hc'
        obtain ⟨x, hx, hstart⟩ := h.enq_le pre c post hsplit hmem
        by_cases hlt : tail' < x.2.hi
        · obtain ⟨y, hy, hle'⟩ := hc.exists_le_hi h.pending.apart hx hlt
          exact ⟨y, hy, hstart.trans hle'⟩
        · obtain ⟨y, hy⟩ := exists_mem_of_ne_nil l' hne
          have h₁ := hc.pending.after y hy
          have h₂ := hc.pending.apart.pos y hy
          exact ⟨y, hy, by omega⟩
      deq_registers := h.deq_registers
      deq_prefix := h.deq_prefix
      written_lt := by
        intro p hp
        by_cases hin : p < s.tail + n
        · rw [Stream.write_ne_none]
          by_cases hp' : p < s.tail
          · exact .inl (h.written_lt p hp')
          · exact .inr ⟨Nat.le_of_not_lt hp', hin⟩
        · have hin := Nat.le_of_not_lt hin
          show s.write s.tail n src p ≠ none
          rw [Stream.write_of_notMem (.inr hin)]
          exact (h.written_iff p (by omega)).mpr (hc.occupied p hin hp)
      written_iff := by
        intro p hp
        have hp : tail' ≤ p := hp
        show s.write s.tail n src p ≠ none ↔ _
        rw [Stream.write_of_notMem (.inr (by omega)), h.written_iff p (by omega), hc.rest p hp]
      data := h.data_write hw }

theorem seek_enq_length_le {pre : List Chunk}
    (hpre : f.chunks = pre ++ seek len base f.chunks s.tail)
    (hle : base + total len pre ≤ tail') (hl : ∀ x ∈ l, x.2.hi ≤ tail') :
    (seek len (base + total len pre) enq tail').length ≤ 1 := by
  match heq : seek len (base + total len pre) enq tail' with
  | [] => exact Nat.zero_le 1
  | [_] => exact le_refl 1
  | c :: d :: r =>
    obtain ⟨front, hsplit, -, hlt⟩ := exists_of_seek_eq_cons hle heq
    obtain ⟨rest, hrest⟩ := h.enq_prefix
    have hchunks : f.chunks = (pre ++ (front ++ [c])) ++ d :: (r ++ rest) := by
      rw [hpre, ← hrest, hsplit]
      simp
    obtain ⟨x, hx, hstart⟩ := h.enq_le _ d _ hchunks (by simp [hsplit])
    have := hl x hx
    rw [total_append, total_concat] at hstart
    omega

theorem clearEnq (hn : s.tail + n ≤ base + total len f.chunks)
    (hc : Collected o' l (s.tail + n) tail' (s.head + f.size.toNat) l') :
    ∃ rt' enq', fLookupClearEnqChunks f.oooEnqLookup (seek len base f.chunks s.tail)
        (wrap32 tail') o'.head.isNone = (rt', seek len base f.chunks tail') ∧
      rt'.isInit = f.oooEnqLookup.isInit ∧ Registers rt' f.chunks enq' ∧
      enq' <+: seek len base f.chunks tail' ∧ ∀ c ∈ enq', c ∈ enq ∧ l' ≠ [] := by
  have hle := hc.le
  have htail := hc.tail_le h.pending_le hn
  have hlt := h.layout.lt
  obtain ⟨pre, hpre, hstart⟩ := exists_append_seek len f.chunks h.base_le_tail
  have hseek : seek len base f.chunks tail' = seek len (base + total len pre)
      (seek len base f.chunks s.tail) tail' := by
    conv_lhs => rw [hpre]
    exact seek_append_right (by omega)
  have htotal : total len f.chunks = total len pre + total len (seek len base f.chunks s.tail) := by
    conv_lhs => rw [hpre]
    exact total_append _ _ _
  have hlaid := h.layout.laid
  rw [hpre, laid_append] at hlaid
  have hempty : o'.head.isNone = true →
      (seek len (base + total len pre) enq tail').length ≤ 1 := fun hnone => by
    refine h.seek_enq_length_le hpre (by omega) fun x hx => ?_
    have hnil := hc.pending.head_eq_none_iff.mp (Option.isNone_iff_eq_none.mp hnone)
    by_contra hlt'
    obtain ⟨y, hy, -⟩ := hc.exists_le_hi h.pending.apart hx (Nat.lt_of_not_le hlt')
    rw [hnil] at hy
    cases hy
  obtain ⟨rt', hclear, hinit, hreg⟩ := fLookupClearEnqChunks_spec h.enq_registers h.layout.nodup
    h.enq_prefix (fun c hc => seek_suffix.subset hc)
    ((List.Nodup.of_map _ h.layout.nodup).sublist seek_suffix.sublist) hlaid.2
    (by omega) (by omega) (by omega) hempty
  rw [← hseek] at hclear
  refine ⟨rt', _, hclear, hinit, hreg, ?_, fun c hc' => ?_⟩
  · split
    · exact nil_prefix
    · rw [hseek]
      exact seek_prefix h.enq_prefix
  · split at hc'
    · cases hc'
    · rename_i hsome
      exact ⟨seek_suffix.subset hc', fun hnil => hsome
        (Option.isNone_iff_eq_none.mpr (hc.pending.head_eq_none_iff.mpr hnil))⟩

end

theorem append {f' : Fifo}
    (h : Rep f' ⟨s.head, tail', s.write s.tail n src⟩ base l' enq' deq) (hle : s.tail + n ≤ tail') :
    s.Append n src ((tail' - s.tail : Nat) : Int) ⟨s.head, tail', s.write s.tail n src⟩ :=
  ⟨rfl, rfl, hle, h.written_lt, h.written_tail, rfl⟩

/-- **The end of an enqueue.** -/
theorem finishEnqueue (h : Rep f s base l enq deq)
    (hw : Wrote len Chunk.addr f.mem m' base f.chunks s.tail n src)
    (hn : s.tail + n ≤ base + total len f.chunks) (hroom : s.tail + n ≤ s.head + f.size.toNat)
    {oldTailC : Option Nat} (hold : l ≠ [] → oldTailC = f.tailChunk) :
    Appended f s base deq n src
      ((f.moved m' (ptr base f.chunks (s.tail + n))).finishEnqueue oldTailC (wrap32 n) (wrap32 (s.tail + n))) := by
  have hsize := h.size_lt
  have hhead := h.head_le
  by_cases hl : l = []
  · subst hl
    have henq : enq = [] := eq_nil_iff_forall_not_mem.mpr fun c hc => by
      obtain ⟨pre, post, hsplit⟩ := append_of_mem (h.enq_subset c hc)
      obtain ⟨x, hx, -⟩ := h.enq_le pre c post hsplit hc
      cases hx
    have hooo : f.oooEnq = none := h.oooEnq.elim id fun h => absurd rfl h.1
    have hc : Collected f.ooo [] (s.tail + n) (s.tail + n) (s.head + f.size.toNat) [] :=
      { le := le_refl _
        le_bound := hroom
        pending := ⟨h.pending.chained, h.pending.apart, fun _ hx => (nomatch hx),
          fun _ hx => (nomatch hx)⟩
        occupied := fun p h₁ h₂ => absurd h₁ (Nat.not_le_of_lt h₂)
        rest := fun _ _ => Iff.rfl }
    have hrep := h.advance hw hn hc h.enq_registers (henq ▸ nil_prefix)
      fun c hc => absurd (henq ▸ hc) not_mem_nil
    rw [← hooo] at hrep
    refine ⟨_, _, _, [], enq, ?_, ?_, ?_, hrep.append (le_refl _), hrep⟩
    · rw [Fifo.finishEnqueue, if_pos (h.pending.head_eq_none_iff.mpr rfl), toInt_wrap32 (by omega),
        Nat.add_sub_cancel_left]
    · exact ⟨rfl, rfl, rfl, rfl⟩
    · exact hooo
  · obtain ⟨o', tail', l', hcollect, hc⟩ := oooSegmentTryCollect_spec
      h.pending hl (by omega) (by omega) hroom
    rw [Nat.add_sub_cancel_left] at hcollect
    have hle := hc.le
    have hbound := hc.le_bound
    obtain ⟨rt', enq', hclear, hinit, hreg, hpre, hsub⟩ := h.clearEnq hn hc
    have hrep := h.advance hw hn hc hreg hpre hsub
    refine ⟨_, _, _, l', enq', ?_, ?_, ?_, hrep.append hle, hrep⟩
    · rw [Fifo.finishEnqueue, if_neg fun hnone => hl (h.pending.head_eq_none_iff.mp hnone), hold hl,
        h.tailChunk]
      simp only [hcollect, Option.bind_eq_bind, Option.bind_some, wrap32_add,
        fCptr_ptr h.layout.nodup]
      rw [show s.tail + n + (tail' - (s.tail + n)) = tail' by omega,
        show n + (tail' - (s.tail + n)) = tail' - s.tail by omega, hclear, toInt_wrap32 (by omega)]
      rfl
    · exact ⟨rfl, hinit, rfl, rfl⟩
    · rfl

/-! ## In-order data -/

end Rep

theorem copyToTail_spec (hlay : Layout base f.chunks) (htail : f.tailChunk = ptr base f.chunks p)
    (hb : base ≤ p) (hp : p < base + total len f.chunks) (hn : p + n ≤ base + total len f.chunks) :
    ∃ m', f.copyToTail (wrap32 p) src (wrap32 n) = some (f.moved m' (ptr base f.chunks (p + n))) ∧
      Wrote len Chunk.addr f.mem m' base f.chunks p n src := by
  have hlt := hlay.lt
  obtain ⟨m', last, hcopy, hw, hlast⟩ :=
    svmFifoCopyToChunk_spec hlay.laid hlay.nodup hb hp hn (by omega)
  refine ⟨m', ?_, hw⟩
  rw [Fifo.copyToTail, htail, fCptr_ptr hlay.nodup, hcopy]
  show some _ = some _
  rw [hlast]

theorem gatherLen_cons (s : Fifo.FifoSeg) (segs : List Fifo.FifoSeg) :
    gatherLen (s :: segs) = s.len.toNat + gatherLen segs :=
  total_cons _ _ _

/-- The end of the chunks that `svm_fifo_enqueue_segments` copies to. -/
def Fifo.segsEnd (f : Fifo) (answer : Option (List NewChunk)) (len : BitVec 32) : BitVec 32 :=
  if seqGt (f.tail + len) f.endPos then ((f.resetNewest.fTryChunkAlloc answer).getD f).endPos else f.endPos

theorem lt_of_getLast? {e : Nat} (hne : segs ≠ []) (hp : p + gatherLen segs ≤ e)
    (hlast : ∀ s ∈ segs.getLast?, s.len = 0 → p + gatherLen segs < e) : p < e := by
  rcases eq_nil_or_concat segs with rfl | ⟨init, s, rfl⟩
  · exact absurd rfl hne
  · rw [concat_eq_append] at hp hlast
    by_cases h0 : s.len = 0
    · exact lt_of_le_of_lt (Nat.le_add_right _ _) (hlast s getLast?_concat h0)
    · have hs := BitVec.toNat_pos_of_ne_zero h0
      rw [gatherLen, total_concat] at hp
      omega

/-- The loop without `allow_partial`. An empty last segment is copied to where the tail chunk may be
missing. -/
theorem copySegs_spec (hlay : Layout base f.chunks)
    (htail : f.tailChunk = ptr base f.chunks p) (hb : base ≤ p)
    (hp : p + gatherLen segs ≤ base + total len f.chunks)
    (hlast : ∀ s ∈ segs.getLast?, s.len = 0 → p + gatherLen segs < base + total len f.chunks) :
    ∃ m', Fifo.copySegs f (wrap32 p) segs =
        some (f.moved m' (ptr base f.chunks (p + gatherLen segs)), wrap32 (p + gatherLen segs)) ∧
      Wrote len Chunk.addr f.mem m' base f.chunks p (gatherLen segs) (gather segs) := by
  induction segs generalizing f p with
  | nil =>
    exact ⟨f.mem, some_moved_mem htail, Wrote.refl⟩
  | cons s segs ih =>
    have hlt := lt_of_getLast? (cons_ne_nil s segs) hp hlast
    rw [gatherLen_cons] at hp hlast ⊢
    obtain ⟨m₁, hcopy, hw₁⟩ := copyToTail_spec (n := s.len.toNat) hlay htail hb hlt (by omega)
    rw [wrap32_toNat] at hcopy
    obtain ⟨m₂, hrest, hw₂⟩ := ih (f := f.moved m₁ (ptr base f.chunks (p + s.len.toNat)))
      hlay rfl (by omega)
      (by rw [add_assoc]; exact hp)
      (fun t ht h0 => by
        rw [add_assoc]
        exact hlast t (by rw [getLast?_cons, Option.mem_def.mp ht]; rfl) h0)
    refine ⟨m₂, ?_, hw₁.trans hw₂ hb _ fun j _ => rfl⟩
    have hnext : wrap32 p + s.len = wrap32 (p + s.len.toNat) := by rw [← wrap32_add, wrap32_toNat]
    rw [Fifo.copySegs, hcopy]
    show Fifo.copySegs _ (wrap32 p + s.len) segs = _
    rw [hnext, hrest, add_assoc]

theorem copySegsPartial_spec {k : Nat} (hlay : Layout base f.chunks)
    (htail : f.tailChunk = ptr base f.chunks p) (hb : base ≤ p)
    (hp : p + k ≤ base + total len f.chunks) (hk : k ≤ gatherLen segs) :
    ∃ m', Fifo.copySegsPartial f (wrap32 p) (wrap32 k) segs =
        some (f.moved m' (ptr base f.chunks (p + k)), wrap32 (p + k)) ∧
      Wrote len Chunk.addr f.mem m' base f.chunks p k (gather segs) := by
  have hlt := hlay.lt
  induction segs generalizing f p k with
  | nil =>
    obtain rfl : k = 0 := Nat.le_zero.mp hk
    exact ⟨f.mem, some_moved_mem htail, Wrote.refl⟩
  | cons s segs ih =>
    rw [gatherLen_cons] at hk
    by_cases h0 : k = 0
    · subst h0
      exact ⟨f.mem, some_moved_mem htail, Wrote.refl⟩
    · have hne : wrap32 k ≠ 0 := fun h => h0 (by
        rw [← toNat_wrap32 (n := k) (by omega), h]
        rfl)
      have hmin : minW s.len (wrap32 k) = wrap32 (min s.len.toNat k) :=
        BitVec.eq_of_toNat_eq (by rw [toNat_minW, toNat_wrap32 (by omega), toNat_wrap32 (by omega)])
      obtain ⟨c, hc⟩ : ∃ c, c = min s.len.toNat k := ⟨_, rfl⟩
      rw [← hc] at hmin
      obtain ⟨m₁, hcopy, hw₁⟩ := copyToTail_spec (n := c) hlay htail hb (by omega) (by omega)
      obtain ⟨m₂, hrest, hw₂⟩ := ih (f := f.moved m₁ (ptr base f.chunks (p + c)))
        (k := k - c) hlay rfl (by omega) (by show _ ≤ base + total len f.chunks; omega)
        (by omega) hlt
      have hsum : c + (k - c) = k := by omega
      have hw := hw₁.trans hw₂ hb (gather (s :: segs)) fun j hj => by
        rw [gather]
        by_cases hj' : j < c
        · rw [if_pos hj', if_pos (by omega)]
        · rw [if_neg hj', if_neg (by omega), show c = s.len.toNat by omega]
      rw [hsum] at hw
      refine ⟨m₂, ?_, hw⟩
      rw [Fifo.copySegsPartial, if_neg hne, hmin]
      show (f.copyToTail _ _ (wrap32 c)).bind _ = _
      rw [hcopy]
      show Fifo.copySegsPartial _ (wrap32 p + wrap32 c) (wrap32 k - wrap32 c) segs = _
      rw [wrap32_add, wrap32_sub (by omega), hrest, add_assoc, hsum]

namespace Rep

section

variable (h : Rep f s base l enq deq)
include h

theorem enqueueCopy (hlt : s.tail < base + total len f.chunks)
    (hn : s.tail + n ≤ base + total len f.chunks) (hroom : s.tail + n ≤ s.head + f.size.toNat) :
    Appended f s base deq n src (f.enqueueCopy (wrap32 n) src) := by
  obtain ⟨m', hcopy, hw⟩ := copyToTail_spec h.layout h.tailChunk h.base_le_tail hlt hn
  rw [Fifo.enqueueCopy, h.tail_eq, hcopy, wrap32_add]
  exact h.finishEnqueue hw hn hroom fun _ => rfl

theorem segsCopy (hold : l ≠ [] → oldTailC = f.tailChunk)
    (hn : s.tail + gatherLen segs ≤ base + total len f.chunks)
    (hroom : s.tail + gatherLen segs ≤ s.head + f.size.toNat)
    (hlast : ∀ t ∈ segs.getLast?, t.len = 0 → s.tail + gatherLen segs < base + total len f.chunks) :
    Appended f s base deq (gatherLen segs) (gather segs)
      (f.segsCopy oldTailC (wrap32 (gatherLen segs)) segs) := by
  obtain ⟨m', hcopy, hw⟩ := copySegs_spec h.layout h.tailChunk h.base_le_tail hn hlast
  rw [Fifo.segsCopy, h.tail_eq, hcopy]
  exact h.finishEnqueue hw hn hroom hold

theorem segsCopyPartial (hold : l ≠ [] → oldTailC = f.tailChunk)
    (hn : s.tail + n ≤ base + total len f.chunks)
    (hroom : s.tail + n ≤ s.head + f.size.toNat) (hle : n ≤ gatherLen segs) :
    Appended f s base deq n (gather segs) (f.segsCopyPartial oldTailC (wrap32 n) segs) := by
  obtain ⟨m', hcopy, hw⟩ := copySegsPartial_spec h.layout h.tailChunk h.base_le_tail hn hle
  rw [Fifo.segsCopyPartial, h.tail_eq, hcopy]
  exact h.finishEnqueue hw hn hroom hold

theorem resetNewest : Rep f.resetNewest s base l enq deq :=
  { h with pending := ⟨h.pending.chained, h.pending.apart, h.pending.after, h.pending.within⟩ }

theorem le_allocSize (hp : base + total len f.chunks ≤ p) (hlt : p < s.tail + 2 ^ 32) :
    p - (base + total len f.chunks) ≤ (f.allocSize (wrap32 (p - s.tail))).toNat := by
  have htail := h.tail_le
  have hlack : wrap32 (p - s.tail) - (f.endPos - f.tail) =
      wrap32 (p - (base + total len f.chunks)) := by
    rw [h.endPos_eq, h.tail_eq, wrap32_sub htail, wrap32_sub (by omega)]
    congr 1
    omega
  calc p - (base + total len f.chunks)
      = (wrap32 (p - s.tail) - (f.endPos - f.tail)).toNat := by
        rw [hlack, toNat_wrap32 (by omega)]
    _ ≤ (f.allocSize (wrap32 (p - s.tail))).toNat := by
        unfold Fifo.allocSize clibMax
        dsimp only
        split
        · rename_i hgt
          exact le_of_lt hgt
        · exact le_refl _

/-- **Making room.** Either the chunks reach up to `p`, or the allocator is asked; if it answers,
they do so afterwards. -/
theorem grow (hp : s.tail ≤ p) (hroom : p ≤ s.head + f.size.toNat)
    (hans : ∀ cs ∈ answer, GoodAnswer f.chunks (f.allocSize (wrap32 (p - s.tail))) cs) :
    seqGt (wrap32 p) f.endPos = false ∧ p ≤ base + total len f.chunks ∨
    seqGt (wrap32 p) f.endPos = true ∧ base + total len f.chunks < p ∧
      (answer = none ∨ ∃ f', f.fTryChunkAlloc answer = some f' ∧ Rep f' s base l enq deq ∧
        Kept f f' ∧ f'.oooEnq = f.oooEnq ∧ (f.tailChunk ≠ none → f'.tailChunk = f.tailChunk) ∧
        p ≤ base + total len f'.chunks) := by
  have hsize := h.size_lt
  have hhead := h.head_le
  have htail := h.tail_le
  have hlt := h.layout.lt
  have hbase := h.base_le_tail
  rw [h.endPos_eq, seqGt_wrap32 (by omega) (by omega)]
  by_cases hle : p ≤ base + total len f.chunks
  · exact .inl ⟨decide_eq_false (by omega), hle⟩
  have hgt := Nat.lt_of_not_le hle
  refine .inr ⟨decide_eq_true hgt, hgt, ?_⟩
  cases answer with
  | none => exact .inl rfl
  | some cs =>
    obtain ⟨f', halloc, hrep, hkept, hooo, hchunk, htotal⟩ := h.alloc (hans cs rfl)
    refine .inr ⟨f', halloc, hrep, hkept, hooo, hchunk, ?_⟩
    have hasked := h.le_allocSize (p := p) (by omega) (by omega)
    omega

theorem tailChunk_ne_none : f.tailChunk ≠ none ↔ s.tail < base + total len f.chunks := by
  rw [h.tailChunk]
  constructor
  · intro hne
    by_contra hlt
    exact hne (ptr_eq_none (Nat.le_of_not_lt hlt))
  · exact ptr_ne_none h.base_le_tail

end

end Rep

/-- A producer operation that keeps the tie: how it was taken by the stream, and that the cached
out-of-order chunk is the old one or gone. -/
def Produced (f : Fifo) (s : Stream) (base : Nat) (enq deq : List Chunk) (op : Op)
    (result : Option (Fifo × Int)) : Prop :=
  ∃ f' ret s' l' enq', result = some (f', ret) ∧ s.Step f.size.toNat op ⟨ret, []⟩ s' ∧
    Rep f' s' base l' enq' deq ∧ Kept f f' ∧
    (f'.oooEnq = none ∨ f'.oooEnq = f.oooEnq ∧ enq' = enq)

section Produced

variable {f₁ : Fifo} {op : Op} {result : Option (Fifo × Int)}

theorem Appended.produced (h : Appended f₁ s base deq n src result) (hk : Kept f f₁)
    (hstep : ∀ ret s', s.Append n src ret s' → s.Step f.size.toNat op ⟨ret, []⟩ s') :
    Produced f s base enq deq op result := by
  obtain ⟨f', ret, s', l', enq', hres, hkept, hooo, happ, hrep⟩ := h
  exact ⟨f', ret, s', l', enq', hres, hstep ret s' happ, hrep, hk.trans hkept, .inl hooo⟩

theorem Rep.refused (h : Rep f₁ s base l enq deq) (hk : Kept f f₁) (hooo : f₁.oooEnq = f.oooEnq)
    {ret : Int} (hret : ret < 0) (hop : s.MayRefuse f.size.toNat op) :
    Produced f s base enq deq op (some (f₁, ret)) :=
  ⟨f₁, ret, s, l, enq, rfl, .refused hop hret, h, hk, .inr ⟨hooo, rfl⟩⟩

end Produced

namespace Rep

variable {len : BitVec 32}

theorem kept_resetNewest (f : Fifo) : Kept f f.resetNewest := ⟨rfl, rfl, rfl, rfl⟩

/-- **Taking what fits**, for `svm_fifo_enqueue` and `svm_fifo_enqueue_segments` with `allow_partial`: the
chunks grow if `n` bytes do not fit, and if they cannot, the last one is filled. -/
theorem takeWhatFits (h : Rep f s base l enq deq) {op : Op}
    (copy : Fifo → BitVec 32 → Option (Fifo × Int)) (hn : n ≤ s.free f.size.toNat)
    (hans : ∀ cs ∈ answer, GoodAnswer f.chunks (f.allocSize (wrap32 n)) cs)
    (hcopy : ∀ f' k, Rep f' s base l enq deq → (f.tailChunk ≠ none → f'.tailChunk = f.tailChunk) →
      k ≤ n → s.tail + k ≤ base + total Chunk.len f'.chunks →
      s.tail + k ≤ s.head + f'.size.toNat → (k = 0 → n = 0 ∧ f' = f) →
      Appended f' s base deq k src (copy f' (wrap32 k)))
    (hgrow : answer = none → s.MayRefuse f.size.toNat op)
    (hstep : ∀ k ret s', k ≤ n → (answer ≠ none → k = n) → s.Append k src ret s' →
      s.Step f.size.toNat op ⟨ret, []⟩ s') :
    Produced f s base enq deq op
      (if seqGt (wrap32 (s.tail + n)) f.endPos then
        match f.fTryChunkAlloc answer with
        | some f => copy f (wrap32 n)
        | none =>
          if f.endPos - wrap32 s.tail = 0 then some (f, svmFifoEgrow)
          else copy f (f.endPos - wrap32 s.tail)
      else copy f (wrap32 n)) := by
  have hk : Kept f f := ⟨rfl, rfl, rfl, rfl⟩
  have hroom := h.room
  have htail := h.tail_le
  have hlt := h.layout.lt
  have hbase := h.base_le_tail
  rw [Stream.free] at hn
  have hans : ∀ cs ∈ answer, GoodAnswer f.chunks (f.allocSize (wrap32 (s.tail + n - s.tail))) cs := by
    rwa [Nat.add_sub_cancel_left]
  rcases h.grow (p := s.tail + n) (by omega) (by omega) hans with ⟨hgt, hle⟩ | ⟨hgt, hlack, hgrown⟩
  · rw [hgt]
    exact (hcopy f n h (fun _ => rfl) (le_refl n) hle (by omega) fun h0 => ⟨h0, rfl⟩).produced hk
      fun ret s' => hstep n ret s' (le_refl n) fun _ => rfl
  rw [hgt]
  rcases hgrown with rfl | ⟨f', halloc, hrep, hkept, hooo, hchunk, hle⟩
  · have hleft : f.endPos - wrap32 s.tail = wrap32 (base + total Chunk.len f.chunks - s.tail) := by
      rw [h.endPos_eq]
      exact wrap32_sub htail
    rw [hleft]
    by_cases h0 : base + total Chunk.len f.chunks - s.tail = 0
    · rw [if_pos ((wrap32_eq_zero (by omega)).mpr h0)]
      exact h.refused hk rfl (by decide) (hgrow rfl)
    · rw [if_neg fun hz => h0 ((wrap32_eq_zero (by omega)).mp hz)]
      exact (hcopy f _ h (fun _ => rfl) (by omega) (by omega) (by omega) (by omega)).produced hk
        fun ret s' => hstep _ ret s' (by omega) fun hne => absurd rfl hne
  · rw [halloc]
    have hsize := hkept.size
    exact (hcopy f' n hrep hchunk (le_refl n) hle (by rw [hsize]; omega)
      (by omega)).produced hkept fun ret s' => hstep n ret s' (le_refl n) fun _ => rfl

theorem Produced.of_kept {f₁ : Fifo} {op : Op} {result : Option (Fifo × Int)} (hk : Kept f f₁)
    (hooo : f₁.oooEnq = f.oooEnq) (h : Produced f₁ s base enq deq op result) :
    Produced f s base enq deq op result := by
  obtain ⟨f', ret, s', l', enq', hres, hstep, hrep, hkept, hcached⟩ := h
  exact ⟨f', ret, s', l', enq', hres, hk.size ▸ hstep, hrep, hk.trans hkept,
    hcached.imp_right fun h => ⟨h.1.trans hooo, h.2⟩⟩

/-- **`svm_fifo_enqueue`.** With nothing to write the tail chunk is used all the same. -/
theorem svmFifoEnqueue (h : Rep f s base l enq deq) (src : Nat → UInt8)
    (hans : ∀ cs ∈ answer, GoodAnswer f.chunks (f.allocSize (minW f.fFreeCount len)) cs)
    (hlen : len = 0 → f.tailChunk ≠ none) :
    Produced f s base enq deq (.enqueue answer len src) (f.svmFifoEnqueue answer len src) := by
  have hr := h.resetNewest
  have hlt := h.free_lt
  have hfree : f.resetNewest.fFreeCount = wrap32 (s.free f.size.toNat) := hr.fFreeCount_eq
  refine Produced.of_kept (kept_resetNewest f) rfl ?_
  rw [h.fFreeCount_eq, minW_wrap32 (by omega)] at hans
  rw [Fifo.svmFifoEnqueue]
  dsimp only
  rw [hfree, minW_wrap32 (by omega), hr.tail_eq, wrap32_add]
  by_cases hfull : s.free f.size.toNat = 0
  · rw [if_pos ((wrap32_eq_zero (by omega)).mpr hfull)]
    exact hr.refused ⟨rfl, rfl, rfl, rfl⟩ rfl (by decide) (.inl hfull)
  rw [if_neg fun hz => hfull ((wrap32_eq_zero (by omega)).mp hz)]
  refine hr.takeWhatFits (fun f len => f.enqueueCopy len src) (min_le_right _ _) hans
    (fun f' k hrep _ _ hle hroom h0 => hrep.enqueueCopy ?_ hle hroom) .inr
    fun k ret s' hk hall happ => .enqueue k hk hall happ
  by_cases hz : k = 0
  · obtain ⟨hmin, rfl⟩ := h0 hz
    have hlen' : len = 0 := BitVec.eq_of_toNat_eq (by
      show len.toNat = 0
      omega)
    exact h.tailChunk_ne_none.mp (hlen hlen')
  · omega

theorem sum_len_eq : (segs.map Fifo.FifoSeg.len).sum = wrap32 (gatherLen segs) := by
  induction segs with
  | nil => rfl
  | cons s segs ih => rw [map_cons, sum_cons, ih, gatherLen_cons, ← wrap32_add, wrap32_toNat]

section

variable (h : Rep f s base l enq deq)
include h

theorem tailChunk_ne_none_of_pending (hl : l ≠ []) : f.tailChunk ≠ none := by
  obtain ⟨x, hx⟩ := exists_mem_of_ne_nil l hl
  have h₁ := h.pending.after x hx
  have h₂ := h.pending.apart.pos x hx
  have h₃ := h.pending_le x hx
  exact h.tailChunk_ne_none.mpr (by omega)

/-- **`svm_fifo_enqueue_segments`.** -/
theorem svmFifoEnqueueSegments {allowPartial : Bool} (hans : ∀ cs ∈ answer, GoodAnswer f.chunks
      (f.allocSize (minW f.fFreeCount (segs.map Fifo.FifoSeg.len).sum)) cs)
    (hlt : gatherLen segs < 2 ^ 32)
    (hlast : allowPartial = false → ∀ s ∈ segs.getLast?, s.len = 0 →
      f.tail + (segs.map Fifo.FifoSeg.len).sum ≠ f.segsEnd answer (segs.map Fifo.FifoSeg.len).sum) :
    Produced f s base enq deq (.enqueueSegments answer segs allowPartial)
      (f.svmFifoEnqueueSegments answer segs allowPartial) := by
  have hr := h.resetNewest
  have hfree_lt := h.free_lt
  have hfree : f.resetNewest.fFreeCount = wrap32 (s.free f.size.toNat) := hr.fFreeCount_eq
  refine Produced.of_kept (kept_resetNewest f) rfl ?_
  rw [h.fFreeCount_eq, minW_wrap32 (by omega), sum_len_eq, toNat_wrap32 hlt] at hans
  rw [Fifo.svmFifoEnqueueSegments]
  dsimp only
  rw [hfree, minW_wrap32 (by omega), hr.tail_eq, wrap32_add, sum_len_eq, toNat_wrap32 hlt]
  by_cases hfull : s.free f.size.toNat = 0
  · rw [if_pos ((wrap32_eq_zero (by omega)).mpr hfull)]
    exact hr.refused ⟨rfl, rfl, rfl, rfl⟩ rfl (by decide) (.inl hfull)
  rw [if_neg fun hz => hfull ((wrap32_eq_zero (by omega)).mp hz)]
  cases allowPartial with
  | true =>
    refine hr.takeWhatFits (fun f' len => f'.segsCopyPartial f.resetNewest.tailChunk len segs)
      (min_le_right _ _) hans
      (fun f' k hrep hchunk hk hle hroom _ => hrep.segsCopyPartial ?_ hle hroom (by omega))
      (fun h => .inr (.inl h)) fun k ret s' hk hall happ =>
        .enqueueSegments k hk (fun h => hall (h.resolve_right (fun h => nomatch h))) happ
    exact fun hl => (hchunk (h.tailChunk_ne_none_of_pending hl)).symm
  | false =>
    by_cases hfit : s.free f.size.toNat < gatherLen segs
    · rw [if_pos (wrap32_lt (by omega) hlt |>.mpr hfit)]
      exact hr.refused ⟨rfl, rfl, rfl, rfl⟩ rfl (by decide) (.inr (.inr ⟨rfl, hfit⟩))
    rw [if_neg fun hz => hfit (wrap32_lt (by omega) hlt |>.mp hz), wrap32_add]
    have hdef : s.free f.size.toNat = s.head + f.size.toNat - s.tail := rfl
    have hn : gatherLen segs = min (gatherLen segs) (s.free f.size.toNat) := by omega
    rw [← hn] at hans
    have hstep : ∀ ret s', s.Append (gatherLen segs) (gather segs) ret s' →
        s.Step f.size.toNat (.enqueueSegments answer segs false) ⟨ret, []⟩ s' :=
      fun ret s' happ => .enqueueSegments _ (by omega) (fun _ => hn) happ
    rw [← Nat.add_sub_cancel_left s.tail (gatherLen segs)] at hans
    have hlast := hlast rfl
    rw [Fifo.segsEnd, sum_len_eq, h.tail_eq, wrap32_add] at hlast
    have hbefore : ∀ {f' : Fifo} {l' enq'}, Rep f' s base l' enq' deq →
        s.tail + gatherLen segs ≤ base + total Chunk.len f'.chunks →
        wrap32 (s.tail + gatherLen segs) ≠ f'.endPos →
        s.tail + gatherLen segs < base + total Chunk.len f'.chunks := fun hrep hle hne =>
      lt_of_le_of_ne hle fun he => hne (by rw [he, hrep.endPos_eq])
    rcases hr.grow (by omega) (by show _ ≤ s.head + f.size.toNat; omega) hans with
      ⟨hgt, hle⟩ | ⟨hgt, hlack, hnone | ⟨f', halloc, hrep, hkept, hooo, hchunk, hle⟩⟩
    · have hne : seqGt (wrap32 (s.tail + gatherLen segs)) f.endPos = false := hgt
      rw [hne] at hlast
      rw [hgt]
      exact (hr.segsCopy (fun _ => rfl) hle (by show _ ≤ s.head + f.size.toNat; omega)
        fun t ht h0 => hbefore hr hle (hlast t ht h0)).produced ⟨rfl, rfl, rfl, rfl⟩ hstep
    · rw [hgt, hnone]
      exact hr.refused ⟨rfl, rfl, rfl, rfl⟩ rfl (by decide) (.inr (.inl rfl))
    have hgrow : seqGt (wrap32 (s.tail + gatherLen segs)) f.endPos = true := hgt
    rw [hgrow, halloc] at hlast
    rw [hgt, halloc]
    have hsize := hkept.size
    refine (hrep.segsCopy (fun hl => ?_) hle ?_
      fun t ht h0 => hbefore hrep hle (hlast t ht h0)).produced hkept hstep
    · exact (hchunk (h.tailChunk_ne_none_of_pending hl)).symm
    · rw [hsize]
      show _ ≤ s.head + f.size.toNat
      omega

/-! ## Out-of-order data -/

theorem le_of_lookedUp {hit isInit : Bool} {front first enq' : List Chunk} {l' : List (Nat × Span)}
    {a b : Nat} (hsplit : f.chunks = front ++ first) (hoff : isInit = false → enq' = [])
    (hup : LookedUp hit isInit (base + total Chunk.len front) first a b enq enq')
    (hb : base + total Chunk.len front ≤ b) (hlast : ∃ x ∈ l', b ≤ x.2.hi)
    (hold : ∀ x ∈ l, ∃ y ∈ l', x.2.hi ≤ y.2.hi) :
    ∀ pre c post, f.chunks = pre ++ c :: post → c ∈ enq' →
      ∃ x ∈ l', base + total Chunk.len pre ≤ x.2.hi := by
  intro pre c post heq hc
  have hkeep : enq' = enq → ∃ x ∈ l', base + total Chunk.len pre ≤ x.2.hi := fun h' => by
    obtain ⟨x, hx, hle⟩ := h.enq_le pre c post heq (h' ▸ hc)
    obtain ⟨y, hy, hle'⟩ := hold x hx
    exact ⟨y, hy, hle.trans hle'⟩
  cases hit with
  | true => exact hkeep (hup.kept (.inl rfl))
  | false =>
    by_cases hpre : enq <+: through Chunk.len (base + total Chunk.len front) first a
    · cases isInit with
      | false =>
        rw [hoff rfl] at hc
        cases hc
      | true =>
        obtain ⟨pre', post', hmid⟩ := append_of_mem hc
        obtain ⟨rest, hrest⟩ := hup.prefix_first
        have heq' : pre ++ c :: post = (front ++ pre') ++ c :: (post' ++ rest) := by
          rw [← heq, hsplit, ← hrest, hmid]
          simp
        obtain ⟨x, hx, hle⟩ := hlast
        have hpos := le_of_through_eq hb ((hup.grown rfl rfl hpre).symm.trans hmid)
        rw [(split_unique heq' (heq ▸ List.Nodup.of_map _ h.layout.nodup)).1, total_append]
        exact ⟨x, hx, by omega⟩
    · exact hkeep (hup.kept (.inr hpre))

/-- **Data past the tail.** -/
theorem offsetCopy (src : Nat → UInt8) {a b : Nat} (ha : s.tail < a) (hab : a < b)
    (hb : b ≤ base + total Chunk.len f.chunks) (hroom : b ≤ s.head + f.size.toNat) :
    ∃ f' l' enq' front, f.offsetCopy (wrap32 (a - s.tail)) (wrap32 (b - a)) src = some (f', 0) ∧
      Rep f' { s with written := s.write a (b - a) src } base l' enq' deq ∧ Kept f f' ∧
      f'.chunks = f.chunks ∧ f'.oooEnq = ptr base f.chunks b ∧
      f.chunks = front ++ seek Chunk.len base f.chunks s.tail ∧
      LookedUp ((fCptr f.chunks f.oooEnq).head?.any (·.fChunkIncludesPos (wrap32 a)))
        f.oooEnqLookup.isInit (base + total Chunk.len front)
        (seek Chunk.len base f.chunks s.tail) a b enq enq' := by
  have hsize := h.size_lt
  have hhead := h.head_le
  have hbase := h.base_le_tail
  obtain ⟨o', l', hadd, hpend, hocc⟩ := oooSegmentAdd_spec h.pending (by omega) ha hab hroom
  obtain ⟨front, hfront, hstart⟩ := exists_append_seek Chunk.len f.chunks h.base_le_tail
  have hcached : f.oooEnq = none ∨ ∃ q, base ≤ q ∧ f.oooEnq = ptr base f.chunks q :=
    h.oooEnq.imp_right fun ⟨_, q, hq, hptr⟩ => ⟨q, hbase.trans hq, hptr⟩
  obtain ⟨rt', enq', hlook, hinit, hreg, hup⟩ := lookUp_spec (p := a) (e := b) h.layout
    h.enq_registers hfront h.enq_prefix hcached (by omega) (by omega) (by omega) hb
  obtain ⟨m', last, hcopy, hw, hlast⟩ := svmFifoCopyToChunk_spec (m := f.mem) (p := a)
    (n := b - a) h.layout.laid h.layout.nodup (by omega) (by omega) (by omega) (by omega)
  have hsum : a + (b - a) = b := by omega
  rw [hsum] at hlast
  refine ⟨{ f with ooo := o', mem := m', oooEnqLookup := rt', oooEnq := ptr base f.chunks b }, l',
    enq', front, ?_, ?_, ⟨rfl, hinit, rfl, rfl⟩, rfl, rfl, hfront, hup⟩
  · have hpos : f.tail + wrap32 (a - s.tail) = wrap32 a := by
      rw [h.tail_eq, wrap32_add]
      congr 1
      omega
    have hend : wrap32 a + wrap32 (b - a) = wrap32 b := by rw [wrap32_add, hsum]
    rw [Fifo.offsetCopy, hpos, Fifo.oooEnqChunk, h.tailChunk, fCptr_ptr h.layout.nodup, hend,
      h.tail_eq, hadd]
    rw [hlook]
    show (Option.bind (svmFifoCopyToChunk _ (fCptr f.chunks (ptr base f.chunks a)) _ _ _) _) = _
    rw [fCptr_ptr h.layout.nodup, hcopy]
    show some _ = some _
    rw [hlast]
  have hmem : ∀ p, Occupied l' p → ∃ x ∈ l', p < x.2.hi := fun p hp => by
    obtain ⟨x, hx, -, hlt⟩ := occupied_iff.mp hp
    exact ⟨x, hx, hlt⟩
  have hlast' : ∃ x ∈ l', b ≤ x.2.hi := by
    obtain ⟨x, hx, hlt⟩ := hmem (b - 1) ((hocc _).mpr (.inr ⟨by omega, by omega⟩))
    exact ⟨x, hx, by omega⟩
  have hold : ∀ x ∈ l, ∃ y ∈ l', x.2.hi ≤ y.2.hi := fun x hx => by
    obtain ⟨y, hy, hlt⟩ := hmem _ ((hocc _).mpr (.inl (h.pending.apart.occupied_hi hx)))
    exact ⟨y, hy, by omega⟩
  exact
    { h with
      pending := hpend
      pending_le := fun x hx => by
        rcases (hocc _).mp (hpend.apart.occupied_hi hx) with hin | hin
        · obtain ⟨y, hy, -, hlt⟩ := occupied_iff.mp hin
          have := h.pending_le y hy
          show x.2.hi ≤ base + total Chunk.len f.chunks
          omega
        · show x.2.hi ≤ base + total Chunk.len f.chunks
          omega
      oooEnq := .inr ⟨ne_nil_of_mem hlast'.choose_spec.1, b, by show s.tail ≤ b; omega, rfl⟩
      enq_registers := hreg
      enq_prefix := hup.prefix_first
      enq_le := h.le_of_lookedUp hfront (fun hoff => hreg.off (hinit.trans hoff)) hup (by omega)
        hlast' hold
      written_lt := fun p hp => by
        exact Stream.write_ne_none.mpr (.inl (h.written_lt p hp))
      written_iff := fun p hp => by
        rw [Stream.write_ne_none, h.written_iff p hp, hocc, hsum]
      data := h.data_write hw }

end

end Rep

/-- When `svm_fifo_enqueue_with_offset` gives an error: the data does not fit, or the chunks have to
grow and cannot. -/
def Fifo.Refuses (f : Fifo) (answer : Option (List NewChunk)) (offset len : BitVec 32) : Prop :=
  f.fFreeCount < len + offset ∨ (seqGt (f.tail + offset + len) f.endPos = true ∧ answer = none)

/-- What writing at `a` up to `b`, past the tail, did to the cached chunk and the lookup tree; `f₁`
is the fifo once its chunks had grown. -/
structure WroteAhead (f f₁ f' : Fifo) (s : Stream) (base : Nat) (l : List (Nat × Span))
    (enq enq' deq : List Chunk) (answer : Option (List NewChunk)) (a b : Nat) : Prop where
  grown : seqGt (wrap32 b) f.endPos = false ∧ f₁ = f.resetNewest ∨
    seqGt (wrap32 b) f.endPos = true ∧ f.resetNewest.fTryChunkAlloc answer = some f₁
  kept : Kept f f₁
  cached : f₁.oooEnq = f.oooEnq
  rep : Rep f₁ s base l enq deq
  le : b ≤ base + total len f₁.chunks
  chunks : f'.chunks = f₁.chunks
  oooEnq : f'.oooEnq = ptr base f₁.chunks b
  lookedUp : ∃ front, f₁.chunks = front ++ seek len base f₁.chunks s.tail ∧
    LookedUp ((fCptr f₁.chunks f₁.oooEnq).head?.any (·.fChunkIncludesPos (wrap32 a)))
      f₁.oooEnqLookup.isInit (base + total len front)
      (seek len base f₁.chunks s.tail) a b enq enq'

namespace Rep

variable {len : BitVec 32}

/-- **`svm_fifo_enqueue_with_offset`.** -/
theorem svmFifoEnqueueWithOffset (h : Rep f s base l enq deq) (src : Nat → UInt8) {offset : BitVec 32}
    (hans : ∀ cs ∈ answer, GoodAnswer f.chunks (f.allocSize (offset + len)) cs)
    (hoffset : 0 < offset.toNat) (hlen : 0 < len.toNat) (hlt : offset.toNat + len.toNat < 2 ^ 32) :
    ∃ f' ret s' l' enq', f.svmFifoEnqueueWithOffset answer offset len src = some (f', ret) ∧
      s.Step f.size.toNat (.enqueueWithOffset answer offset len src) ⟨ret, []⟩ s' ∧
      Rep f' s' base l' enq' deq ∧ Kept f f' ∧
      (f.Refuses answer offset len ∧ f'.oooEnq = f.oooEnq ∧ enq' = enq ∨
        ¬ f.Refuses answer offset len ∧
          ∃ f₁, WroteAhead f f₁ f' s base l enq enq' deq answer (s.tail + offset.toNat)
            (s.tail + offset.toNat + len.toNat)) := by
  have hr := h.resetNewest
  have hfree_lt := h.free_lt
  have hk := kept_resetNewest f
  have hfree : f.resetNewest.fFreeCount = wrap32 (s.free f.size.toNat) := hr.fFreeCount_eq
  have hdef : s.free f.size.toNat = s.head + f.size.toNat - s.tail := rfl
  have hsum : len + offset = wrap32 (offset.toNat + len.toNat) := by
    rw [← wrap32_add, wrap32_toNat, wrap32_toNat, BitVec.add_comm]
  have hend : wrap32 s.tail + offset + len = wrap32 (s.tail + offset.toNat + len.toNat) := by
    rw [← wrap32_add, ← wrap32_add, wrap32_toNat, wrap32_toNat]
  rw [BitVec.add_comm, hsum] at hans
  have hrefuses : f.Refuses answer offset len ↔ s.free f.size.toNat < offset.toNat + len.toNat ∨
      (seqGt (wrap32 (s.tail + offset.toNat + len.toNat)) f.endPos = true ∧ answer = none) := by
    rw [Fifo.Refuses, h.fFreeCount_eq, hsum, h.tail_eq, hend, wrap32_lt (by omega) hlt]
  rw [Fifo.svmFifoEnqueueWithOffset, hfree, hsum, hr.tail_eq, hend, hrefuses]
  by_cases hfit : s.free f.size.toNat < offset.toNat + len.toNat
  · rw [if_pos ((wrap32_lt (by omega) hlt).mpr hfit)]
    exact ⟨_, _, s, l, enq, rfl, .refused (.inl hfit) (by decide), hr, hk,
      .inl ⟨.inl hfit, rfl, rfl⟩⟩
  rw [if_neg fun hz => hfit ((wrap32_lt (by omega) hlt).mp hz)]
  have hcopy : ∀ f₁, (seqGt (wrap32 (s.tail + offset.toNat + len.toNat)) f.endPos = false ∧
        f₁ = f.resetNewest ∨
        seqGt (wrap32 (s.tail + offset.toNat + len.toNat)) f.endPos = true ∧
          f.resetNewest.fTryChunkAlloc answer = some f₁) →
      Kept f f₁ → f₁.oooEnq = f.oooEnq → Rep f₁ s base l enq deq →
      s.tail + offset.toNat + len.toNat ≤ base + total Chunk.len f₁.chunks →
      ∃ f' ret s' l' enq', f₁.offsetCopy offset len src = some (f', ret) ∧
        s.Step f.size.toNat (.enqueueWithOffset answer offset len src) ⟨ret, []⟩ s' ∧
        Rep f' s' base l' enq' deq ∧ Kept f f' ∧
        ∃ f₁, WroteAhead f f₁ f' s base l enq enq' deq answer (s.tail + offset.toNat)
          (s.tail + offset.toNat + len.toNat) := by
    intro f₁ hgrown hkept hcached hrep hle
    have hsize := hkept.size
    obtain ⟨f', l', enq', front, hcopy, hrep', hkept', hchunks, hooo, hfront, hup⟩ :=
      hrep.offsetCopy (a := s.tail + offset.toNat)
        src (by omega) (by omega) hle (by rw [hsize]; omega)
    rw [Nat.add_sub_cancel_left, Nat.add_sub_cancel_left, wrap32_toNat, wrap32_toNat] at hcopy
    rw [Nat.add_sub_cancel_left] at hrep'
    exact ⟨f', 0, _, l', enq', hcopy, .enqueueWithOffset, hrep', hkept.trans hkept',
      f₁, hgrown, hkept, hcached, hrep, hle, hchunks, hooo, front, hfront, hup⟩
  rw [← Nat.add_sub_cancel_left s.tail (offset.toNat + len.toNat), ← Nat.add_assoc] at hans
  rcases hr.grow (by omega) (by show _ ≤ s.head + f.size.toNat; omega) hans with
    ⟨hgt, hle⟩ | ⟨hgt, hlack, hnone | ⟨f₁, halloc, hrep, hkept, hooo, hchunk, hle⟩⟩
  · rw [hgt]
    obtain ⟨f', ret, s', l', enq', h₁, h₂, h₃, h₄, h₅⟩ := hcopy _ (.inl ⟨hgt, rfl⟩) hk rfl hr hle
    exact ⟨f', ret, s', l', enq', h₁, h₂, h₃, h₄,
      .inr ⟨fun h => h.elim hfit fun h => Bool.false_ne_true (hgt.symm.trans h.1), h₅⟩⟩
  · rw [hgt, hnone]
    exact ⟨_, _, s, l, enq, rfl, .refused (.inr rfl) (by decide), hr, hk,
      .inl ⟨.inr ⟨hgt, rfl⟩, rfl, rfl⟩⟩
  · rw [hgt, halloc]
    obtain ⟨f', ret, s', l', enq', h₁, h₂, h₃, h₄, h₅⟩ :=
      hcopy f₁ (.inr ⟨hgt, halloc⟩) (hk.trans hkept) hooo hrep hle
    refine ⟨f', ret, s', l', enq', h₁, h₂, h₃, h₄, .inr ⟨fun h => h.elim hfit fun hn => ?_, h₅⟩⟩
    rw [hn.2] at halloc
    cases halloc

end Rep

end Vpp.SvmFifo
