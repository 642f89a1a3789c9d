import Vpp.Lib.Blocks
import Vpp.Lib.Serial

/-!
# Chunks of a fifo

`svm_fifo_chunk_t`, the position tests of `svm_fifo.h`, and the copy routines of `svm_fifo.c` that
walk the chunk list. A fifo's chunks stand in a list in the order of their `next` links, and a
pointer to a chunk is its address; following a pointer gives the list from that chunk on. The data
of all chunks is one memory, indexed by chunk address and offset.

A function answers `none` where the C would follow a null pointer or touch a byte outside a chunk.
-/

namespace Vpp.SvmFifo

open Lib Lib.Blocks List

/-- `svm_fifo_chunk_t` without its data and its places in the lookup trees -/
structure Chunk where
  addr : Nat
  startByte : BitVec 32
  length : BitVec 32
deriving DecidableEq, Repr

abbrev Memory := Nat → Nat → UInt8

namespace Chunk

def len (c : Chunk) : Nat := c.length.toNat

/-- `f_chunk_end` -/
def fChunkEnd (c : Chunk) : BitVec 32 := c.startByte + c.length

/-- `f_chunk_includes_pos` -/
def fChunkIncludesPos (c : Chunk) (pos : BitVec 32) : Bool :=
  seqGeq pos c.startByte && seqLt pos (c.startByte + c.length)

end Chunk

/-- `f_cptr`: the chunks from the one at an address on; none for a null pointer. -/
def fCptr (chunks : List Chunk) : Option Nat → List Chunk
  | none => []
  | some a => chunks.dropWhile fun c => c.addr ≠ a

/-- `f_csptr`: the address of the first chunk of a list -/
def fCsptr (chunks : List Chunk) : Option Nat := chunks.head?.map Chunk.addr

/-- The loop of `svm_fifo_copy_to_chunk` after the first chunk: the memory, and the chunks from the
one it stops at. -/
def copyToRest (src : Nat → UInt8) : List Chunk → Memory → Nat → Nat →
    Option (Memory × List Chunk)
  | [], m, _, toCopy => if toCopy = 0 then some (m, []) else none
  | c :: cs, m, off, toCopy =>
    if toCopy = 0 then some (m, c :: cs)
    else
      let nChunk := min c.len toCopy
      let m := fill m c.addr 0 src off nChunk
      if c.len ≤ toCopy then copyToRest src cs m (off + nChunk) (toCopy - nChunk)
      else some (m, c :: cs)

/-- `svm_fifo_copy_to_chunk`: the memory, and what is stored through `last` if anything is. No
caller passes a `last` that points at 0. -/
def svmFifoCopyToChunk (m : Memory) (cs : List Chunk) (tailIdx : BitVec 32) (src : Nat → UInt8)
    (len : BitVec 32) : Option (Memory × Option (Option Nat)) :=
  match cs with
  | [] => none
  | c :: cs =>
    let idx := tailIdx - c.startByte
    let nChunk := c.length - idx
    if nChunk ≤ len then
      if idx.toNat + nChunk.toNat ≤ c.len then
        (copyToRest src cs (fill m c.addr idx.toNat src 0 nChunk.toNat) nChunk.toNat
          (len.toNat - nChunk.toNat)).map fun r => (r.1, some (fCsptr r.2))
      else none
    else if idx.toNat + len.toNat ≤ c.len then some (fill m c.addr idx.toNat src 0 len.toNat, none)
    else none

/-- The loop of `svm_fifo_copy_from_chunk` after the first chunk. -/
def copyFromRest (m : Memory) : List Chunk → Nat → Option (List UInt8 × List Chunk)
  | [], toCopy => if toCopy = 0 then some ([], []) else none
  | c :: cs, toCopy =>
    if toCopy = 0 then some ([], c :: cs)
    else
      let nChunk := min c.len toCopy
      let bytes := (List.range nChunk).map fun j => m c.addr j
      if c.len ≤ toCopy then
        (copyFromRest m cs (toCopy - nChunk)).map fun r => (bytes ++ r.1, r.2)
      else some (bytes, c :: cs)

/-- `svm_fifo_copy_from_chunk`: the bytes at `dst`, and what is stored through `last` -/
def svmFifoCopyFromChunk (m : Memory) (cs : List Chunk) (headIdx : BitVec 32) (len : BitVec 32) :
    Option (List UInt8 × Option (Option Nat)) :=
  match cs with
  | [] => none
  | c :: cs =>
    let idx := headIdx - c.startByte
    let nChunk := c.length - idx
    let bytes (n : Nat) := (List.range n).map fun j => m c.addr (idx.toNat + j)
    if nChunk ≤ len then
      if idx.toNat + nChunk.toNat ≤ c.len then
        (copyFromRest m cs (len.toNat - nChunk.toNat)).map fun r =>
          (bytes nChunk.toNat ++ r.1, some (fCsptr r.2))
      else none
    else if idx.toNat + len.toNat ≤ c.len then some (bytes len.toNat, none)
    else none

/-! ## Chunks over a stream -/

/-- The chunks lie end to end from stream position `base` on, each with the start byte that names
its position and none empty. -/
def Laid : Nat → List Chunk → Prop
  | _, [] => True
  | base, c :: cs => c.startByte = wrap32 base ∧ 0 < c.len ∧ Laid (base + c.len) cs

open Chunk (len)

variable {base : Nat} {pre post : List Chunk}

theorem laid_append :
    Laid base (pre ++ post) ↔ Laid base pre ∧ Laid (base + total len pre) post := by
  induction pre generalizing base with
  | nil => exact ⟨fun h => ⟨trivial, h⟩, fun h => h.2⟩
  | cons c pre ih =>
    rw [cons_append, Laid, Laid, ih, total_cons, add_assoc, and_assoc, and_assoc]

variable {c : Chunk} {i : Nat}

theorem Laid.startByte (h : Laid base cs) (hcs : cs = pre ++ c :: post) :
    c.startByte = wrap32 (base + total len pre) := by
  rw [hcs, laid_append] at h
  exact h.2.1

theorem Chunk.length_eq (c : Chunk) : c.length = wrap32 c.len :=
  (wrap32_toNat c.length).symm

theorem Chunk.len_lt (c : Chunk) : c.len < 2 ^ 32 := c.length.isLt

section

variable {base p n : Nat} {c : Chunk} {cs pre post : List Chunk}

theorem fChunkEnd_eq (h : c.startByte = wrap32 base) : c.fChunkEnd = wrap32 (base + c.len) := by
  rw [Chunk.fChunkEnd, h, c.length_eq, wrap32_add]

theorem fChunkIncludesPos_eq (h : c.startByte = wrap32 base) (h₁ : p < base + 2 ^ 31)
    (h₂ : base + c.len ≤ p + 2 ^ 31) :
    c.fChunkIncludesPos (wrap32 p) = decide (base ≤ p ∧ p < base + c.len) := by
  rw [Chunk.fChunkIncludesPos, h, c.length_eq, wrap32_add, seqGeq_wrap32 h₁ (by omega),
    seqLt_wrap32 (by omega) h₂, Bool.decide_and]

/-- The address of the chunk that holds a position; null past the last chunk. -/
def ptr (base : Nat) (cs : List Chunk) (p : Nat) : Option Nat := fCsptr (seek len base cs p)

theorem find?_includesPos (hl : Laid base cs) (hb : base ≤ p) (hp : p < base + 2 ^ 31)
    (ht : total len cs < 2 ^ 31) :
    cs.find? (·.fChunkIncludesPos (wrap32 p)) = (seek len base cs p).head? := by
  induction cs generalizing base with
  | nil => rfl
  | cons c cs ih =>
    obtain ⟨hs, hpos, hl⟩ := hl
    rw [total_cons] at ht
    have hinc := fChunkIncludesPos_eq hs hp (by omega)
    rw [seek]
    by_cases h : p < base + c.len
    · rw [if_pos h, find?_cons_of_pos (by rw [hinc]; simp [hb, h])]
      rfl
    · rw [if_neg h, find?_cons_of_neg (by rw [hinc]; simp [h])]
      exact ih hl (by omega) (by omega) (by omega)

theorem fCptr_fCsptr (hnd : ((pre ++ post).map Chunk.addr).Nodup) :
    fCptr (pre ++ post) (fCsptr post) = post := by
  cases post with
  | nil => rfl
  | cons c post =>
    show (pre ++ c :: post).dropWhile (fun d => decide (d.addr ≠ c.addr)) = _
    rw [map_append, nodup_append] at hnd
    have hpre : ∀ d ∈ pre, decide (d.addr ≠ c.addr) = true := fun d hd =>
      decide_eq_true (hnd.2.2 _ (mem_map_of_mem hd) _ mem_cons_self)
    rw [dropWhile_append_of_pos hpre, dropWhile_cons_of_neg (by simp)]

theorem fCptr_ptr (hnd : (cs.map Chunk.addr).Nodup) :
    fCptr cs (ptr base cs p) = seek len base cs p := by
  obtain ⟨pre, hpre⟩ : seek len base cs p <:+ cs := seek_suffix
  rw [← hpre] at hnd
  nth_rewrite 1 [← hpre]
  exact fCptr_fCsptr hnd

/-! ## The copy routines -/

variable {m : Memory} {src : Nat → UInt8} {all : List Chunk} {q : Nat}

theorem Laid.pos (h : Laid base cs) : ∀ c ∈ cs, 0 < c.len := by
  induction cs generalizing base with
  | nil => exact fun _ h => nomatch h
  | cons c cs ih =>
    intro d hd
    rcases mem_cons.mp hd with rfl | hd
    · exact h.2.1
    · exact ih h.2.2 d hd

theorem total_from (hi : i < c.len) :
    base + total len pre + i + (c.len - i) = base + total len (pre ++ [c]) := by
  rw [total_concat]
  omega

/-- From a chunk boundary `q` on, the copy loop writes the next `n` positions and stops at the chunk
that holds the position after them. -/
theorem copyToRest_spec (m : Memory) (off n : Nat) (hall : all = pre ++ cs) (hq : q = base + total len pre)
    (hnd : (all.map Chunk.addr).Nodup) (hpos : ∀ c ∈ cs, 0 < c.len) (hn : n ≤ total len cs) :
    ∃ m', copyToRest src cs m off n = some (m', seek len q cs (q + n)) ∧
      Wrote len Chunk.addr m m' base all q n fun j => src (off + j) := by
  induction cs generalizing pre q m off n with
  | nil =>
    obtain rfl : n = 0 := by simpa using hn
    exact ⟨m, rfl, Wrote.refl⟩
  | cons c cs ih =>
    have hc := hpos c mem_cons_self
    rw [copyToRest, seek]
    by_cases h0 : n = 0
    · subst h0
      rw [if_pos rfl, if_pos (by omega)]
      exact ⟨m, rfl, Wrote.refl⟩
    rw [if_neg h0]
    have hfill : ∀ k, k ≤ c.len → Wrote len Chunk.addr m (fill m c.addr 0 src off k) base all q k
        fun j => src (off + j) := by
      intro k hk
      subst hall hq
      exact wrote_fill hnd (by omega)
    by_cases hlen : c.len ≤ n
    · rw [total_cons] at hn
      obtain ⟨m', hm', hw⟩ := ih (q := q + c.len) (fill m c.addr 0 src off c.len) (off + c.len) (n - c.len)
        (hall.trans (append_cons ..)) (by rw [hq, total_concat, add_assoc])
        (fun d hd => hpos d (mem_cons_of_mem _ hd)) (by omega)
      refine ⟨m', ?_, ?_⟩
      · simp only [min_eq_left hlen, if_pos hlen]
        rw [hm', if_neg (by omega)]
        congr 3
        omega
      · have := (hfill _ le_rfl).trans hw (by omega) (fun j => src (off + j)) fun j _ => ?_
        · rwa [Nat.add_sub_cancel' hlen] at this
        · split
          · rfl
          · congr 1
            omega
    · simp only [if_neg hlen, min_eq_right (Nat.le_of_not_le hlen)]
      rw [if_pos (by omega)]
      exact ⟨_, rfl, hfill n (by omega)⟩

theorem locate (hl : Laid base cs) (hb : base ≤ p) (hp : p < base + total len cs) :
    ∃ pre c post i, cs = pre ++ c :: post ∧ p = base + total len pre + i ∧ i < c.len ∧
      seek len base cs p = c :: post ∧ wrap32 p - c.startByte = wrap32 i ∧
      c.length - wrap32 i = wrap32 (c.len - i) ∧ ∀ d ∈ post, 0 < d.len := by
  obtain ⟨pre, c, post, rfl, h₁, h₂⟩ := exists_split hb hp
  obtain ⟨hs, -, hpost⟩ := (laid_append.mp hl).2
  obtain ⟨i, rfl⟩ := Nat.exists_eq_add_of_le h₁
  refine ⟨pre, c, post, i, rfl, rfl, by omega, seek_split h₁ h₂, ?_, ?_, hpost.pos⟩
  · rw [hs, wrap32_sub h₁, Nat.add_sub_cancel_left]
  · rw [c.length_eq, wrap32_sub (by omega)]

theorem ptr_locate : ptr base (pre ++ c :: post) (base + total len pre + i) =
    if c.len ≤ i then fCsptr (seek len (base + total len pre + c.len) post
      (base + total len pre + i)) else some c.addr := by
  rw [ptr, seek_append_right (Nat.le_add_right _ _), seek]
  by_cases h : c.len ≤ i
  · rw [if_neg (by omega), if_pos h]
  · rw [if_pos (by omega), if_neg h]
    rfl

theorem ptr_after (hi : i < c.len) (hp : p = base + total len pre + i) :
    ptr base (pre ++ c :: post) (p + n) =
      if c.len - i ≤ n then fCsptr (seek len (p + (c.len - i)) post
        (p + (c.len - i) + (n - (c.len - i))))
      else ptr base (pre ++ c :: post) p := by
  subst hp
  rw [add_assoc _ i, ptr_locate, ptr_locate, if_neg (show ¬ c.len ≤ i by omega)]
  by_cases h : c.len - i ≤ n
  · rw [if_pos h, if_pos (by omega)]
    congr 2 <;> omega
  · rw [if_neg h, if_neg (by omega)]

/-- **`svm_fifo_copy_to_chunk`**, started at the chunk that holds `p`, writes the `n` positions from `p` on;
the pointer it leaves is that of the chunk after them. -/
theorem svmFifoCopyToChunk_spec (hl : Laid base cs) (hnd : (cs.map Chunk.addr).Nodup) (hb : base ≤ p)
    (hp : p < base + total len cs) (hn : p + n ≤ base + total len cs) (hn' : n < 2 ^ 32) :
    ∃ m' last, svmFifoCopyToChunk m (seek len base cs p) (wrap32 p) src (wrap32 n) =
        some (m', last) ∧
      Wrote len Chunk.addr m m' base cs p n src ∧
      last.getD (ptr base cs p) = ptr base cs (p + n) := by
  obtain ⟨pre, c, post, i, rfl, hpi, hi, hseek, hidx, hchunk, hpos⟩ := locate hl hb hp
  have hlen := c.len_lt
  have hfill : ∀ k, k ≤ c.len - i → Wrote len Chunk.addr m (fill m c.addr i src 0 k) base
      (pre ++ c :: post) p k fun j => src (0 + j) := by
    intro k hk
    subst hpi
    exact wrote_fill hnd (by omega)
  rw [hseek, ptr_after hi hpi]
  unfold svmFifoCopyToChunk
  simp only [hidx, hchunk, wrap32_le (by omega : c.len - i < 2 ^ 32) hn', toNat_wrap32 hn',
    toNat_wrap32 (by omega : i < 2 ^ 32), toNat_wrap32 (by omega : c.len - i < 2 ^ 32)]
  by_cases hcross : c.len - i ≤ n
  · rw [if_pos hcross, if_pos (by omega), if_pos hcross]
    simp only [total_append, total_cons] at hn
    obtain ⟨m', hm', hw⟩ := copyToRest_spec (fill m c.addr i src 0 (c.len - i)) (c.len - i)
      (n - (c.len - i)) (append_cons ..) (hpi ▸ total_from hi) hnd hpos (by omega)
    rw [hm']
    refine ⟨m', _, rfl, ?_, rfl⟩
    have := (hfill _ le_rfl).trans hw hb src fun j _ => ?_
    · rwa [Nat.add_sub_cancel' (by omega)] at this
    · split
      · rw [zero_add]
      · congr 1
        omega
  · rw [if_neg hcross, if_pos (by omega), if_neg hcross]
    exact ⟨_, none, rfl, by simpa only [zero_add] using hfill n (by omega), rfl⟩

theorem copyFromRest_spec (n : Nat) (hall : all = pre ++ cs) (hq : q = base + total len pre)
    (hpos : ∀ c ∈ cs, 0 < c.len) (hn : n ≤ total len cs) :
    ∃ bytes, copyFromRest m cs n = some (bytes, seek len q cs (q + n)) ∧
      bytes.map some = reads len Chunk.addr m base all q n := by
  induction cs generalizing pre q n with
  | nil =>
    obtain rfl : n = 0 := by simpa using hn
    exact ⟨[], rfl, rfl⟩
  | cons c cs ih =>
    have hc := hpos c mem_cons_self
    rw [copyFromRest, seek]
    by_cases h0 : n = 0
    · subst h0
      rw [if_pos rfl, if_pos (by omega)]
      exact ⟨[], rfl, rfl⟩
    rw [if_neg h0]
    have hblock : ∀ k, k ≤ c.len → ((List.range k).map fun j => m c.addr j).map some =
        reads len Chunk.addr m base all q k := by
      intro k hk
      simpa only [hall, hq, zero_add, add_zero] using (reads_block (i := 0) (by omega)).symm
    by_cases hlen : c.len ≤ n
    · rw [total_cons] at hn
      obtain ⟨bytes, hbytes, heq⟩ := ih (q := q + c.len) (n - c.len) (hall.trans (append_cons ..))
        (by rw [hq, total_concat, add_assoc]) (fun d hd => hpos d (mem_cons_of_mem _ hd)) (by omega)
      refine ⟨(List.range c.len).map (fun j => m c.addr j) ++ bytes, ?_, ?_⟩
      · simp only [min_eq_left hlen, if_pos hlen]
        rw [hbytes, if_neg (by omega), Option.map_some]
        simp only
        congr 3
        omega
      · rw [map_append, hblock _ le_rfl, heq, ← reads_add, Nat.add_sub_cancel' hlen]
    · simp only [if_neg hlen, min_eq_right (Nat.le_of_not_le hlen)]
      rw [if_pos (by omega)]
      exact ⟨_, rfl, hblock n (by omega)⟩

/-- **`svm_fifo_copy_from_chunk`**, started at the chunk that holds `p`, reads the `n` positions
from `p` on. -/
theorem svmFifoCopyFromChunk_spec (hl : Laid base cs) (hb : base ≤ p)
    (hp : p < base + total len cs) (hn : p + n ≤ base + total len cs) (hn' : n < 2 ^ 32) :
    ∃ bytes last, svmFifoCopyFromChunk m (seek len base cs p) (wrap32 p) (wrap32 n) =
        some (bytes, last) ∧
      bytes.map some = reads len Chunk.addr m base cs p n ∧
      last.getD (ptr base cs p) = ptr base cs (p + n) := by
  obtain ⟨pre, c, post, i, rfl, hpi, hi, hseek, hidx, hchunk, hpos⟩ := locate hl hb hp
  have hlen := c.len_lt
  have hblock : ∀ k, k ≤ c.len - i → ((List.range k).map fun j => m c.addr (i + j)).map some =
      reads len Chunk.addr m base (pre ++ c :: post) p k := by
    intro k hk
    rw [hpi, reads_block (by omega)]
  rw [hseek, ptr_after hi hpi]
  unfold svmFifoCopyFromChunk
  simp only [hidx, hchunk, wrap32_le (by omega : c.len - i < 2 ^ 32) hn', toNat_wrap32 hn',
    toNat_wrap32 (by omega : i < 2 ^ 32), toNat_wrap32 (by omega : c.len - i < 2 ^ 32)]
  by_cases hcross : c.len - i ≤ n
  · rw [if_pos hcross, if_pos (by omega), if_pos hcross]
    simp only [total_append, total_cons] at hn
    obtain ⟨bytes, hbytes, heq⟩ := copyFromRest_spec (n - (c.len - i)) (append_cons ..)
      (hpi ▸ total_from hi) hpos (by omega)
    rw [hbytes]
    refine ⟨_, _, rfl, ?_, rfl⟩
    rw [map_append, hblock _ le_rfl, heq, ← reads_add, Nat.add_sub_cancel' hcross]
  · rw [if_neg hcross, if_pos (by omega), if_neg hcross]
    exact ⟨_, none, rfl, hblock n (by omega), rfl⟩

end

end Vpp.SvmFifo
