import Mathlib.Tactic.Abel
import Mathlib.Tactic.IntervalCases
import Vpp.Svm.FifoSegment

/-!
# Chunks are conserved

Every chunk carved out of a fifo segment is on one free list of its size or with one caller, whatever
sequence of allocations and collections the segment goes through, and both byte counters are the sums
they stand for. An allocation that fails takes nothing off the lists, but it may leave new chunks of
the smallest size there.
-/

namespace Vpp.Svm

open Vpp.Lib
open List hiding after

/-! ## Sizes -/

theorem fsFreelistForSize_lt (n : Nat) : fsFreelistForSize n < fsChunkVecLen := by
  unfold fsFreelistForSize
  split
  · decide
  · exact lt_of_le_of_lt (min_le_right ..) (by decide)

variable {i nAlloc req k data pos dataSize batch nFree : Nat} {fss : Slice} {c : FreeChunk}
  {cs : List FreeChunk} {fs : Fs}

theorem fsFreelistForSize_indexToSize (hi : i < fsChunkVecLen) :
    fsFreelistForSize (fsFreelistIndexToSize i) = i := by
  have : i < 11 := hi
  interval_cases i
  all_goals decide

variable {l : List FreeChunk} {n : Nat} {fs' : Fs}

theorem le_indexToSize :
    n ≤ fsFreelistIndexToSize (fsFreelistForSize n) ∨ fsFreelistForSize n = fsChunkVecLen - 1 := by
  unfold fsFreelistForSize
  split
  · rename_i h
    exact .inl (le_of_lt h)
  rcases le_total (fsChunkVecLen - 1) (maxLog2 n - minLog2FifoSize) with hle | hle
  · exact .inr (min_eq_right hle)
  refine .inl ?_
  have hlog : n ≤ 2 ^ maxLog2 n := by
    unfold maxLog2
    split
    · exact le_of_lt Nat.lt_log2_self
    · rename_i hlt
      exact Nat.le_of_not_lt hlt
  exact le_trans hlog (Nat.pow_le_pow_right two_pos (by omega))

def IsSize (n : Nat) : Prop := ∃ i < fsChunkVecLen, n = fsFreelistIndexToSize i

def Slice.Sized (fss : Slice) : Prop :=
  ∀ i, ∀ c ∈ fss.freeChunks i, i < fsChunkVecLen ∧ c.length = fsFreelistIndexToSize i

def Slice.chunks (fss : Slice) : Multiset FreeChunk := binned fsChunkVecLen fss.freeChunks

def bytes (s : Multiset FreeChunk) : Nat := weigh FreeChunk.length s

theorem bytes_add (s t : Multiset FreeChunk) : bytes (s + t) = bytes s + bytes t := weigh_add _ s t

theorem bytes_cons :
    bytes ((c :: l : List FreeChunk) : Multiset FreeChunk) = c.length + bytes l := weigh_cons _ c l

theorem freeChunks_setList_self : (fss.setList i l).freeChunks i = l := Function.update_self ..

theorem freeChunks_setList_ne {j : Nat} (h : j ≠ i) :
    (fss.setList i l).freeChunks j = fss.freeChunks j := Function.update_of_ne h ..

theorem Slice.Sized.setList (h : fss.Sized)
    (hl : ∀ c ∈ l, i < fsChunkVecLen ∧ c.length = fsFreelistIndexToSize i) : (fss.setList i l).Sized := by
  intro j c hc
  by_cases hij : j = i
  · subst hij
    rw [freeChunks_setList_self] at hc
    exact hl c hc
  · rw [freeChunks_setList_ne hij] at hc
    exact h j c hc

theorem Slice.Sized.push (h : fss.Sized) (hc : IsSize c.length) :
    (fss.push (fsFreelistForSize c.length) c).Sized := by
  obtain ⟨i, hi, hlen⟩ := hc
  rw [hlen, fsFreelistForSize_indexToSize hi]
  exact h.setList (forall_mem_cons.mpr ⟨⟨hi, hlen⟩, h i⟩)

theorem Slice.chunks_push : (fss.push (fsFreelistForSize c.length) c).chunks = {c} + fss.chunks :=
  binned_put (fsFreelistForSize_lt _) [c]

theorem Slice.Sized.isSize (h : fss.Sized) (hc : c ∈ fss.chunks) : IsSize c.length := by
  obtain ⟨i, hi, hmem⟩ := mem_binned.mp hc
  exact ⟨i, hi, (h i c hmem).2⟩

/-! ## Taking several chunks -/

/-- The state of the loop that takes chunks for `data` bytes: `n_alloc` counts the chunks taken and
`req_bytes` what is missing. -/
structure Wanted (data : Nat) (first : List FreeChunk) (nAlloc req : Nat) : Prop where
  nAlloc_eq : nAlloc = bytes first
  req_eq : req = data - bytes first
  lt : bytes first < data + 2 ^ 21

theorem takeWhileWanted_spec {flSize : Nat} (hdata : data ≤ 2 ^ 31) (hsize : flSize ≤ 2 ^ 21)
    {first : List FreeChunk} (hl : ∀ c ∈ l, c.length = flSize) (h : Wanted data first nAlloc req) :
    let r := takeWhileWanted flSize l first nAlloc req
    ∃ taken, l = taken ++ r.1 ∧ (r.2.1 : Multiset FreeChunk) = taken + first ∧
      Wanted data r.2.1 r.2.2.1 r.2.2.2 ∧ (r.2.2.2 ≠ 0 → r.1 = []) := by
  induction l generalizing first nAlloc req with
  | nil => exact ⟨[], rfl, (zero_add _).symm, h, fun _ => rfl⟩
  | cons c l ih =>
    rw [takeWhileWanted]
    split
    · rename_i h0
      exact ⟨[], rfl, (zero_add _).symm, h, fun hne => absurd h0 hne⟩
    rw [forall_mem_cons] at hl
    have hcons : bytes ((c :: first : List FreeChunk) : Multiset FreeChunk) =
        flSize + bytes first := by rw [bytes_cons, hl.1]
    have hw : Wanted data (c :: first) (addW 32 nAlloc flSize) (req - min flSize req) := by
      have hn := h.nAlloc_eq
      have hr := h.req_eq
      refine ⟨?_, ?_, ?_⟩
      · rw [addW_of_lt (by omega), hcons, hn, add_comm]
      · omega
      · omega
    obtain ⟨taken, hl', hfirst, hwanted, hempty⟩ := ih hl.2 hw
    refine ⟨c :: taken, congrArg (List.cons c) hl', ?_, hwanted, hempty⟩
    rw [hfirst, ← Multiset.cons_coe, ← Multiset.cons_coe, Multiset.cons_add, Multiset.add_cons]

/-- What the loop over the lists from `k` down has done. -/
structure Took (data k : Nat) (fss : Slice) (first : List FreeChunk)
    (r : Slice × List FreeChunk × Nat × Nat) : Prop where
  moved : ∃ taken : List FreeChunk,
    fss.chunks = taken + r.1.chunks ∧ (r.2.1 : Multiset FreeChunk) = taken + first
  sized : r.1.Sized
  counter : r.1.nFlChunkBytes = fss.nFlChunkBytes
  wanted : Wanted data r.2.1 r.2.2.1 r.2.2.2
  /-- If not enough was found, the lists are empty. -/
  emptied : r.2.2.2 ≠ 0 → ∀ i, r.1.freeChunks i = if i ≤ k then [] else fss.freeChunks i

theorem indexToSize_le (hk : k ≤ 9) : fsFreelistIndexToSize k ≤ 2 ^ 21 :=
  Nat.pow_le_pow_right Nat.two_pos (Nat.add_le_add_right hk 12)

theorem multiChunkLoop_took (hdata : data ≤ 2 ^ 31) (hk : k ≤ 9)
    (hsized : fss.Sized) {first : List FreeChunk} (h : Wanted data first nAlloc req) :
    Took data k fss first (multiChunkLoop k fss first nAlloc req) := by
  induction k generalizing fss first nAlloc req with
  | zero =>
    obtain ⟨taken, hl, hfirst, hw, hempty⟩ := takeWhileWanted_spec hdata (indexToSize_le hk)
      (fun c hc => (hsized 0 c hc).2) h
    refine ⟨⟨taken, binned_take (by decide) hl, hfirst⟩, hsized.setList fun c hc => ?_, rfl, hw, ?_⟩
    · exact hsized 0 c (hl ▸ mem_append_right _ hc)
    intro hreq i
    by_cases hi : i = 0
    · subst hi
      exact (freeChunks_setList_self ..).trans (hempty hreq)
    · rw [if_neg (by omega)]
      exact freeChunks_setList_ne hi
  | succ k ih =>
    obtain ⟨taken, hl, hfirst, hw, hempty⟩ := takeWhileWanted_spec hdata (indexToSize_le hk)
      (fun c hc => (hsized (k + 1) c hc).2) h
    rw [multiChunkLoop]
    generalize takeWhileWanted (fsFreelistIndexToSize (k + 1)) (fss.freeChunks (k + 1)) first nAlloc
      req = r at *
    have hchunks : fss.chunks = taken + (fss.setList (k + 1) r.1).chunks :=
      binned_take (lt_of_le_of_lt hk (by decide)) hl
    have hsized' : (fss.setList (k + 1) r.1).Sized := hsized.setList fun c hc =>
      hsized (k + 1) c (hl ▸ mem_append_right _ hc)
    split
    · rename_i h0
      exact ⟨⟨taken, hchunks, hfirst⟩, hsized', rfl, hw, fun hne => absurd h0 hne⟩
    rename_i hreq
    obtain ⟨⟨taken', hchunks', hfirst'⟩, hsized'', hcounter, hw', hempty'⟩ :=
      ih (by omega) hsized' hw
    refine ⟨⟨taken' ++ taken, ?_, ?_⟩, hsized'', hcounter, hw', ?_⟩
    · rw [hchunks, hchunks', ← Multiset.coe_add]
      abel
    · rw [hfirst', hfirst, ← Multiset.coe_add]
      abel
    intro hreq' i
    rw [hempty' hreq' i]
    by_cases hi : i = k + 1
    · subst hi
      rw [if_neg (by omega), if_pos (le_refl _)]
      exact (freeChunks_setList_self ..).trans (hempty hreq)
    · by_cases hle : i ≤ k
      · rw [if_pos hle, if_pos (by omega)]
      · rw [if_neg hle, if_neg (by omega)]
        exact freeChunks_setList_ne hi

theorem pushAll_spec (h : fss.Sized) (hcs : ∀ c ∈ cs, IsSize c.length) :
    (fss.pushAll cs).Sized ∧ (fss.pushAll cs).chunks = cs + fss.chunks ∧
      (fss.pushAll cs).nFlChunkBytes = fss.nFlChunkBytes := by
  induction cs generalizing fss with
  | nil => exact ⟨h, (zero_add _).symm, rfl⟩
  | cons c cs ih =>
    rw [forall_mem_cons] at hcs
    obtain ⟨hsized, hchunks, hcounter⟩ := ih (h.push hcs.1) hcs.2
    refine ⟨hsized, ?_, hcounter⟩
    show ((fss.push _ c).pushAll cs).chunks = _
    rw [hchunks, Slice.chunks_push, ← Multiset.cons_coe, ← Multiset.singleton_add]
    abel

/-! ## One slice of the segment -/

/-- The counters of the slice and the header are right, and nothing can overflow. -/
structure Fs.Ok (fs : Fs) : Prop where
  sized : fs.fss.Sized
  counter : fs.fss.nFlChunkBytes = bytes fs.fss.chunks
  cached : fs.fss.nFlChunkBytes ≤ fs.fsh.nCachedBytes
  total : fs.fsh.nCachedBytes ≤ bytes fs.fsh.carved
  inside : bytes fs.fsh.carved ≤ fs.fsh.byteIndex
  le_max : fs.fsh.byteIndex ≤ fs.fsh.maxByteIndex
  max_lt : fs.fsh.maxByteIndex < 2 ^ 44

/-- From `fs` to `fs'` the chunks `new` are carved. -/
structure Carves (fs fs' : Fs) (new : List FreeChunk) : Prop where
  ok : fs'.Ok
  carved : fs'.fsh.carved = new ++ fs.fsh.carved
  cached : fs'.fsh.nCachedBytes + fs.fss.nFlChunkBytes =
    fs.fsh.nCachedBytes + fs'.fss.nFlChunkBytes
  sizes : ∀ c ∈ new, IsSize c.length
  fresh : ∀ c ∈ new, fs.fsh.byteIndex ≤ c.offset ∧ c.offset < fs'.fsh.byteIndex
  nodup : (new.map FreeChunk.offset).Nodup
  le : fs.fsh.byteIndex ≤ fs'.fsh.byteIndex
  max_eq : fs'.fsh.maxByteIndex = fs.fsh.maxByteIndex

/-- In addition the chunks `out` are handed to the caller. -/
structure Yields (fs fs' : Fs) (new out : List FreeChunk) : Prop extends Carves fs fs' new where
  chunks : (new : Multiset FreeChunk) + fs.fss.chunks = out + fs'.fss.chunks

theorem Yields.refl (h : fs.Ok) : Yields fs fs [] [] :=
  ⟨⟨h, rfl, rfl, (fun _ h => nomatch h), (fun _ h => nomatch h), nodup_nil, le_refl _, rfl⟩,
    rfl⟩

theorem Yields.trans {fs'' : Fs} {new new' out : List FreeChunk} (h : Yields fs fs' new [])
    (h' : Yields fs' fs'' new' out) : Yields fs fs'' (new' ++ new) out := by
  refine ⟨⟨h'.ok, ?_, ?_, ?_, ?_, ?_, le_trans h.le h'.le, h'.max_eq.trans h.max_eq⟩, ?_⟩
  · rw [h'.carved, h.carved, append_assoc]
  · have h1 := h.cached
    have h2 := h'.cached
    omega
  · exact forall_mem_append.mpr ⟨h'.sizes, h.sizes⟩
  · refine forall_mem_append.mpr ⟨fun c hc => ?_, fun c hc => ?_⟩
    · exact ⟨le_trans h.le (h'.fresh c hc).1, (h'.fresh c hc).2⟩
    · exact ⟨(h.fresh c hc).1, lt_of_lt_of_le (h.fresh c hc).2 h'.le⟩
  · rw [map_append, nodup_append]
    refine ⟨h'.nodup, h.nodup, ?_⟩
    intro x hx y hy heq
    obtain ⟨c, hc, rfl⟩ := mem_map.mp hx
    obtain ⟨d, hd, rfl⟩ := mem_map.mp hy
    have h1 := (h'.fresh c hc).1
    have h2 := (h.fresh d hd).2
    omega
  · have h1 := h.chunks
    rw [Multiset.coe_nil, zero_add] at h1
    rw [← h'.chunks, ← h1, ← Multiset.coe_add, add_assoc]

variable {fss' : Slice}

theorem Fs.Ok.take (h : fs.Ok) {out : List FreeChunk} (hsized : fss'.Sized)
    (hcounter : fss'.nFlChunkBytes = fs.fss.nFlChunkBytes) (hchunks : fs.fss.chunks = out + fss'.chunks) :
    Yields fs (({ fs with fss := fss' } : Fs).bytesSub (bytes out)) [] out := by
  have hbytes : bytes fs.fss.chunks = bytes out + bytes fss'.chunks := by rw [hchunks, bytes_add]
  have hc := h.counter
  have hcached := h.cached
  have htotal := h.total
  have hinside := h.inside
  have hle := h.le_max
  have hmax := h.max_lt
  have hfl : subW 64 fss'.nFlChunkBytes (bytes out) = fs.fss.nFlChunkBytes - bytes out := by
    rw [hcounter]
    exact subW_of_le (by omega) (by omega)
  have hca : subW 64 fs.fsh.nCachedBytes (bytes out) = fs.fsh.nCachedBytes - bytes out :=
    subW_of_le (by omega) (by omega)
  refine ⟨⟨⟨hsized, ?_, ?_, ?_, hinside, hle, hmax⟩, rfl, ?_, (fun _ h => nomatch h),
    (fun _ h => nomatch h), nodup_nil, le_refl _, rfl⟩, ?_⟩
  · show subW 64 fss'.nFlChunkBytes (bytes out) = bytes fss'.chunks
    omega
  · show subW 64 fss'.nFlChunkBytes (bytes out) ≤ subW 64 fs.fsh.nCachedBytes (bytes out)
    omega
  · show subW 64 fs.fsh.nCachedBytes (bytes out) ≤ bytes fs.fsh.carved
    omega
  · show subW 64 fs.fsh.nCachedBytes (bytes out) + _ = _ + subW 64 fss'.nFlChunkBytes (bytes out)
    omega
  · exact hchunks

theorem takeOne_eq_none : fs.takeOne i = none ↔ fs.fss.freeChunks i = [] := by
  unfold Fs.takeOne
  split
  · rename_i h
    exact ⟨fun _ => h, fun _ => rfl⟩
  · rename_i h
    exact ⟨(fun h' => nomatch h'), fun h' => nomatch h.symm.trans h'⟩

theorem takeOne_yields (h : fs.Ok) (hi : i < fsChunkVecLen)
    {r : Fs × List FreeChunk} (hr : fs.takeOne i = some r) :
    Yields fs r.1 [] r.2 ∧ r.2 ≠ [] ∧ bytes r.2 = fsFreelistIndexToSize i := by
  unfold Fs.takeOne at hr
  split at hr
  · cases hr
  rename_i c l hl
  obtain rfl := Option.some.inj hr
  have hc := (h.sized i c (hl ▸ mem_cons_self)).2
  have hbytes : bytes (([c] : List FreeChunk) : Multiset FreeChunk) = fsFreelistIndexToSize i := by
    rw [bytes_cons, hc]
    rfl
  refine ⟨?_, cons_ne_nil _ _, hbytes⟩
  rw [← hbytes]
  exact h.take (h.sized.setList fun d hd => h.sized i d (hl ▸ mem_cons_of_mem _ hd)) rfl
    (binned_take hi hl)

/-! ## Carving -/

theorem le_roundPow2 (x : Nat) : x ≤ roundPow2 x := by
  unfold roundPow2
  omega

theorem length_carve (hc : c ∈ carve pos dataSize batch) : c.length = dataSize := by
  obtain ⟨i, -, rfl⟩ := mem_map.mp hc
  rfl

theorem bytes_carve (pos dataSize batch : Nat) :
    bytes (carve pos dataSize batch) = batch * dataSize := by
  rw [bytes, weigh_const _ fun c hc => length_carve hc, carve, length_map, length_range]

theorem offset_carve (hc : c ∈ carve pos dataSize batch) :
    pos ≤ c.offset ∧ c.offset < pos + (chunkHdrSize + dataSize) * batch := by
  obtain ⟨i, hi, rfl⟩ := mem_map.mp hc
  rw [mem_range] at hi
  refine ⟨Nat.le_add_right .., Nat.add_lt_add_left ?_ pos⟩
  rw [mul_comm]
  exact mul_lt_mul_of_pos_left hi (Nat.add_pos_left (by decide) _)

theorem nodup_carve (pos dataSize batch : Nat) :
    ((carve pos dataSize batch).map FreeChunk.offset).Nodup := by
  have hpos : 0 < chunkHdrSize + dataSize := Nat.add_pos_left (by decide) _
  rw [carve, map_map]
  refine List.Nodup.map ?_ nodup_range
  intro i j hij
  exact Nat.eq_of_mul_eq_mul_right hpos (add_left_cancel hij)

theorem fshTryAllocChunkBatch_yields (h : fs.Ok) (hi : i < fsChunkVecLen) (hbatch : batch ≠ 0)
    (hr : fshTryAllocChunkBatch fs i batch = some fs') :
    ∃ new, Yields fs fs' new [] ∧ (∀ c ∈ new, c.length = fsFreelistIndexToSize i) ∧
      fs'.fss.freeChunks i ≠ [] ∧
      fs'.fss.nFlChunkBytes = fs.fss.nFlChunkBytes + batch * fsFreelistIndexToSize i := by
  unfold fshTryAllocChunkBatch at hr
  dsimp only at hr
  split at hr
  · cases hr
  obtain rfl := Option.some.inj hr
  have hpos := le_roundPow2 fs.fsh.byteIndex
  have hsize := le_roundPow2 ((chunkHdrSize + fsFreelistIndexToSize i) * batch)
  generalize roundPow2 fs.fsh.byteIndex = pos at *
  generalize roundPow2 ((chunkHdrSize + fsFreelistIndexToSize i) * batch) = size at *
  have hbytes := bytes_carve pos (fsFreelistIndexToSize i) batch
  have hlen : ∀ c ∈ carve pos (fsFreelistIndexToSize i) batch,
    c.length = fsFreelistIndexToSize i := fun c hc => length_carve hc
  have hne : carve pos (fsFreelistIndexToSize i) batch ≠ [] := by
    intro hnil
    rw [carve, map_eq_nil_iff, range_eq_nil] at hnil
    exact hbatch hnil
  have hoffset : ∀ c ∈ carve pos (fsFreelistIndexToSize i) batch,
      fs.fsh.byteIndex ≤ c.offset ∧ c.offset < pos + size := fun c hc => by
    have := offset_carve hc
    omega
  have hnodup := nodup_carve pos (fsFreelistIndexToSize i) batch
  -- the memory of the batch has room for its bytes
  have hfit : batch * fsFreelistIndexToSize i ≤ size := by
    refine le_trans ?_ hsize
    rw [mul_comm, add_mul]
    exact Nat.le_add_left ..
  generalize carve pos (fsFreelistIndexToSize i) batch = new at *
  generalize batch * fsFreelistIndexToSize i = total at *
  have hcarved : bytes ((new ++ fs.fsh.carved : List FreeChunk) : Multiset FreeChunk) =
      total + bytes fs.fsh.carved := by rw [← Multiset.coe_add, bytes_add, hbytes]
  have hchunks : (fs.fss.setList i (new.reverse ++ fs.fss.freeChunks i)).chunks =
      new + fs.fss.chunks := by
    rw [← Multiset.coe_reverse]
    exact binned_put hi ..
  have hcounter := h.counter
  have hcached := h.cached
  have htotal := h.total
  have hinside := h.inside
  have hmax := h.max_lt
  have hfl : addW 64 fs.fss.nFlChunkBytes total = fs.fss.nFlChunkBytes + total :=
    addW_of_lt (by omega)
  have hca : addW 64 fs.fsh.nCachedBytes total = fs.fsh.nCachedBytes + total :=
    addW_of_lt (by omega)
  refine ⟨new, ⟨⟨⟨?_, ?_, ?_, ?_, ?_, ?_, hmax⟩, rfl, ?_, ?_, hoffset, hnodup, ?_, rfl⟩, ?_⟩, hlen, ?_,
    hfl⟩
  · refine h.sized.setList fun c hc => ?_
    rcases mem_append.mp hc with hc | hc
    · exact ⟨hi, hlen c (mem_reverse.mp hc)⟩
    · exact h.sized i c hc
  · show addW 64 fs.fss.nFlChunkBytes total = bytes (Slice.chunks _)
    have := congrArg bytes hchunks
    rw [bytes_add, hbytes] at this
    rw [hfl, hcounter, add_comm]
    exact this.symm
  · show addW 64 fs.fss.nFlChunkBytes total ≤ addW 64 fs.fsh.nCachedBytes total
    omega
  · show addW 64 fs.fsh.nCachedBytes total ≤
      bytes ((new ++ fs.fsh.carved : List FreeChunk) : Multiset FreeChunk)
    omega
  · show bytes ((new ++ fs.fsh.carved : List FreeChunk) : Multiset FreeChunk) ≤ pos + size
    omega
  · show pos + size ≤ fs.fsh.maxByteIndex
    omega
  · show addW 64 fs.fsh.nCachedBytes total + _ = _ + addW 64 fs.fss.nFlChunkBytes total
    omega
  · exact fun c hc => ⟨i, hi, hlen c hc⟩
  · show fs.fsh.byteIndex ≤ pos + size
    omega
  · exact hchunks.symm
  · show (fs.fss.setList i _).freeChunks i ≠ []
    rw [freeChunks_setList_self]
    exact fun hnil => hne (reverse_eq_nil_iff.mp (append_eq_nil_iff.mp hnil).1)

/-! ## Serving a request -/

/-- What is handed out, if anything is, has room for the request. -/
def Enough (data : Nat) (out : List FreeChunk) : Prop := out ≠ [] → data ≤ bytes out

theorem enough_nil : Enough data [] := fun h => absurd rfl h

theorem takeLarger_yields (h : fs.Ok) :
    Yields fs (takeLarger fs data).1 [] (takeLarger fs data).2 ∧ Enough data (takeLarger fs data).2 := by
  unfold takeLarger
  dsimp only
  split
  · rename_i hlt
    cases hr : fs.takeOne (fsFreelistForSize data + 1) with
    | none => exact ⟨.refl h, enough_nil⟩
    | some r =>
      obtain ⟨hy, hne, hbytes⟩ := takeOne_yields h hlt hr
      refine ⟨hy, fun _ => ?_⟩
      have hfit := le_indexToSize.resolve_right (Nat.ne_of_lt (Nat.lt_pred_of_succ_lt hlt))
      rw [Option.getD_some, hbytes]
      exact le_trans hfit (Nat.pow_le_pow_right two_pos (by omega))
  · exact ⟨.refl h, enough_nil⟩

theorem length_of_left (hsized : fss'.Sized)
    (hempty : req ≠ 0 → ∀ i, fss'.freeChunks i = if i ≤ fsFreelistForSize data - 1 then [] else
      fss.freeChunks i) (hmiss : req ≠ 0) (hlist : fss.freeChunks (fsFreelistForSize data) = [])
    (hc : c ∈ fss'.chunks) : data < c.length := by
  obtain ⟨j, hj, hcj⟩ := mem_binned.mp hc
  have hlen := (hsized j c hcj).2
  rw [hempty hmiss j] at hcj
  split at hcj
  · cases hcj
  have hne : j ≠ fsFreelistForSize data := by
    rintro rfl
    rw [hlist] at hcj
    cases hcj
  have hcap : fsFreelistForSize data ≠ fsChunkVecLen - 1 := by
    omega
  rw [hlen]
  refine lt_of_le_of_lt (le_indexToSize.resolve_right hcap) ?_
  exact Nat.pow_lt_pow_right (by decide) (by omega)

/-- `fs_try_alloc_multi_chunk` hands out chunks or leaves everything. If it fails for bytes that are there,
they are in larger chunks. -/
theorem fsTryAllocMultiChunk_yields (h : fs.Ok) (hdata : data ≤ 2 ^ 31) :
    Yields fs (fsTryAllocMultiChunk fs data).1 [] (fsTryAllocMultiChunk fs data).2 ∧
      Enough data (fsTryAllocMultiChunk fs data).2 ∧
      ((fsTryAllocMultiChunk fs data).2 = [] → fs.fss.freeChunks (fsFreelistForSize data) = [] →
        0 < fsFreelistForSize data → data ≤ fs.fss.nFlChunkBytes → data < fs.fss.nFlChunkBytes) := by
  have hlt := fsFreelistForSize_lt data
  have hk : fsFreelistForSize data - 1 ≤ 9 := by
    have : fsFreelistForSize data < 11 := hlt
    omega
  have htook := multiChunkLoop_took hdata hk h.sized (⟨rfl, rfl, lt_of_lt_of_le (by decide)
    (Nat.le_add_left ..)⟩ : Wanted data [] 0 data)
  unfold fsTryAllocMultiChunk
  dsimp only
  generalize multiChunkLoop (fsFreelistForSize data - 1) fs.fss [] 0 data = r at htook
  obtain ⟨⟨taken, hchunks, hfirst⟩, hsized, hcounter, hwanted, hempty⟩ := htook
  rw [Multiset.coe_nil, add_zero] at hfirst
  rw [← hfirst] at hchunks
  have hn := hwanted.nAlloc_eq
  have hreq := hwanted.req_eq
  split
  · rw [hn]
    refine ⟨h.take hsized hcounter hchunks, fun _ => by dsimp only; omega, fun hnil _ hpos _ => ?_⟩
    -- nothing taken and nothing missing: the request was empty
    dsimp only at hnil
    rw [hnil] at hreq
    have hz : data = 0 := by
      have : bytes (([] : List FreeChunk) : Multiset FreeChunk) = 0 := rfl
      omega
    rw [hz] at hpos
    exact absurd hpos (by decide)
  · rename_i hmiss
    have hmem : ∀ c ∈ r.2.1, IsSize c.length := by
      intro c hc
      refine h.sized.isSize ?_
      rw [hchunks]
      exact Multiset.mem_add.mpr (.inl (Multiset.mem_coe.mpr hc))
    obtain ⟨hsized', hchunks', hcounter'⟩ := pushAll_spec hsized hmem
    have hback : (r.1.pushAll r.2.1).chunks = fs.fss.chunks := by rw [hchunks', hchunks]
    have hok : Fs.Ok { fs with fss := r.1.pushAll r.2.1 } := by
      refine ⟨hsized', ?_, ?_, h.total, h.inside, h.le_max, h.max_lt⟩
      · rw [hback, hcounter', hcounter, h.counter]
      · rw [hcounter', hcounter]
        exact h.cached
    have hsame : Yields fs { fs with fss := r.1.pushAll r.2.1 } [] [] :=
      ⟨⟨hok, rfl, by rw [hcounter', hcounter], (fun _ h => nomatch h), (fun _ h => nomatch h),
        nodup_nil, le_refl _, rfl⟩, by rw [hback]⟩
    obtain ⟨hy, henough⟩ := takeLarger_yields hok
    refine ⟨hsame.trans hy, henough, fun _ hlist hpos hle => ?_⟩
    -- some chunk is left, since what was taken is not enough
    have hsplit : fs.fss.nFlChunkBytes = bytes r.2.1 + bytes r.1.chunks := by
      rw [h.counter, hchunks, bytes_add]
    have hleft : r.1.chunks ≠ 0 := by
      intro h0
      rw [h0] at hsplit
      have : bytes (0 : Multiset FreeChunk) = 0 := rfl
      omega
    obtain ⟨c, hc⟩ := Multiset.exists_mem_of_ne_zero hleft
    have hweight : c.length ≤ bytes r.1.chunks := weigh_le_of_mem _ hc
    exact lt_of_lt_of_le (length_of_left hsized hempty hmiss hlist hc) (by omega)

/-- What the fall-backs do: new chunks are of the smallest size. -/
def YieldsSmall (fs : Fs) (r : Fs × List FreeChunk) : Prop :=
  ∃ new, Yields fs r.1 new r.2 ∧ ∀ c ∈ new, c.length = minFifoSize

theorem lastAttempt_yields (h : fs.Ok) (hdata : data ≤ 2 ^ 31)
    (hbatch : addW 32 (wrap 32 (subW 64 data fs.fss.nFlChunkBytes / minFifoSize)) 1 ≠ 0) :
    YieldsSmall fs (lastAttempt fs data nFree) ∧ Enough data (lastAttempt fs data nFree).2 := by
  have hnone : YieldsSmall fs (fs, []) ∧ Enough data [] :=
    ⟨⟨[], .refl h, fun _ h => nomatch h⟩, enough_nil⟩
  unfold lastAttempt
  split
  · split
    · exact hnone
    rename_i hfree
    have hne : min (addW 32 (wrap 32 (subW 64 data fs.fss.nFlChunkBytes / minFifoSize)) 1)
        (nFree / minFifoSize) ≠ 0 := by
      have : 1 ≤ nFree / minFifoSize := (Nat.one_le_div_iff (by decide)).mpr (Nat.le_of_not_lt hfree)
      omega
    dsimp only
    split
    · exact hnone
    · rename_i fs' hr
      obtain ⟨new, hy, hlen, -, -⟩ := fshTryAllocChunkBatch_yields h (by decide) hne hr
      obtain ⟨hy', henough, -⟩ := fsTryAllocMultiChunk_yields hy.ok hdata
      exact ⟨⟨_, hy.trans hy', forall_mem_append.mpr ⟨(fun _ h => nomatch h), hlen⟩⟩, henough⟩
  · exact hnone

theorem fshTryAllocChunkBatch_none_mono {b b' : Nat} (hindex : fs.fsh.byteIndex ≤ fs'.fsh.byteIndex)
    (hmax : fs'.fsh.maxByteIndex = fs.fsh.maxByteIndex) (hle : b ≤ b')
    (h : fshTryAllocChunkBatch fs i b = none) : fshTryAllocChunkBatch fs' i b' = none := by
  unfold fshTryAllocChunkBatch at *
  dsimp only at *
  split at h
  · rw [if_pos]
    have := Nat.mul_le_mul_left (chunkHdrSize + fsFreelistIndexToSize i) hle
    unfold roundPow2 at *
    omega
  · cases h

theorem refill_zero_none (hindex : fs.fsh.byteIndex ≤ fs'.fsh.byteIndex)
    (hmax : fs'.fsh.maxByteIndex = fs.fsh.maxByteIndex) (h : refill fs 0 nFree = none)
    (hbatch : wrap 32 (nFree / minFifoSize) ≠ 0) (hfree : nFree ≤ 2 ^ 44 - 1) :
    fshTryAllocChunkBatch fs' 0 (wrap 32 (nFree / minFifoSize)) = none := by
  have hmin : fsFreelistIndexToSize 0 = minFifoSize := rfl
  have hbatch' : nFree / minFifoSize < 2 ^ 32 := by
    show nFree / 4096 < 2 ^ 32
    omega
  rw [wrap_of_lt hbatch'] at hbatch ⊢
  have hge : minFifoSize ≤ nFree := by
    by_contra hlt
    exact hbatch (Nat.div_eq_of_lt (Nat.lt_of_not_le hlt))
  unfold refill at h
  rw [hmin, if_pos hge] at h
  split at h
  · rename_i hmany
    refine fshTryAllocChunkBatch_none_mono hindex hmax ?_ h
    change 131072 ≤ nFree at hmany
    show 32 ≤ nFree / 4096
    omega
  · exact fshTryAllocChunkBatch_none_mono hindex hmax (Nat.one_le_iff_ne_zero.mpr hbatch) h

theorem fallBack_yields (h : fs.Ok) (hdata : data ≤ 2 ^ 31)
    (hlist : fs.fss.freeChunks (fsFreelistForSize data) = []) (hfree : nFree ≤ 2 ^ 44 - 1)
    (hrefill : refill fs (fsFreelistForSize data) nFree = none) :
    YieldsSmall fs (fallBack fs data nFree) ∧ Enough data (fallBack fs data nFree).2 := by
  unfold fallBack
  split
  · rename_i hle
    dsimp only
    obtain ⟨hy, henough, hfail⟩ := fsTryAllocMultiChunk_yields h hdata
    generalize fsTryAllocMultiChunk fs data = r at hy henough hfail
    split
    · exact ⟨⟨[], hy, fun _ h => nomatch h⟩, henough⟩
    rename_i hnil
    rw [not_not] at hnil
    rw [hnil] at hy
    have hnone : YieldsSmall fs (r.1, []) ∧ Enough data [] :=
      ⟨⟨[], hy, fun _ h => nomatch h⟩, enough_nil⟩
    split
    · exact hnone
    rename_i hbatch
    split
    · exact hnone
    rename_i fs' hr
    obtain ⟨new, hy', hlen, -, hbytes⟩ := fshTryAllocChunkBatch_yields hy.ok (by decide) hbatch hr
    rcases Nat.eq_zero_or_pos (fsFreelistForSize data) with h0 | hpos
    · -- the smallest size was tried before, with no more chunks
      rw [h0] at hrefill
      rw [refill_zero_none hy.le hy.max_eq hrefill hbatch hfree] at hr
      cases hr
    · have hlt := hfail hnil hlist hpos hle
      have hsame : r.1.fss.nFlChunkBytes = fs.fss.nFlChunkBytes := by
        have := hy.chunks
        rw [Multiset.coe_nil, zero_add, zero_add] at this
        rw [hy.ok.counter, h.counter, this]
      have hroom : fs'.fss.nFlChunkBytes ≤ 2 ^ 44 := by
        have h1 := hy'.ok.cached
        have h2 := hy'.ok.total
        have h3 := hy'.ok.inside
        have h4 := hy'.ok.le_max
        have h5 := hy'.ok.max_lt
        omega
      have hmin : fsFreelistIndexToSize 0 = 4096 := rfl
      -- the difference is negative, and below -4096
      have hdiff : addW 32 (wrap 32 (subW 64 data fs'.fss.nFlChunkBytes / minFifoSize)) 1 ≠ 0 := by
        rw [hmin] at hbytes
        unfold addW wrap subW minFifoSize
        omega
      obtain ⟨⟨new', hy'', hlen'⟩, henough'⟩ := lastAttempt_yields hy'.ok hdata hdiff
      exact ⟨⟨_, (hy.trans hy').trans hy'', forall_mem_append.mpr ⟨hlen',
        forall_mem_append.mpr ⟨hlen, fun _ h => nomatch h⟩⟩⟩, henough'⟩
  · refine lastAttempt_yields h hdata ?_
    rw [subW_of_le (by omega) (by omega)]
    show ((_ / 4096) % 2 ^ 32 + 1) % 2 ^ 32 ≠ 0
    omega

/-- No chunk is on a list, and none can be carved for it. -/
def Fs.Lacks (fs : Fs) (flIndex : Nat) : Prop :=
  fs.fss.freeChunks flIndex = [] ∧ refill fs flIndex (fshNFreeBytes fs.fsh) = none

/-- **One allocation.** Chunks are carved and handed out, and every counter stays right. If none is handed
out, those carved are of the smallest size. What is handed out is one chunk of the request's list as long as
there is one, and enough otherwise. -/
theorem fshTryAllocChunk_yields (h : fs.Ok) (hdata : data ≤ 2 ^ 31) :
    ∃ new, Yields fs (fshTryAllocChunk fs data).1 new (fshTryAllocChunk fs data).2 ∧
      ((fshTryAllocChunk fs data).2 = [] → ∀ c ∈ new, c.length = minFifoSize) ∧
      (¬ fs.Lacks (fsFreelistForSize data) →
        bytes (fshTryAllocChunk fs data).2 = fsFreelistIndexToSize (fsFreelistForSize data)) ∧
      (fs.Lacks (fsFreelistForSize data) → Enough data (fshTryAllocChunk fs data).2) := by
  have hlt := fsFreelistForSize_lt data
  unfold fshTryAllocChunk
  dsimp only
  split
  · rename_i r hr
    obtain ⟨hy, -, hbytes⟩ := takeOne_yields h hlt hr
    exact ⟨[], hy, (fun _ _ h => nomatch h), fun _ => hbytes, fun hl => by
      rw [takeOne_eq_none.mpr hl.1] at hr
      cases hr⟩
  · rename_i hnone
    split
    · rename_i fs' hr
      have hbatch : ∃ batch ≠ 0, fshTryAllocChunkBatch fs (fsFreelistForSize data) batch = some fs' := by
        unfold refill at hr
        dsimp only at hr
        split at hr
        · refine ⟨_, ?_, hr⟩
          split <;> decide
        · cases hr
      obtain ⟨batch, hne, hr'⟩ := hbatch
      obtain ⟨new, hy, -, hfilled, -⟩ := fshTryAllocChunkBatch_yields h hlt hne hr'
      cases htake : fs'.takeOne (fsFreelistForSize data) with
      | none => exact absurd (takeOne_eq_none.mp htake) hfilled
      | some r =>
        obtain ⟨hy', hne', hbytes⟩ := takeOne_yields hy.ok hlt htake
        exact ⟨_, hy.trans hy', fun hnil => absurd hnil hne', fun _ => hbytes,
          fun hl => nomatch hr.symm.trans hl.2⟩
    · rename_i hrefill
      have hfree : fshNFreeBytes fs.fsh ≤ 2 ^ 44 - 1 := by
        have := h.max_lt
        unfold fshNFreeBytes
        omega
      obtain ⟨⟨new, hy, hlen⟩, henough⟩ :=
        fallBack_yields h hdata (takeOne_eq_none.mp hnone) hfree hrefill
      exact ⟨new, hy, fun _ => hlen, fun hl => absurd ⟨takeOne_eq_none.mp hnone, hrefill⟩ hl,
        fun _ => henough⟩

theorem collectLoop_fst (cs : List FreeChunk) (fss : Slice) (n : Nat) :
    (collectLoop cs fss n).1 = fss.pushAll cs := by
  induction cs generalizing fss n with
  | nil => rfl
  | cons c cs ih => exact ih ..

theorem collectLoop_snd (hcs : ∀ c ∈ cs, IsSize c.length) (hlt : n + bytes cs < 2 ^ 32) :
    (collectLoop cs fss n).2 = n + bytes cs := by
  induction cs generalizing fss n with
  | nil => rfl
  | cons c cs ih =>
    rw [forall_mem_cons] at hcs
    obtain ⟨i, hi, hlen⟩ := hcs.1
    rw [bytes_cons] at hlt ⊢
    rw [collectLoop, hlen, fsFreelistForSize_indexToSize hi, ← hlen, addW_of_lt (by omega),
      ih hcs.2 (by omega), add_assoc]

/-! ## Runs of the whole segment -/

/-- A segment with all its slices, and the chunks its callers own. -/
structure Segment where
  fsh : SegmentHeader
  slices : List Slice
  owned : Multiset FreeChunk

/-- `fsh_alloc_chunk` and `fsh_collect_chunks`. -/
inductive SegmentOp
  | allocChunk (sliceIndex dataBytes : Nat)
  | collectChunks (sliceIndex : Nat) (cs : List FreeChunk)

def Segment.store (g : Segment) (i : Nat) (fs : Fs) (owned : Multiset FreeChunk) : Segment :=
  ⟨fs.fsh, g.slices.set i fs.fss, owned⟩

def Segment.step (g : Segment) : SegmentOp → Segment × List FreeChunk
  | .allocChunk i dataBytes =>
    match g.slices[i]? with
    | none => (g, [])
    | some fss =>
      let r := fshTryAllocChunk ⟨g.fsh, fss⟩ dataBytes
      (g.store i r.1 (r.2 + g.owned), r.2)
  | .collectChunks i cs =>
    match g.slices[i]? with
    | none => (g, [])
    | some fss => (g.store i (fshSliceCollectChunks ⟨g.fsh, fss⟩ cs) (g.owned - cs), [])

/-- Requests of up to the maximum fifo size, and collections of chunks that callers own, less than
`2 ^ 32` bytes at a time. -/
def SegmentOp.Allowed (g : Segment) : SegmentOp → Prop
  | .allocChunk _ dataBytes => dataBytes ≤ 2 ^ 31
  | .collectChunks _ cs => (cs : Multiset FreeChunk) ≤ g.owned ∧ bytes cs < 2 ^ 32

def Segment.free (g : Segment) : Multiset FreeChunk := (g.slices.map Slice.chunks).sum

/-- **Chunk conservation.** -/
structure Segment.Conserved (g : Segment) : Prop where
  /-- Every chunk carved is free or owned, -/
  chunks : g.free + g.owned = g.fsh.carved
  /-- and no two are at the same place. -/
  nodup : (g.fsh.carved.map FreeChunk.offset).Nodup
  sized : ∀ fss ∈ g.slices, fss.Sized
  counter : ∀ fss ∈ g.slices, fss.nFlChunkBytes = bytes fss.chunks
  cached : g.fsh.nCachedBytes = (g.slices.map Slice.nFlChunkBytes).sum

/-- What the proof needs besides: chunks lie below the next free byte of the segment. -/
structure Segment.Ok (g : Segment) : Prop extends g.Conserved where
  below : ∀ c ∈ g.fsh.carved, c.offset < g.fsh.byteIndex
  sizes : ∀ c ∈ g.fsh.carved, IsSize c.length
  inside : bytes g.fsh.carved ≤ g.fsh.byteIndex
  le_max : g.fsh.byteIndex ≤ g.fsh.maxByteIndex
  max_lt : g.fsh.maxByteIndex < 2 ^ 44

variable {g : Segment}

theorem bytes_sum {l : List (Multiset FreeChunk)} : bytes l.sum = (l.map bytes).sum := by
  induction l with
  | nil => rfl
  | cons s l ih => rw [sum_cons, bytes_add, ih, map_cons, sum_cons]

theorem Segment.Conserved.cached_eq (h : g.Conserved) : g.fsh.nCachedBytes = bytes g.free := by
  rw [h.cached, Segment.free, bytes_sum, map_map]
  exact congrArg List.sum (map_congr_left h.counter)

theorem Segment.Ok.slice (h : g.Ok) (hi : g.slices[i]? = some fss) : Fs.Ok ⟨g.fsh, fss⟩ := by
  have hmem := mem_of_getElem? hi
  have hcached : fss.nFlChunkBytes ≤ g.fsh.nCachedBytes := by
    rw [h.cached]
    exact single_le_sum (fun _ _ => Nat.zero_le _) _ (mem_map_of_mem hmem)
  have htotal : g.fsh.nCachedBytes ≤ bytes g.fsh.carved := by
    rw [h.toConserved.cached_eq, ← h.chunks, bytes_add]
    exact Nat.le_add_right ..
  exact ⟨h.sized fss hmem, h.counter fss hmem, hcached, htotal, h.inside, h.le_max, h.max_lt⟩

theorem Segment.Ok.store (h : g.Ok) (hi : g.slices[i]? = some fss) {new : List FreeChunk}
    {owned' : Multiset FreeChunk} (hc : Carves ⟨g.fsh, fss⟩ fs' new)
    (hchunks : (new : Multiset FreeChunk) + fss.chunks + g.owned = fs'.fss.chunks + owned') :
    (g.store i fs' owned').Ok := by
  have hslices : ∀ s ∈ g.slices.set i fs'.fss, s ∈ g.slices ∨ s = fs'.fss :=
    fun s hs => mem_or_eq_of_mem_set hs
  refine ⟨⟨?_, ?_, ?_, ?_, ?_⟩, ?_, ?_, hc.ok.inside, hc.ok.le_max, hc.ok.max_lt⟩
  · have hsum := sum_map_set Slice.chunks hi fs'.fss
    have hall := h.chunks
    show ((g.slices.set i fs'.fss).map Slice.chunks).sum + owned' = fs'.fsh.carved
    rw [hc.carved, ← Multiset.coe_add, ← hall]
    refine add_right_cancel (b := fss.chunks) ?_
    calc ((g.slices.set i fs'.fss).map Slice.chunks).sum + owned' + fss.chunks
        = g.free + (fs'.fss.chunks + owned') := by rw [add_right_comm, hsum, add_assoc]; rfl
      _ = new + (g.free + g.owned) + fss.chunks := by rw [← hchunks]; abel
  · show (fs'.fsh.carved.map FreeChunk.offset).Nodup
    rw [hc.carved, map_append, nodup_append]
    refine ⟨hc.nodup, h.nodup, ?_⟩
    intro x hx y hy heq
    obtain ⟨c, hcm, rfl⟩ := mem_map.mp hx
    obtain ⟨d, hdm, rfl⟩ := mem_map.mp hy
    have h1 : g.fsh.byteIndex ≤ c.offset := (hc.fresh c hcm).1
    have h2 := h.below d hdm
    omega
  · intro s hs
    rcases hslices s hs with hs | rfl
    · exact h.sized s hs
    · exact hc.ok.sized
  · intro s hs
    rcases hslices s hs with hs | rfl
    · exact h.counter s hs
    · exact hc.ok.counter
  · have hsum := sum_map_set Slice.nFlChunkBytes hi fs'.fss
    have hcached : fs'.fsh.nCachedBytes + fss.nFlChunkBytes =
        g.fsh.nCachedBytes + fs'.fss.nFlChunkBytes := hc.cached
    have hall := h.cached
    show fs'.fsh.nCachedBytes = ((g.slices.set i fs'.fss).map Slice.nFlChunkBytes).sum
    omega
  · show ∀ c ∈ fs'.fsh.carved, c.offset < fs'.fsh.byteIndex
    rw [hc.carved]
    refine forall_mem_append.mpr ⟨fun c hcm => (hc.fresh c hcm).2, fun c hcm => ?_⟩
    exact lt_of_lt_of_le (h.below c hcm) hc.le
  · show ∀ c ∈ fs'.fsh.carved, IsSize c.length
    rw [hc.carved]
    exact forall_mem_append.mpr ⟨hc.sizes, h.sizes⟩

theorem fshSliceCollectChunks_carves (h : g.Ok)
    (hi : g.slices[i]? = some fss) (hcs : (cs : Multiset FreeChunk) ≤ g.owned)
    (hlt : bytes cs < 2 ^ 32) :
    Carves ⟨g.fsh, fss⟩ (fshSliceCollectChunks ⟨g.fsh, fss⟩ cs) [] ∧
      (fshSliceCollectChunks ⟨g.fsh, fss⟩ cs).fss.chunks = cs + fss.chunks := by
  have hok := h.slice hi
  have hmem : ∀ c ∈ cs, IsSize c.length := by
    intro c hc
    refine h.sizes c (Multiset.mem_coe.mp ?_)
    rw [← h.chunks]
    exact Multiset.mem_add.mpr (.inr (Multiset.mem_of_le hcs (Multiset.mem_coe.mpr hc)))
  obtain ⟨hsized, hchunks, hcounter⟩ := pushAll_spec hok.sized hmem
  have hn : (collectLoop cs fss 0).2 = bytes cs :=
    (collectLoop_snd hmem (by omega)).trans (zero_add _)
  -- the chunks that come back are not counted as free yet
  have hroom : g.fsh.nCachedBytes + bytes cs ≤ bytes g.fsh.carved := by
    obtain ⟨rest, hrest⟩ := Multiset.le_iff_exists_add.mp hcs
    rw [h.toConserved.cached_eq, ← h.chunks, bytes_add, hrest, bytes_add]
    omega
  have hcount : fss.nFlChunkBytes = bytes fss.chunks := hok.counter
  have hcached : fss.nFlChunkBytes ≤ g.fsh.nCachedBytes := hok.cached
  have hinside := h.inside
  have hle := h.le_max
  have hmax := h.max_lt
  have hfl : addW 64 fss.nFlChunkBytes (bytes cs) = fss.nFlChunkBytes + bytes cs :=
    addW_of_lt (by omega)
  have hca : addW 64 g.fsh.nCachedBytes (bytes cs) = g.fsh.nCachedBytes + bytes cs :=
    addW_of_lt (by omega)
  have hbytes : bytes (fss.pushAll cs).chunks = bytes cs + bytes fss.chunks := by rw [hchunks, bytes_add]
  have heq : fshSliceCollectChunks ⟨g.fsh, fss⟩ cs =
      ⟨{ g.fsh with nCachedBytes := g.fsh.nCachedBytes + bytes cs },
        { fss.pushAll cs with nFlChunkBytes := fss.nFlChunkBytes + bytes cs }⟩ := by
    simp only [fshSliceCollectChunks, Fs.bytesAdd, collectLoop_fst, hn, hcounter, hfl, hca]
  rw [heq]
  refine ⟨⟨⟨hsized, ?_, ?_, hroom, hinside, hle, hmax⟩, rfl, ?_, (fun _ h => nomatch h),
    (fun _ h => nomatch h), nodup_nil, le_refl _, rfl⟩, hchunks⟩
  · show fss.nFlChunkBytes + bytes cs = bytes (fss.pushAll cs).chunks
    omega
  · show fss.nFlChunkBytes + bytes cs ≤ g.fsh.nCachedBytes + bytes cs
    omega
  · show g.fsh.nCachedBytes + bytes cs + fss.nFlChunkBytes =
      g.fsh.nCachedBytes + (fss.nFlChunkBytes + bytes cs)
    omega

theorem Segment.Ok.step (h : g.Ok) {op : SegmentOp} (hop : op.Allowed g) : (g.step op).1.Ok := by
  cases op with
  | allocChunk i data =>
    unfold Segment.step
    dsimp only
    split
    · exact h
    rename_i fss hi
    obtain ⟨new, hy, -⟩ := fshTryAllocChunk_yields (h.slice hi) hop
    refine h.store hi hy.toCarves ?_
    have hchunks : (new : Multiset FreeChunk) + fss.chunks = _ + _ := hy.chunks
    rw [hchunks]
    abel
  | collectChunks i cs =>
    unfold Segment.step
    dsimp only
    split
    · exact h
    rename_i fss hi
    obtain ⟨hc, hchunks⟩ := fshSliceCollectChunks_carves h hi hop.1 hop.2
    refine h.store hi hc ?_
    obtain ⟨rest, hrest⟩ := Multiset.le_iff_exists_add.mp hop.1
    rw [hchunks, hrest, Multiset.coe_nil, add_tsub_cancel_left]
    abel

/-- `fifo_segment_init`: nothing is carved yet. -/
def fifoSegmentInit (nSlices byteIndex maxByteIndex : Nat) : Segment :=
  ⟨⟨0, byteIndex, maxByteIndex, []⟩, List.replicate nSlices ⟨fun _ => [], 0⟩, 0⟩

theorem fifoSegmentInit_ok {nSlices byteIndex maxByteIndex : Nat} (hle : byteIndex ≤ maxByteIndex)
    (hmax : maxByteIndex < 2 ^ 44) : (fifoSegmentInit nSlices byteIndex maxByteIndex).Ok := by
  have hempty : ∀ fss ∈ List.replicate nSlices (⟨fun _ => [], 0⟩ : Slice), fss = ⟨fun _ => [], 0⟩ :=
    fun fss hs => eq_of_mem_replicate hs
  have hnone : (⟨fun _ => [], 0⟩ : Slice).chunks = 0 := by
    unfold Slice.chunks binned
    exact Finset.sum_eq_zero fun _ _ => rfl
  refine ⟨⟨?_, nodup_nil, ?_, ?_, ?_⟩, (fun _ h => nomatch h), (fun _ h => nomatch h),
    Nat.zero_le _, hle, hmax⟩
  · show ((List.replicate nSlices _).map Slice.chunks).sum + 0 = 0
    rw [map_replicate, hnone, sum_replicate, nsmul_zero, add_zero]
  · intro fss hs i c hc
    rw [hempty fss hs] at hc
    cases hc
  · intro fss hs
    rw [hempty fss hs]
    rfl
  · show 0 = ((List.replicate nSlices _).map Slice.nFlChunkBytes).sum
    rw [map_replicate, sum_replicate, nsmul_zero]

/-- An allocation that returns no chunk takes none off the lists of its slice: it may only have added new ones
of the smallest size. -/
def Segment.FailsCleanly (g : Segment) : Prop :=
  ∀ (i : Nat) (fss : Slice), g.slices[i]? = some fss → ∀ data ≤ 2 ^ 31,
    (fshTryAllocChunk ⟨g.fsh, fss⟩ data).2 = [] →
    ∃ new : List FreeChunk, (fshTryAllocChunk ⟨g.fsh, fss⟩ data).1.fss.chunks = new + fss.chunks ∧
      ∀ c ∈ new, c.length = minFifoSize ∧ c ∉ g.fsh.carved

/-- **Chunks are conserved** over every run of allocations and collections of a new segment. -/
theorem run_conserved (nSlices byteIndex maxByteIndex : Nat) (hle : byteIndex ≤ maxByteIndex)
    (hmax : maxByteIndex < 2 ^ 44) (ops : List SegmentOp)
    (hops : Along Segment.step (fun g op => op.Allowed g)
      (fifoSegmentInit nSlices byteIndex maxByteIndex) ops) :
    (after Segment.step (fifoSegmentInit nSlices byteIndex maxByteIndex) ops).Conserved ∧
      (after Segment.step (fifoSegmentInit nSlices byteIndex maxByteIndex) ops).FailsCleanly := by
  obtain ⟨hok, -⟩ := hops.invariant Segment.Ok (fun _ => True)
    (fun g op hg hop => ⟨hg.step hop, trivial⟩) (fifoSegmentInit_ok hle hmax)
  generalize after Segment.step (fifoSegmentInit nSlices byteIndex maxByteIndex) ops = g at hok
  refine ⟨hok.toConserved, fun i fss hi data hdata hnil => ?_⟩
  obtain ⟨new, hy, hlen, -⟩ := fshTryAllocChunk_yields (hok.slice hi) hdata
  refine ⟨new, ?_, fun c hc => ⟨hlen hnil c hc, fun hold => ?_⟩⟩
  · have hchunks : (new : Multiset FreeChunk) + fss.chunks = _ + _ := hy.chunks
    rw [hchunks, hnil, Multiset.coe_nil, zero_add]
  · have h1 : g.fsh.byteIndex ≤ c.offset := (hy.fresh c hc).1
    have h2 := hok.below c hold
    omega

/-- A chunk of 64 KB is allocated and collected, and 16 KB are asked for with 8300 bytes left. -/
def smallSegmentOps : List SegmentOp :=
  [.allocChunk 0 65536, .collectChunks 0 [⟨0, 65536⟩], .allocChunk 0 16384]

instance (g : Segment) (op : SegmentOp) : Decidable (op.Allowed g) := by
  cases op with
  | allocChunk i n => exact inferInstanceAs (Decidable (_ ≤ _))
  | collectChunks i cs => exact inferInstanceAs (Decidable (_ ∧ _))

theorem run_conserved_small :
    (after Segment.step (fifoSegmentInit 1 0 73860) smallSegmentOps).Conserved :=
  (run_conserved 1 0 73860 (by decide) (by decide) smallSegmentOps (by decide +kernel)).1

/-- The last of these allocations returns no chunk and leaves two more chunks on the free lists. -/
theorem failed_alloc_adds_chunks :
    Along Segment.step (fun g op => op.Allowed g) (fifoSegmentInit 1 0 73860) smallSegmentOps ∧
      (outputs Segment.step (fifoSegmentInit 1 0 73860) smallSegmentOps)[2]? = some [] ∧
      (after Segment.step (fifoSegmentInit 1 0 73860) smallSegmentOps).free ≠
        (after Segment.step (fifoSegmentInit 1 0 73860) (smallSegmentOps.take 2)).free := by
  decide +kernel

/-! ## Requests above the largest size -/

theorem indexToSize_freelistForSize_le (n : Nat) :
    fsFreelistIndexToSize (fsFreelistForSize n) ≤ 2 ^ 22 :=
  Nat.pow_le_pow_right two_pos
    (Nat.add_le_add_right (Nat.le_pred_of_lt (fsFreelistForSize_lt n)) minLog2FifoSize)

/-- **An allocation returns enough** for a request of at most the largest chunk size, in every segment
reached. A larger request gets one of the largest chunks if there is one or one can be carved. -/
theorem alloc_enough_iff (nSlices byteIndex maxByteIndex : Nat) (hle : byteIndex ≤ maxByteIndex)
    (hmax : maxByteIndex < 2 ^ 44) (ops : List SegmentOp)
    (hops : Along Segment.step (fun g op => op.Allowed g)
      (fifoSegmentInit nSlices byteIndex maxByteIndex) ops) {g : Segment}
    (hg : g = after Segment.step (fifoSegmentInit nSlices byteIndex maxByteIndex) ops)
    {i : Nat} {fss : Slice} (hi : g.slices[i]? = some fss) {n : Nat} (hn : n ≤ 2 ^ 31)
    (hout : (fshTryAllocChunk ⟨g.fsh, fss⟩ n).2 ≠ []) :
    n ≤ bytes (fshTryAllocChunk ⟨g.fsh, fss⟩ n).2 ↔
      n ≤ 2 ^ 22 ∨ Fs.Lacks ⟨g.fsh, fss⟩ (fsChunkVecLen - 1) := by
  obtain ⟨hok, -⟩ := hops.invariant Segment.Ok (fun _ => True)
    (fun g op hg hop => ⟨hg.step hop, trivial⟩) (fifoSegmentInit_ok hle hmax)
  rw [← hg] at hok
  obtain ⟨-, -, -, hone, hmany⟩ := fshTryAllocChunk_yields (hok.slice hi) hn
  have hsize := indexToSize_freelistForSize_le n
  -- the list of the request decides, and it is the last one when it does not hold the request
  rcases le_indexToSize with hfit | hlast
  · refine iff_of_true ?_ (.inl (le_trans hfit hsize))
    by_cases hlacks : Fs.Lacks ⟨g.fsh, fss⟩ (fsFreelistForSize n)
    · exact hmany hlacks hout
    · rw [hone hlacks]
      exact hfit
  · rw [hlast] at hone hmany
    by_cases hlacks : Fs.Lacks ⟨g.fsh, fss⟩ (fsChunkVecLen - 1)
    · exact iff_of_true (hmany hlacks hout) (.inr hlacks)
    · rw [hone hlacks]
      exact (or_iff_left hlacks).symm

/-- 6 KB of a new segment. -/
theorem alloc_enough_iff_small :
    6144 ≤ bytes (fshTryAllocChunk ⟨(fifoSegmentInit 1 0 73860).fsh, ⟨fun _ => [], 0⟩⟩ 6144).2 :=
  (alloc_enough_iff 1 0 73860 (by decide) (by decide) [] trivial rfl (i := 0) rfl (n := 6144)
    (by decide) (by decide +kernel)).mpr (.inl (by decide))

/-- 8 MB of a new segment of 1 GB: one chunk of 4 MB. -/
theorem large_alloc_short :
    ((fshTryAllocChunk ⟨(fifoSegmentInit 1 0 (2 ^ 30)).fsh, ⟨fun _ => [], 0⟩⟩ (2 ^ 23)).2).map
      FreeChunk.length = [2 ^ 22] := by
  decide +kernel

end Vpp.Svm
