import Vpp.Vlib.Buffer

/-!
# Freeing shared chains

As long as each buffer's count is the number of chains it is part of, a call frees the chains it is given
and leaves the others as they are: a buffer that only the given chains use is put into its pool, once, and
a buffer that others use as well keeps all but its count. The count of eight bits is enough for 256 chains:
a count of 256 is stored as zero, and zero comes back only with the last reference.
-/

namespace Vpp.Vlib

open Lib List BitVec
open Function (update update_self update_of_ne)

variable {mem : Memory} {c : List Nat} {cs ds es : List (List Nat)} {x : Nat}

/-! ## Counts -/

/-- The chains `cs`, with the counts of their buffers right. A chain is known by its first buffer, which
is not part of another one. -/
structure Shared (mem : Memory) (cs : List (List Nat)) : Prop where
  chain : ∀ c ∈ cs, IsChain mem c
  nodup : ∀ c ∈ cs, c.Nodup
  refCount : ∀ x, 0 < uses cs x → (mem x).refCount = BitVec.ofNat 8 (uses cs x)
  uses_le : ∀ x, uses cs x ≤ 256
  head : ∀ c ∈ cs, ∀ h ∈ c.head?, uses cs h = 1

/-- The chains `ds` are gone and `cs` are left. -/
def released (ds cs : List (List Nat)) (mem : Memory) : Memory := fun x =>
  if 0 < uses ds x then
    if uses cs x = 0 then (mem x).copyTemplate (mem x).bufferPoolIndex
    else { mem x with refCount := BitVec.ofNat 8 (uses cs x) }
  else mem x

/-- What comes into a pool with the chains `ds` if `cs` are left. -/
def gained (ds cs : List (List Nat)) (mem : Memory) (p : U8) (x : Nat) : Nat :=
  if 0 < uses ds x ∧ uses cs x = 0 ∧ p = (mem x).bufferPoolIndex then 1 else 0

theorem released_of_uses (hds : uses ds x = 0) : released ds cs mem x = mem x := by
  simp [released, hds]

theorem released_of_pos (hds : 0 < uses ds x) :
    released ds cs mem x =
      if uses cs x = 0 then (mem x).copyTemplate (mem x).bufferPoolIndex
      else { mem x with refCount := BitVec.ofNat 8 (uses cs x) } := if_pos hds

theorem released_of_left (hcs : 0 < uses cs x) :
    released ds cs mem x = { mem x with refCount := (released ds cs mem x).refCount } := by
  unfold released
  split
  · rw [if_neg (Nat.ne_of_gt hcs)]
  · rfl

@[simp] theorem bufferPoolIndex_released :
    (released ds cs mem x).bufferPoolIndex = (mem x).bufferPoolIndex := by
  unfold released
  split
  · split <;> rfl
  · rfl

theorem released_append : released es cs (released ds (es ++ cs) mem) = released (ds ++ es) cs mem := by
  funext x
  have happ := uses_append ds es x
  have hleft := uses_append es cs x
  by_cases hes : uses es x = 0
  · rw [released_of_uses hes]
    unfold released
    rw [happ, hleft, hes, Nat.add_zero, Nat.zero_add]
  by_cases hds : uses ds x = 0
  · unfold released
    simp only [happ, hds, Nat.zero_add, Nat.lt_irrefl, if_false]
  have hin : released ds (es ++ cs) mem x =
      { mem x with refCount := BitVec.ofNat 8 (uses (es ++ cs) x) } := by
    rw [released_of_pos (Nat.pos_of_ne_zero hds), if_neg (by omega)]
  rw [released_of_pos (Nat.pos_of_ne_zero hes), hin, released_of_pos (by omega)]
  rfl

theorem gained_append (p : U8) :
    gained ds (es ++ cs) mem p x + gained es cs (released ds (es ++ cs) mem) p x =
      gained (ds ++ es) cs mem p x := by
  unfold gained
  rw [bufferPoolIndex_released, uses_append, uses_append]
  by_cases hes : uses es x = 0
  · simp [hes]
  have h1 : ¬ (0 < uses ds x ∧ uses es x + uses cs x = 0 ∧ p = (mem x).bufferPoolIndex) := by
    omega
  rw [if_neg h1, Nat.zero_add]
  congr 1
  apply propext
  refine and_congr_left fun _ => ?_
  omega

theorem ofNat_sub_one {n : Nat} (h1 : 1 ≤ n) : BitVec.ofNat 8 n - 1 = BitVec.ofNat 8 (n - 1) := by
  obtain ⟨m, rfl⟩ : ∃ m, n = m + 1 := ⟨n - 1, by omega⟩
  rw [ofNat_add]
  exact BitVec.add_sub_cancel ..

namespace Shared

variable {mem : Memory}

theorem perm (h : Shared mem cs) (hp : cs.Perm ds) : Shared mem ds := by
  refine ⟨fun c hc => h.chain c (hp.mem_iff.mpr hc), fun c hc => h.nodup c (hp.mem_iff.mpr hc), ?_, ?_, ?_⟩
  · intro x
    rw [← uses_perm hp]
    exact h.refCount x
  · intro x
    rw [← uses_perm hp]
    exact h.uses_le x
  · intro c hc x hx
    rw [← uses_perm hp]
    exact h.head c (hp.mem_iff.mpr hc) x hx

theorem release (h : Shared mem (ds ++ cs)) : Shared (released ds cs mem) cs := by
  have happ : ∀ x, uses (ds ++ cs) x = uses ds x + uses cs x := uses_append ds cs
  refine ⟨fun c hc => ?_, fun c hc => h.nodup c (mem_append_right ds hc), fun x hx => ?_,
    fun x => ?_, fun c hc x hx => ?_⟩
  · refine (h.chain c (mem_append_right ds hc)).congr fun x hx => ?_
    rw [released_of_left (uses_pos.mpr ⟨c, hc, hx⟩)]
    rfl
  · unfold released
    split
    · rw [if_neg (Nat.ne_of_gt hx)]
    · rw [h.refCount x (by rw [happ]; omega), happ, show uses ds x = 0 by omega, Nat.zero_add]
  · have := h.uses_le x
    rw [happ] at this
    omega
  · have h1 := h.head c (mem_append_right ds hc) x hx
    have h2 : 0 < uses cs x := uses_pos.mpr ⟨c, hc, mem_of_mem_head? hx⟩
    rw [happ] at h1
    omega

end Shared

/-! ## One buffer -/

variable {simd : Simd}

namespace FreeState

variable {s : FreeState} {i : Nat} {p : U8}

def pooled (s : FreeState) (p : U8) (x : Nat) : Nat :=
  (s.vm.free p).count x + if p = s.bufferPoolIndex then s.queue.count x else 0

def SameEnv (s t : FreeState) : Prop :=
  t.vm.numaPool = s.vm.numaPool ∧ t.vm.defaultDataSize = s.vm.defaultDataSize ∧
    t.vm.grants = s.vm.grants

theorem sameEnv_refl : SameEnv s s := ⟨rfl, rfl, rfl⟩

theorem SameEnv.trans {t u : FreeState} (h : SameEnv s t) (h' : SameEnv t u) : SameEnv s u :=
  ⟨h'.1.trans h.1, h'.2.1.trans h.2.1, h'.2.2.trans h.2.2⟩

theorem free_flush : (s.flush.vm.free p).count x = s.pooled p x := by
  unfold pooled flush Vm.poolPut
  dsimp only
  by_cases hp : p = s.bufferPoolIndex
  · rw [hp, update_self, count_append, if_pos rfl, Nat.add_comm]
  · rw [update_of_ne hp, if_neg hp, Nat.add_zero]

theorem pooled_of_nil (hq : s.queue = []) (p : U8) (x : Nat) :
    s.pooled p x = (s.vm.free p).count x := by
  simp [pooled, hq]

theorem pooled_flush : s.flush.pooled p x = s.pooled p x := by
  rw [pooled_of_nil rfl]
  exact free_flush

theorem switchPool_spec :
    (s.switchPool p).vm.buffer = s.vm.buffer ∧ (s.switchPool p).bufferPoolIndex = p ∧
      (∀ q x, (s.switchPool p).pooled q x = s.pooled q x) ∧ SameEnv s (s.switchPool p) := by
  unfold switchPool
  split
  · split
    · refine ⟨rfl, rfl, fun q x => ?_, rfl, rfl, rfl⟩
      rw [pooled_of_nil rfl]
      exact free_flush
    rename_i hq
    have hq := not_not.mp hq
    refine ⟨rfl, rfl, fun q x => ?_, rfl, rfl, rfl⟩
    rw [pooled_of_nil hq]
    exact pooled_of_nil (s := { s with bufferPoolIndex := p }) hq q x
  · rename_i hp
    exact ⟨rfl, not_not.mp hp, fun _ _ => rfl, rfl, rfl, rfl⟩

def dropped (b : Buffer) : Buffer :=
  if b.refCount - 1 = 0 then b.copyTemplate b.bufferPoolIndex else { b with refCount := b.refCount - 1 }

theorem dropRef_spec (hpool : s.bufferPoolIndex = (s.vm.buffer i).bufferPoolIndex) :
    (s.dropRef i).vm.buffer = update s.vm.buffer i (dropped (s.vm.buffer i)) ∧
      (∀ p x, (s.dropRef i).pooled p x = s.pooled p x +
        if x = i ∧ (s.vm.buffer i).refCount - 1 = 0 ∧ p = (s.vm.buffer i).bufferPoolIndex then 1 else 0) ∧
      SameEnv s (s.dropRef i) := by
  unfold dropRef dropped
  dsimp only
  split
  · rename_i hlast
    refine ⟨by rw [← hpool]; rfl, fun p x => ?_, rfl, rfl, rfl⟩
    unfold pooled Vm.setBuffer
    rw [count_append, count_singleton, ← hpool, Nat.add_assoc]
    congr 1
    by_cases hp : p = s.bufferPoolIndex
    · rw [if_pos hp, if_pos hp]
      congr 1
      simp only [hp, hlast, and_true, beq_iff_eq]
      exact if_congr eq_comm rfl rfl
    · rw [if_neg hp, if_neg hp, if_neg fun h => hp h.2.2]
  · rename_i hmore
    refine ⟨rfl, fun p x => ?_, rfl, rfl, rfl⟩
    rw [if_neg fun h => hmore h.2.1]
    rfl

theorem freeOne_spec :
    (s.freeOne i).vm.buffer = update s.vm.buffer i (dropped (s.vm.buffer i)) ∧
      (∀ p x, (s.freeOne i).pooled p x = s.pooled p x +
        if x = i ∧ (s.vm.buffer i).refCount - 1 = 0 ∧ p = (s.vm.buffer i).bufferPoolIndex then 1 else 0) ∧
      SameEnv s (s.freeOne i) := by
  obtain ⟨hbuf, hpool, hpooled, henv⟩ := switchPool_spec
  unfold freeOne
  generalize s.switchPool (s.vm.buffer i).bufferPoolIndex = t at *
  rw [← hbuf] at hpool ⊢
  obtain ⟨hdrop, hdropped, hdenv⟩ := dropRef_spec hpool
  dsimp only
  split
  · refine ⟨hdrop, fun p x => ?_, (henv.trans hdenv).trans ⟨rfl, rfl, rfl⟩⟩
    rw [pooled_flush, hdropped, hpooled]
  · refine ⟨hdrop, fun p x => ?_, henv.trans hdenv⟩
    rw [hdropped, hpooled]

/-! ## One chain -/

variable {fuel : Nat} {β : Type} {is : List Nat}

theorem freeChain_spec (s : FreeState) (hc : IsChain s.vm.buffer c) (hnd : c.Nodup) (hfuel : c.length ≤ fuel)
    (hi : c.head? = some i) :
    ∃ t, freeChain fuel s i = some t ∧
      (∀ x, t.vm.buffer x = if x ∈ c then dropped (s.vm.buffer x) else s.vm.buffer x) ∧
      (∀ p x, t.pooled p x = s.pooled p x +
        if x ∈ c ∧ (s.vm.buffer x).refCount - 1 = 0 ∧ p = (s.vm.buffer x).bufferPoolIndex then 1 else 0) ∧
      SameEnv s t := by
  induction c generalizing s fuel i with
  | nil => cases hi
  | cons a l ih =>
    obtain rfl : a = i := Option.some.inj hi
    obtain ⟨hbuf, hpooled, henv⟩ := freeOne_spec
    obtain ⟨fuel, rfl⟩ : ∃ k, fuel = k + 1 := ⟨fuel - 1, by simp at hfuel; omega⟩
    obtain ⟨hal, hndl⟩ := nodup_cons.mp hnd
    unfold freeChain
    rcases hc.tail with ⟨hnone, rfl⟩ | ⟨b, l', rfl, hsome, hlinks⟩
    · rw [hnone]
      refine ⟨_, rfl, fun x => ?_, fun p x => ?_, henv⟩
      · rw [hbuf]
        by_cases hx : x = a
        · rw [hx, update_self, if_pos mem_cons_self]
        · rw [update_of_ne hx, if_neg (by simpa using hx)]
      · rw [hpooled]
        by_cases hx : x = a
        · simp [hx]
        · simp [hx]
    · rw [hsome]
      have hne : ∀ x ∈ b :: l', x ≠ a := fun x hx he => hal (he ▸ hx)
      have hsame : ∀ x ∈ b :: l', (s.freeOne a).vm.buffer x = s.vm.buffer x := fun x hx => by
        rw [hbuf, update_of_ne (hne x hx)]
      have hfuel' : (b :: l').length ≤ fuel := by
        simp only [length_cons] at hfuel ⊢
        omega
      obtain ⟨t, ht, htbuf, htpooled, htenv⟩ := ih (s.freeOne a)
        (hlinks.congr fun x hx => by rw [hsame x hx]) hndl hfuel' rfl
      refine ⟨t, ht, fun x => ?_, fun p x => ?_, henv.trans htenv⟩
      · rw [htbuf]
        by_cases hx : x ∈ b :: l'
        · rw [if_pos hx, if_pos (mem_cons_of_mem a hx), hsame x hx]
        · rw [if_neg hx, hbuf]
          by_cases hxa : x = a
          · rw [hxa, update_self, if_pos mem_cons_self]
          · rw [update_of_ne hxa, if_neg (by simp [hxa] at hx ⊢; exact hx)]
      · rw [htpooled, hpooled, Nat.add_assoc]
        by_cases hx : x ∈ b :: l'
        · have hxa := hne x hx
          rw [if_neg fun h => hxa h.1, hsame x hx]
          simp [hxa]
        · by_cases hxa : x = a
          · subst hxa
            simp [hx]
          · simp [hx, hxa]

theorem dropped_eq (h : Shared mem (c :: cs)) (hx : x ∈ c) :
    dropped (mem x) = released [c] cs mem x ∧
      ((mem x).refCount - 1 = 0 ↔ uses cs x = 0) := by
  have huses : uses (c :: cs) x = uses cs x + 1 := by rw [uses_cons, if_pos hx]
  have href := h.refCount x (by omega)
  have hle := h.uses_le x
  rw [huses] at href hle
  have hzero : (mem x).refCount - 1 = 0 ↔ uses cs x = 0 := by
    rw [href, ofNat_sub_one (Nat.le_add_left 1 _), ← toNat_inj, toNat_ofNat, Nat.mod_eq_of_lt (by omega)]
    rfl
  refine ⟨?_, hzero⟩
  rw [released_of_pos (by rw [uses_cons, if_pos hx]; exact Nat.succ_pos _), dropped]
  simp only [hzero]
  rw [href, ofNat_sub_one (Nat.le_add_left 1 _), Nat.add_sub_cancel]

theorem freeChain_shared (h : Shared s.vm.buffer (c :: cs)) (hfuel : c.length ≤ fuel)
    (hi : c.head? = some i) :
    ∃ t, freeChain fuel s i = some t ∧ t.vm.buffer = released [c] cs s.vm.buffer ∧
      (∀ p x, t.pooled p x = s.pooled p x + gained [c] cs s.vm.buffer p x) ∧ SameEnv s t := by
  have hc := mem_cons_self (a := c) (l := cs)
  obtain ⟨t, ht, hbuf, hpooled, henv⟩ := freeChain_spec s (h.chain c hc) (h.nodup c hc) hfuel hi
  have huse : ∀ x, 0 < uses [c] x ↔ x ∈ c := fun x => by simp [uses_pos]
  refine ⟨t, ht, funext fun x => ?_, fun p x => ?_, henv⟩
  · rw [hbuf]
    by_cases hx : x ∈ c
    · rw [if_pos hx, (dropped_eq h hx).1]
    · rw [if_neg hx, released_of_uses (by simpa [uses_eq_zero] using hx)]
  · rw [hpooled, gained]
    by_cases hx : x ∈ c
    · simp only [huse, (dropped_eq h hx).2]
    · simp [hx, huse]

/-! ## Several buffers at a time -/

theorem getLsbD_foldl_or {w k : Nat} (f : β → BitVec w) (l : List β) (r : BitVec w) :
    (l.foldl (fun r b => r ||| f b) r).getLsbD k = (r.getLsbD k || l.any fun b => (f b).getLsbD k) := by
  induction l generalizing r with
  | nil => simp
  | cons b l ih => rw [foldl_cons, ih, getLsbD_or, any_cons, Bool.or_assoc]

theorem foldl_or_eq_zero {w : Nat} {f : β → BitVec w} {l : List β} {r : BitVec w}
    (h : l.foldl (fun r b => r ||| f b) r = 0) : r = 0 ∧ ∀ b ∈ l, f b = 0 := by
  induction l generalizing r with
  | nil => exact ⟨h, fun _ hb => nomatch hb⟩
  | cons b l ih =>
    obtain ⟨hr, hl⟩ := ih h
    obtain ⟨hr0, hb0⟩ := or_eq_zero_iff.mp hr
    exact ⟨hr0, forall_mem_cons.mpr ⟨hb0, hl⟩⟩

theorem foldl_refCount {l : List Buffer} (h : ∀ b ∈ l, b.refCount = 1) (r : U32) :
    l.foldl (fun r b => r + (b.refCount.setWidth 32 - 1)) r = r := by
  induction l generalizing r with
  | nil => rfl
  | cons b l ih =>
    rw [foldl_cons, ih fun b' hb' => h b' (mem_cons_of_mem b hb'), h b mem_cons_self]
    simp

theorem allSingle_spec (h : s.allSingle simd is = true) (href : ∀ i ∈ is, (s.vm.buffer i).refCount = 1) :
    ∀ i ∈ is, (s.vm.buffer i).bufferPoolIndex = s.bufferPoolIndex ∧ (s.vm.buffer i).hasNext = false := by
  have hvec : (is.map s.vm.buffer).all (fun b => b.bufferPoolIndex == s.bufferPoolIndex && !b.hasNext &&
      b.refCount &&& ~~~(1#8) == 0) = true →
      ∀ i ∈ is, (s.vm.buffer i).bufferPoolIndex = s.bufferPoolIndex ∧ (s.vm.buffer i).hasNext = false := by
    intro hall i hi
    have := all_eq_true.mp hall _ (mem_map_of_mem hi)
    simp only [Bool.and_eq_true, beq_iff_eq, Bool.not_eq_true'] at this
    exact this.1
  cases simd with
  | vec512 => exact hvec h
  | vec128 => exact hvec h
  | scalar =>
    intro i hi
    have hmem : s.vm.buffer i ∈ is.map s.vm.buffer := mem_map_of_mem hi
    have hrefs : ∀ b ∈ is.map s.vm.buffer, b.refCount = 1 := by
      intro b hb
      obtain ⟨j, hj, rfl⟩ := mem_map.mp hb
      exact href j hj
    have h0 := beq_iff_eq.mp h
    rw [foldl_refCount hrefs] at h0
    obtain ⟨hflags, hpools⟩ := foldl_or_eq_zero h0
    refine ⟨?_, ?_⟩
    · have hx := hpools _ hmem
      have hx' : (s.vm.buffer i).bufferPoolIndex ^^^ s.bufferPoolIndex = 0 := by
        rw [← toNat_inj] at hx ⊢
        exact hx
      exact BitVec.xor_eq_zero_iff.mp hx'
    · have hbit : BitVec.getLsbD _ 1 = (0 : U32).getLsbD 1 := congrArg (fun r : U32 => r.getLsbD 1) hflags
      rw [getLsbD_and, getLsbD_foldl_or, show nextPresent.getLsbD 1 = true by decide,
        Bool.and_true, show (0 : U32).getLsbD 1 = false by decide, Bool.false_or,
        any_eq_false] at hbit
      exact Bool.eq_false_iff.mpr (hbit _ hmem)

theorem uses_singletons (is : List Nat) (x : Nat) : uses (is.map fun i => [i]) x = is.count x := by
  rw [uses, countP_map]
  refine countP_congr fun i _ => ?_
  simp only [Function.comp_apply, mem_singleton, decide_eq_true_eq, beq_iff_eq]
  exact eq_comm

theorem eq_singletons {js : List Nat} (hheads : ds.map List.head? = js.map some)
    (hone : ∀ d ∈ ds, ∀ j ∈ d.head?, d = [j]) : ds = js.map fun j => [j] := by
  induction ds generalizing js with
  | nil =>
    obtain rfl : js = [] := map_eq_nil_iff.mp hheads.symm
    rfl
  | cons d ds ih =>
    obtain ⟨j, js, rfl, hj, hjs⟩ := map_eq_cons_iff.mp hheads.symm
    rw [map_cons, ← ih hjs.symm fun e he => hone e (mem_cons_of_mem d he),
      hone d mem_cons_self j hj.symm]

theorem freeSingles_shared (h : Shared s.vm.buffer (is.map (fun i => [i]) ++ cs))
    (hpool : ∀ i ∈ is, (s.vm.buffer i).bufferPoolIndex = s.bufferPoolIndex) :
    (s.freeSingles is).vm.buffer = released (is.map fun i => [i]) cs s.vm.buffer ∧
      (∀ p x, (s.freeSingles is).pooled p x =
        s.pooled p x + gained (is.map fun i => [i]) cs s.vm.buffer p x) ∧
      SameEnv s (s.freeSingles is) := by
  have huses := uses_singletons is
  have hone : ∀ i ∈ is, is.count i = 1 ∧ uses cs i = 0 := by
    intro i hi
    have := h.head [i] (mem_append_left _ (mem_map_of_mem hi)) i rfl
    have hpos : 0 < is.count i := count_pos_iff.mpr hi
    rw [uses_append, huses] at this
    omega
  have hbuf : (fun i => if i ∈ is then (s.vm.buffer i).copyTemplate s.bufferPoolIndex else s.vm.buffer i) =
      released (is.map fun i => [i]) cs s.vm.buffer := by
    funext x
    by_cases hx : x ∈ is
    · rw [if_pos hx, released_of_pos (by rw [huses]; exact count_pos_iff.mpr hx),
        if_pos (hone x hx).2, hpool x hx]
    · rw [if_neg hx, released_of_uses (by rw [huses]; exact count_eq_zero.mpr hx)]
  have hcount : ∀ p x, (if p = s.bufferPoolIndex then is.count x else 0) =
      gained (is.map fun i => [i]) cs s.vm.buffer p x := by
    intro p x
    simp only [gained, huses]
    by_cases hx : x ∈ is
    · simp [hone x hx, hpool x hx]
    · simp [count_eq_zero.mpr hx]
  unfold freeSingles
  rw [hbuf]
  dsimp only
  have hpooled : ∀ p x, ({ s with
      queue := s.queue ++ is } : FreeState).pooled p x =
      s.pooled p x + gained (is.map fun i => [i]) cs s.vm.buffer p x := by
    intro p x
    unfold pooled
    rw [← hcount, count_append, Nat.add_assoc]
    split <;> rfl
  split
  · refine ⟨rfl, fun p x => ?_, rfl, rfl, rfl⟩
    rw [pooled_flush]
    exact hpooled p x
  · exact ⟨rfl, hpooled, rfl, rfl, rfl⟩

/-! ## All of them -/

theorem released_nil : released [] cs mem = mem :=
  funext fun _ => released_of_uses rfl

theorem gained_nil : gained [] cs mem p x = 0 := by
  simp [gained]

theorem freeLoop_shared (n : Nat) (h : Shared s.vm.buffer (ds ++ cs))
    (hheads : ds.map List.head? = is.map some) (hn : is.length ≤ n) (hfuel : ∀ d ∈ ds, d.length ≤ fuel) :
    ∃ t, freeLoop simd fuel n s is = some t ∧ t.vm.buffer = released ds cs s.vm.buffer ∧
      (∀ p x, t.pooled p x = s.pooled p x + gained ds cs s.vm.buffer p x) ∧ SameEnv s t := by
  induction n generalizing s ds is with
  | zero =>
    obtain rfl : is = [] := length_eq_zero_iff.mp (Nat.le_zero.mp hn)
    obtain rfl : ds = [] := map_eq_nil_iff.mp hheads
    refine ⟨s, rfl, released_nil.symm, fun p x => ?_, sameEnv_refl⟩
    rw [gained_nil, Nat.add_zero]
  | succ n ih =>
    cases is with
    | nil =>
      obtain rfl : ds = [] := map_eq_nil_iff.mp hheads
      refine ⟨s, rfl, released_nil.symm, fun p x => ?_, sameEnv_refl⟩
      rw [gained_nil, Nat.add_zero]
    | cons i is =>
      -- freeing the chains `d` and then those of `e`
      have hthen : ∀ {d e : List (List Nat)} {t : FreeState}, d ++ e = ds →
          t.vm.buffer = released d (e ++ cs) s.vm.buffer →
          (∀ p x, t.pooled p x = s.pooled p x + gained d (e ++ cs) s.vm.buffer p x) → SameEnv s t →
          ∀ {js : List Nat}, e.map List.head? = js.map some → js.length ≤ n →
          ∃ u, freeLoop simd fuel n t js = some u ∧ u.vm.buffer = released ds cs s.vm.buffer ∧
            (∀ p x, u.pooled p x = s.pooled p x + gained ds cs s.vm.buffer p x) ∧ SameEnv s u := by
        intro d e t hde hbuf hpooled henv js hjs hlen
        subst hde
        rw [List.append_assoc] at h
        have hsh : Shared t.vm.buffer (e ++ cs) := by
          rw [hbuf]
          exact h.release
        obtain ⟨u, hu, hubuf, hupooled, huenv⟩ := ih hsh hjs hlen fun x hx =>
          hfuel x (mem_append_right d hx)
        refine ⟨u, hu, ?_, fun p x => ?_, henv.trans huenv⟩
        · rw [hubuf, hbuf, released_append]
        · rw [hupooled, hpooled, hbuf, Nat.add_assoc, gained_append]
      unfold freeLoop
      split
      · rename_i hbatch
        obtain ⟨hwidth, hsingle⟩ := hbatch
        have htake : (ds.take simd.width).map List.head? = ((i :: is).take simd.width).map some := by
          rw [map_take, hheads, map_take]
        have hmem : ∀ j ∈ (i :: is).take simd.width, ∃ d ∈ ds.take simd.width, d.head? = some j := by
          intro j hj
          have : some j ∈ (ds.take simd.width).map List.head? := htake ▸ mem_map_of_mem hj
          exact mem_map.mp this
        have hone : ∀ j ∈ (i :: is).take simd.width, (s.vm.buffer j).refCount = 1 := by
          intro j hj
          obtain ⟨d, hd, hdj⟩ := hmem j hj
          have h1 := h.head d (mem_append_left _ (mem_of_mem_take hd)) j hdj
          rw [h.refCount j (by omega), h1]
          rfl
        have hspec := allSingle_spec hsingle hone
        -- the chains of the batch have one buffer each
        have hds : ds.take simd.width = ((i :: is).take simd.width).map fun j => [j] := by
          refine eq_singletons htake fun d hd j hj => ?_
          have hjs : some j ∈ ((i :: is).take simd.width).map some := htake ▸ mem_map.mpr ⟨d, hd, hj⟩
          obtain ⟨j', hj', hjj⟩ := mem_map.mp hjs
          obtain rfl := Option.some.inj hjj
          obtain ⟨l, rfl⟩ := head?_eq_some_iff.mp hj
          have hlinks := h.chain _ (mem_append_left _ (mem_of_mem_take hd))
          rcases hlinks.tail with ⟨-, rfl⟩ | ⟨b, l', -, hsome, -⟩
          · rfl
          · rw [Buffer.next?, (hspec _ hj').2] at hsome
            exact nomatch hsome
        have hsplit := take_append_drop simd.width ds
        have hsh : Shared s.vm.buffer (((i :: is).take simd.width).map (fun j => [j]) ++
            (ds.drop simd.width ++ cs)) := by
          rw [← hds, ← List.append_assoc, hsplit]
          exact h
        obtain ⟨hbuf, hpooled, henv⟩ := freeSingles_shared hsh fun j hj => (hspec j hj).1
        rw [← hds] at hbuf hpooled
        refine hthen hsplit hbuf hpooled henv ?_ ?_
        · rw [map_drop, hheads, map_drop]
        · have : 0 < simd.width := by cases simd <;> decide
          rw [length_drop]
          omega
      · obtain ⟨d, e, rfl, hd, he⟩ := map_eq_cons_iff.mp hheads
        have hsh : Shared s.vm.buffer (d :: (e ++ cs)) := h
        obtain ⟨t, ht, hbuf, hpooled, henv⟩ := freeChain_shared hsh (hfuel d mem_cons_self) hd
        rw [ht]
        exact hthen rfl hbuf hpooled henv he (by simpa using hn)

end FreeState

/-- **Freeing.** The chains that begin at the given buffers are released: what only they use comes to the
pools, once, and the other chains stay. -/
theorem bufferFree_shared (fuel : Nat) {vm : Vm} (is : List Nat) (h : Shared vm.buffer (ds ++ cs))
    (hheads : ds.map List.head? = is.map some) (hfuel : ∀ d ∈ ds, d.length ≤ fuel) :
    ∃ vm', bufferFree simd fuel vm is = some vm' ∧ vm'.buffer = released ds cs vm.buffer ∧
      (∀ p x, (vm'.free p).count x = (vm.free p).count x + gained ds cs vm.buffer p x) ∧
      vm'.numaPool = vm.numaPool ∧ vm'.defaultDataSize = vm.defaultDataSize ∧ vm'.grants = vm.grants := by
  cases is with
  | nil =>
    obtain rfl : ds = [] := map_eq_nil_iff.mp hheads
    refine ⟨vm, rfl, FreeState.released_nil.symm, fun p x => ?_, rfl, rfl, rfl⟩
    rw [FreeState.gained_nil, Nat.add_zero]
  | cons i is =>
    obtain ⟨t, ht, hbuf, hpooled, henv⟩ := FreeState.freeLoop_shared
      (s := ⟨vm, (vm.buffer i).bufferPoolIndex, []⟩) (i :: is).length h hheads (Nat.le_refl _) hfuel
    unfold bufferFree
    dsimp only
    rw [ht]
    have hfree : ∀ p x, (FreeState.mk vm (vm.buffer i).bufferPoolIndex []).pooled p x =
        (vm.free p).count x := FreeState.pooled_of_nil rfl
    dsimp only
    split
    · refine ⟨_, rfl, hbuf, fun p x => ?_, henv⟩
      rw [FreeState.free_flush, hpooled, hfree]
    · rename_i hq
      refine ⟨_, rfl, hbuf, fun p x => ?_, henv⟩
      rw [← FreeState.pooled_of_nil (not_not.mp hq), hpooled, hfree]

end Vpp.Vlib
