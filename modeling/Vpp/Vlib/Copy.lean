import Mathlib.Data.List.Nodup
import Vpp.Vlib.Free

/-!
# Copies of a chain

The state between calls has chains in use, with right counts, and pools of clean buffers apart from
them. An allocation takes buffers out of a pool, each a chain of its own at first. `vlib_buffer_copy`
duplicates all buffers of a chain; if it gets too few it frees them again.
-/

namespace Vpp.Vlib

open Lib List
open Function (update update_self update_of_ne)

/-! ## Copying -/

def copyCloneFlagsMask : U32 := nextPresent ||| totalLengthValid ||| isTraced ||| ~~~flagsAll

def nBuffers (mem : Memory) : Nat → Nat → Option Nat
  | 0, _ => none
  | fuel + 1, i =>
    match (mem i).next? with
    | none => some 1
    | some j => (nBuffers mem fuel j).map (· + 1)

namespace Buffer

def copySegment (s d : Buffer) : Buffer :=
  { d with
    currentData := s.currentData
    currentLength := s.currentLength
    flags := s.flags &&& copyCloneFlagsMask
    data := blit d.data s.currentData s.data s.currentData s.currentLength }

def copyFirst (s d : Buffer) : Buffer :=
  { s.copySegment d with
    traceHandle := s.traceHandle
    totalLength := s.totalLength
    opaqueData := s.opaqueData
    opaqueData2 := s.opaqueData2 }

end Buffer

/-- The segments after `s`, which has been copied to `d`. -/
def copyNext (mem : Memory) (s d : Nat) : List Nat → Memory
  | [] => mem
  | e :: es =>
    let mem' := update mem d { mem d with nextBuffer := e }
    let s' := (mem' s).nextBuffer
    copyNext (update mem' e ((mem' s').copySegment (mem' e))) s' e es

/-- `vlib_buffer_copy`: the buffer that the copy begins with, if there is one. -/
def bufferCopy (simd : Simd) (fuel : Nat) (vm : Vm) (b : Nat) : Option (Vm × Option Nat) :=
  match nBuffers vm.buffer fuel b with
  | none => none
  | some n =>
    let r := vm.alloc n
    if r.1.length < n then
      if 0 < r.1.length then (bufferFree simd fuel r.2 r.1).map fun vm' => (vm', none)
      else some (r.2, none)
    else
      match r.1 with
      | [] => none
      | d :: ds =>
        let mem := update r.2.buffer d ((r.2.buffer b).copyFirst (r.2.buffer d))
        some ({ r.2 with buffer := copyNext mem b d ds }, some d)

/-! ## Chains in use -/

variable {vm : Vm} {c : List Nat} {cs ds : List (List Nat)} {p : U8} {n : Nat}

structure Clean (b : Buffer) (p : U8) : Prop where
  pool : b.bufferPoolIndex = p
  refCount : b.refCount = 1
  hasNext : b.hasNext = false
  currentData : b.currentData = 0

/-- The chains `cs` are in use, and the pools hold clean buffers apart from them. -/
structure Live (vm : Vm) (cs : List (List Nat)) : Prop where
  shared : Shared vm.buffer cs
  nodup : ∀ p, (vm.free p).Nodup
  clean : ∀ p, ∀ x ∈ vm.free p, Clean (vm.buffer x) p
  apart : ∀ x, 0 < uses cs x → ∀ p, x ∉ vm.free p

/-- What the pools can give: how much the allocations to come may take, and what a pool has left. -/
structure Supply where
  grants : List Nat
  free : U8 → Nat

def Vm.supply (vm : Vm) : Supply := ⟨vm.grants, fun p => (vm.free p).length⟩

def Supply.available (s : Supply) (p : U8) : Nat := min (s.grants.headD 0) (s.free p)

/-- After an allocation of which `n` buffers are kept. -/
def Supply.spend (s : Supply) (p : U8) (n : Nat) : Supply :=
  ⟨s.grants.tail, update s.free p (s.free p - n)⟩

variable {as : List Nat} {vm' : Vm}

namespace Live

theorem perm (h : Live vm cs) (hp : cs.Perm ds) : Live vm ds :=
  ⟨h.shared.perm hp, h.nodup, h.clean, fun x hx => h.apart x (by rw [uses_perm hp]; exact hx)⟩

theorem release (h : Live vm (ds ++ cs)) (hbuf : vm'.buffer = released ds cs vm.buffer)
    (hcount : ∀ p x, (vm'.free p).count x = (vm.free p).count x + gained ds cs vm.buffer p x) :
    Live vm' cs := by
  have hold : ∀ x, 0 < uses ds x → ∀ p, (vm.free p).count x = 0 := fun x hx p =>
    count_eq_zero.mpr (h.apart x (by rw [uses_append]; omega) p)
  have hmem : ∀ p, ∀ x ∈ vm'.free p, (x ∈ vm.free p ∧ uses ds x = 0) ∨
        (0 < uses ds x ∧ uses cs x = 0 ∧ p = (vm.buffer x).bufferPoolIndex) := by
    intro p x hx
    have hpos : 0 < (vm'.free p).count x := count_pos_iff.mpr hx
    rw [hcount, gained] at hpos
    split at hpos
    · rename_i hg
      exact .inr hg
    · have hin : x ∈ vm.free p := count_pos_iff.mp (by omega)
      refine .inl ⟨hin, Nat.eq_zero_of_not_pos fun hd => ?_⟩
      exact absurd (hold x hd p) (by omega)
  refine ⟨hbuf ▸ h.shared.release, fun p => ?_, fun p x hx => ?_, fun x hx p hin => ?_⟩
  · rw [nodup_iff_count_le_one]
    intro x
    rw [hcount, gained]
    split
    · rename_i hg
      exact Nat.le_of_eq (by rw [hold x hg.1 p])
    · exact nodup_iff_count_le_one.mp (h.nodup p) x
  · rw [hbuf]
    rcases hmem p x hx with ⟨hin, hd⟩ | ⟨hd, hc, hp⟩
    · rw [released_of_uses hd]
      exact h.clean p x hin
    · rw [released_of_pos hd, if_pos hc, hp]
      exact ⟨rfl, rfl, by simp [Buffer.hasNext, Buffer.copyTemplate], rfl⟩
  · rcases hmem p x hin with ⟨hin, -⟩ | ⟨-, hc, -⟩
    · exact h.apart x (by rw [uses_append]; omega) p hin
    · omega

theorem alloc (h : Live vm cs) (n : Nat) (p : U8) :
    Live (vm.allocFromPool n p).2 ((vm.allocFromPool n p).1.map (fun a => [a]) ++ cs) := by
  unfold Vm.allocFromPool
  generalize min n (vm.grants.headD 0) = m
  have hnd := h.nodup p
  rw [← take_append_drop m (vm.free p), nodup_append] at hnd
  obtain ⟨hndt, hndd, hdisj⟩ := hnd
  have htake : ∀ x ∈ (vm.free p).take m, x ∈ vm.free p := fun x hx => mem_of_mem_take hx
  have hfresh : ∀ x ∈ (vm.free p).take m, uses cs x = 0 := fun x hx =>
    Nat.eq_zero_of_not_pos fun hpos => h.apart x hpos p (htake x hx)
  have hcount : ∀ x ∈ (vm.free p).take m, ((vm.free p).take m).count x = 1 := fun x hx =>
    count_eq_one_of_mem hndt hx
  have huses : ∀ x, uses (((vm.free p).take m).map (fun a => [a]) ++ cs) x =
      ((vm.free p).take m).count x + uses cs x := fun x => by
    rw [uses_append, FreeState.uses_singletons]
  have hfree : ∀ q, ∀ x ∈ update vm.free p ((vm.free p).drop m) q, x ∈ vm.free q := by
    intro q x hx
    by_cases hq : q = p
    · subst hq
      rw [update_self] at hx
      exact mem_of_mem_drop hx
    · rwa [update_of_ne hq] at hx
  refine ⟨⟨fun c hc => ?_, fun c hc => ?_, fun x hx => ?_, fun x => ?_, fun c hc x hx => ?_⟩,
    fun q => ?_, fun q x hx => h.clean q x (hfree q x hx), fun x hx q hin => ?_⟩
  · rcases mem_append.mp hc with hc | hc
    · obtain ⟨a, ha, rfl⟩ := mem_map.mp hc
      show (vm.buffer a).next? = none
      rw [Buffer.next?, (h.clean p a (htake a ha)).hasNext, if_neg Bool.false_ne_true]
    · exact h.shared.chain c hc
  · rcases mem_append.mp hc with hc | hc
    · obtain ⟨a, -, rfl⟩ := mem_map.mp hc
      exact nodup_singleton a
    · exact h.shared.nodup c hc
  · rw [huses] at hx ⊢
    by_cases hin : x ∈ (vm.free p).take m
    · rw [hcount x hin, hfresh x hin]
      exact (h.clean p x (htake x hin)).refCount
    · rw [count_eq_zero.mpr hin, Nat.zero_add] at hx ⊢
      exact h.shared.refCount x hx
  · rw [huses]
    by_cases hin : x ∈ (vm.free p).take m
    · rw [hcount x hin, hfresh x hin]
      decide
    · rw [count_eq_zero.mpr hin, Nat.zero_add]
      exact h.shared.uses_le x
  · rw [huses]
    rcases mem_append.mp hc with hc | hc
    · obtain ⟨a, ha, rfl⟩ := mem_map.mp hc
      obtain rfl : a = x := Option.some.inj hx
      rw [hcount a ha, hfresh a ha]
    · have hone := h.shared.head c hc x hx
      rw [count_eq_zero.mpr fun hin => by have := hfresh x hin; omega, Nat.zero_add]
      exact hone
  · by_cases hq : q = p
    · subst hq
      show (update vm.free q ((vm.free q).drop m) q).Nodup
      rw [update_self]
      exact hndd
    · show (update vm.free p ((vm.free p).drop m) q).Nodup
      rw [update_of_ne hq]
      exact h.nodup q
  · have hin' := hfree q x hin
    rw [huses] at hx
    by_cases hfr : x ∈ (vm.free p).take m
    · have hqp : q = p := ((h.clean q x hin').pool.symm.trans (h.clean p x (htake x hfr)).pool)
      subst hqp
      have hdrop : x ∈ update vm.free q ((vm.free q).drop m) q := hin
      rw [update_self] at hdrop
      exact hdisj x hfr x hdrop rfl
    · rw [count_eq_zero.mpr hfr, Nat.zero_add] at hx
      exact h.apart x hx q hin'

theorem rebuild (h : Live vm cs) (hfree : vm'.free = vm.free)
    (hclean : ∀ p, ∀ x ∈ vm.free p, vm'.buffer x = vm.buffer x) (hs : Shared vm'.buffer ds)
    (hsub : ∀ x, 0 < uses ds x → 0 < uses cs x) : Live vm' ds := by
  refine ⟨hs, fun p => ?_, fun p x hx => ?_, fun x hx p => ?_⟩
  · rw [hfree]
    exact h.nodup p
  · rw [hfree] at hx
    rw [hclean p x hx]
    exact h.clean p x hx
  · rw [hfree]
    exact h.apart x (hsub x hx) p

end Live

theorem nodup_of_live (h : Live vm (as.map (fun a => [a]) ++ cs)) : as.Nodup := by
  rw [nodup_iff_count_le_one]
  intro x
  by_cases hx : x ∈ as
  · have := h.shared.head [x] (mem_append_left _ (mem_map_of_mem hx)) x rfl
    rw [uses_append, FreeState.uses_singletons] at this
    omega
  · rw [count_eq_zero.mpr hx]
    exact Nat.zero_le 1

theorem length_alloc : (vm.allocFromPool n p).1.length = min n (vm.supply.available p) := by
  unfold Vm.allocFromPool Supply.available Vm.supply
  rw [length_take, Nat.min_assoc]

theorem supply_alloc :
    (vm.allocFromPool n p).2.supply = vm.supply.spend p (min n (vm.supply.available p)) := by
  unfold Vm.allocFromPool Supply.available Vm.supply Supply.spend
  dsimp only
  congr 1
  funext q
  by_cases hq : q = p
  · subst hq
    rw [update_self, update_self, length_drop]
    omega
  · rw [update_of_ne hq, update_of_ne hq]

/-! ## The copy -/

section Copy

variable {mem : Memory} {i s d : Nat} {ss es : List Nat} {fuel : Nat}

theorem nBuffers_eq (hc : IsChain mem c) (hi : c.head? = some i) (hfuel : c.length ≤ fuel) :
    nBuffers mem fuel i = some c.length := by
  induction c generalizing i fuel with
  | nil => cases hi
  | cons a l ih =>
    obtain rfl : a = i := Option.some.inj hi
    obtain ⟨fuel, rfl⟩ : ∃ k, fuel = k + 1 := ⟨fuel - 1, by simp at hfuel; omega⟩
    unfold nBuffers
    rcases hc.tail with ⟨hnone, rfl⟩ | ⟨b, l', rfl, hsome, hlinks⟩
    · rw [hnone]
      rfl
    · rw [hsome]
      dsimp only
      rw [ih hlinks rfl (by simp only [length_cons] at hfuel ⊢; omega)]
      rfl

theorem hasNext_copySegment {s : Buffer} (d : Buffer) : (s.copySegment d).hasNext = s.hasNext := by
  have hmask : copyCloneFlagsMask.getLsbD 1 = true := by decide
  rw [Buffer.hasNext, Buffer.copySegment, BitVec.getLsbD_and, hmask, Bool.and_true]
  rfl

theorem bytes_copySegment {s d : Buffer} : (s.copySegment d).bytes = s.bytes :=
  window_blit

theorem next?_eq_some {b : Buffer} {j : Nat} (h : b.next? = some j) : b.hasNext = true ∧ b.nextBuffer = j := by
  unfold Buffer.next? at h
  split at h
  · rename_i hn
    exact ⟨hn, Option.some.inj h⟩
  · cases h

theorem next?_eq_none {b : Buffer} : b.next? = none ↔ b.hasNext = false := by
  unfold Buffer.next?
  cases b.hasNext <;> simp

theorem copyNext_spec (hc : IsChain mem (s :: ss)) (hlen : es.length = ss.length) (hnd : (d :: es).Nodup)
    (hdisj : ∀ x ∈ s :: ss, x ∉ d :: es) (hnext : (mem d).hasNext = (mem s).hasNext)
    (hbytes : (mem d).bytes = (mem s).bytes) :
    (∀ x, x ∉ d :: es → copyNext mem s d es x = mem x) ∧ IsChain (copyNext mem s d es) (d :: es) ∧
      content (copyNext mem s d es) (d :: es) = content mem (s :: ss) ∧
      (∀ x, (copyNext mem s d es x).refCount = (mem x).refCount) ∧
      copyNext mem s d es d = { mem d with nextBuffer := (copyNext mem s d es d).nextBuffer } := by
  induction es generalizing mem s d ss with
  | nil =>
    obtain rfl : ss = [] := length_eq_zero_iff.mp hlen.symm
    refine ⟨fun _ _ => rfl, ?_, ?_, fun _ => rfl, rfl⟩
    · show (mem d).next? = none
      rw [next?_eq_none, hnext]
      exact next?_eq_none.mp hc
    · simp [content, copyNext, hbytes]
  | cons e es ih =>
    obtain ⟨t, ts, rfl⟩ : ∃ t ts, ss = t :: ts := exists_cons_of_length_pos (by rw [← hlen]; simp)
    obtain ⟨hsn, hst⟩ := next?_eq_some hc.1
    obtain ⟨hde, hnde⟩ := nodup_cons.mp hnd
    have hsd : s ≠ d := fun he => hdisj s mem_cons_self (he ▸ mem_cons_self)
    have htd : t ≠ d := fun he => hdisj t (by simp) (he ▸ mem_cons_self)
    have hed : e ≠ d := fun he => hde (he ▸ mem_cons_self)
    -- the memory after the link and the next segment
    obtain ⟨mem2, hmem2⟩ : ∃ m, m = update (update mem d { mem d with nextBuffer := e }) e
      ((mem t).copySegment (mem e)) := ⟨_, rfl⟩
    have hmem : copyNext mem s d (e :: es) = copyNext mem2 t e es := by
      rw [copyNext, update_of_ne hsd, hst, update_of_ne htd, update_of_ne hed, hmem2]
    rw [hmem]
    have hother : ∀ x, x ∉ d :: e :: es → mem2 x = mem x := fun x hx => by
      rw [hmem2, update_of_ne (by rintro rfl; simp at hx), update_of_ne (by rintro rfl; simp at hx)]
    have hother' : ∀ x ∈ t :: ts, mem2 x = mem x := fun x hx =>
      hother x (hdisj x (mem_cons_of_mem s hx))
    have hatd : mem2 d = { mem d with nextBuffer := e } := by
      rw [hmem2, update_of_ne (Ne.symm hed), update_self]
    have hate : mem2 e = (mem t).copySegment (mem e) := by rw [hmem2, update_self]
    have href : ∀ x, (mem2 x).refCount = (mem x).refCount := fun x => by
      rw [hmem2]
      by_cases hxe : x = e
      · rw [hxe, update_self]
        rfl
      · rw [update_of_ne hxe]
        by_cases hxd : x = d
        · rw [hxd, update_self]
        · rw [update_of_ne hxd]
    have ht := hother' t mem_cons_self
    have hc2 : IsChain mem2 (t :: ts) := hc.2.congr fun x hx => by rw [hother' x hx]
    obtain ⟨hframe, hchain, hcont, hrefs, -⟩ := ih hc2 (by simpa using hlen) hnde
      (fun x hx hin => hdisj x (mem_cons_of_mem s hx) (mem_cons_of_mem d hin))
      (by rw [hate, ht, hasNext_copySegment]) (by rw [hate, ht, bytes_copySegment])
    have hd := hframe d hde
    rw [hatd] at hd
    refine ⟨fun x hx => ?_, ⟨?_, hchain⟩, ?_, fun x => ?_, by rw [hd]⟩
    · rw [hframe x fun hin => hx (mem_cons_of_mem d hin), hother x hx]
    · have hn : (mem d).hasNext = true := hnext.trans hsn
      show (copyNext mem2 t e es d).next? = some e
      rw [hd]
      exact if_pos hn
    · show (copyNext mem2 t e es d).bytes ++ content (copyNext mem2 t e es) (e :: es) = _
      rw [hcont, hd]
      congr 1
      exact flatMap_congr fun x hx => by rw [hother' x hx]
    · rw [hrefs, href]

theorem bufferPoolIndex_copyNext (es : List Nat) (s d : Nat) (mem : Memory) (x : Nat) :
    (copyNext mem s d es x).bufferPoolIndex = (mem x).bufferPoolIndex := by
  have hupd : ∀ (m : Memory) (i : Nat) (b : Buffer), b.bufferPoolIndex = (m i).bufferPoolIndex →
      (update m i b x).bufferPoolIndex = (m x).bufferPoolIndex := fun m i b hb => by
    by_cases hx : x = i
    · rw [hx, update_self, hb]
    · rw [update_of_ne hx]
  induction es generalizing s d mem with
  | nil => rfl
  | cons e es ih =>
    unfold copyNext
    rw [ih]
    generalize hm : update mem d { mem d with nextBuffer := e } = mem'
    rw [hupd mem' e _ (by rfl), ← hm, hupd mem d _ (by rfl)]

end Copy

/-- What a call keeps of its surroundings, with the supply that is left. -/
structure Env (vm vm' : Vm) (supply : Supply) : Prop where
  numaPool : vm'.numaPool = vm.numaPool
  defaultDataSize : vm'.defaultDataSize = vm.defaultDataSize
  supply : vm'.supply = supply
  pools : ∀ x, (vm'.buffer x).bufferPoolIndex = (vm.buffer x).bufferPoolIndex

/-- The buffers `as` have been taken out of the pool `p`, for a call that asked for `n`. -/
structure Allocated (vm vm' : Vm) (as : List Nat) (n : Nat) (p : U8) (cs : List (List Nat)) : Prop where
  length_eq : as.length = min n (vm.supply.available p)
  live : Live vm' (as.map (fun a => [a]) ++ cs)
  env : Env vm vm' (vm.supply.spend p (min n (vm.supply.available p)))
  buffer : vm'.buffer = vm.buffer
  grants : vm'.grants = vm.grants.tail
  free : ∀ q, vm.free q = if q = p then as ++ vm'.free q else vm'.free q
  mem : ∀ a ∈ as, a ∈ vm.free p
  fresh : ∀ a ∈ as, uses cs a = 0
  apart : ∀ q, ∀ x ∈ vm'.free q, x ∉ as

theorem Live.allocated (h : Live vm cs) :
    ∃ as vm', vm.allocFromPool n p = (as, vm') ∧ Allocated vm vm' as n p cs := by
  have hmem : ∀ a ∈ (vm.allocFromPool n p).1, a ∈ vm.free p := fun a ha => mem_of_mem_take ha
  have hlive := h.alloc n p
  refine ⟨_, _, rfl, length_alloc, hlive, ⟨rfl, rfl, supply_alloc, fun _ => rfl⟩, rfl,
    rfl, fun q => ?_, hmem, fun a ha => ?_, fun q x hx ha => ?_⟩
  · dsimp only
    split
    · rename_i hq
      rw [hq, update_self, take_append_drop]
    · rename_i hq
      rw [update_of_ne hq]
  · exact Nat.eq_zero_of_not_pos fun hpos => h.apart a hpos p (hmem a ha)
  · exact hlive.apart x (uses_pos.mpr ⟨[x], mem_append_left _ (mem_map_of_mem ha), by simp⟩) q hx

theorem Env.trans {vm'' : Vm} {s s' : Supply} (h : Env vm vm' s) (h' : Env vm' vm'' s') : Env vm vm'' s' :=
  ⟨h'.numaPool.trans h.numaPool, h'.defaultDataSize.trans h.defaultDataSize, h'.supply,
    fun x => (h'.pools x).trans (h.pools x)⟩

/-- `d` is a copy of `c` in new buffers. -/
structure Copied (vm vm' : Vm) (c d : List Nat) (cs : List (List Nat)) : Prop where
  live : Live vm' (d :: c :: cs)
  content_eq : content vm'.buffer d = content vm.buffer c
  frame : ∀ x, x ∉ d → vm'.buffer x = vm.buffer x
  fresh : ∀ x ∈ d, uses (c :: cs) x = 0
  length_eq : d.length = c.length
  currentLength : ∀ i ∈ c.head?, ∀ j ∈ d.head?,
    (vm'.buffer j).currentLength = (vm.buffer i).currentLength
  pool : ∀ j ∈ d.head?, (vm'.buffer j).bufferPoolIndex = vm.numaPool

variable {fuel i : Nat}

theorem bufferCopy_granted (simd : Simd) (h : Live vm (c :: cs)) (hi : c.head? = some i)
    (hfuel : c.length ≤ fuel) (hg : c.length ≤ vm.supply.available vm.numaPool) :
    ∃ vm' d j, bufferCopy simd fuel vm i = some (vm', some j) ∧ d.head? = some j ∧
      Copied vm vm' c d cs ∧ Env vm vm' (vm.supply.spend vm.numaPool c.length) := by
  have hc := h.shared.chain c mem_cons_self
  obtain ⟨as, vm1, halloc, hlen, hlive, henv, hbuf, -, -, hmem, hfresh, hfree⟩ :=
    h.allocated
  rw [Nat.min_eq_left hg] at hlen henv
  unfold bufferCopy Vm.alloc
  rw [nBuffers_eq hc hi hfuel]
  dsimp only
  rw [halloc, if_neg (Nat.not_lt.mpr (Nat.le_of_eq hlen.symm))]
  obtain ⟨s, ss, rfl⟩ : ∃ s ss, c = s :: ss := exists_cons_of_ne_nil (by rintro rfl; cases hi)
  obtain rfl : s = i := Option.some.inj hi
  obtain ⟨d, es, rfl⟩ : ∃ d es, as = d :: es := exists_cons_of_length_pos (by rw [hlen]; simp)
  dsimp only
  rw [hbuf]
  -- the new buffers are apart from the chains in use
  have hdisj : ∀ x ∈ s :: ss, x ∉ d :: es := fun x hx hin => by
    have := hfresh x hin
    rw [uses_cons, if_pos hx] at this
    omega
  have hnd : (d :: es).Nodup := nodup_of_live hlive
  have hsd : s ≠ d := fun he => hdisj s mem_cons_self (he ▸ mem_cons_self)
  have hupd : ∀ x, x ≠ d → update vm.buffer d ((vm.buffer s).copyFirst (vm.buffer d)) x =
      vm.buffer x := fun x hx => update_of_ne hx _ _
  have hat := update_self d ((vm.buffer s).copyFirst (vm.buffer d)) vm.buffer
  have hc' : IsChain (update vm.buffer d ((vm.buffer s).copyFirst (vm.buffer d))) (s :: ss) :=
    hc.congr fun x hx => by rw [hupd x fun he => hdisj x hx (he ▸ mem_cons_self)]
  obtain ⟨hframe, hchain, hcont, hrefs, hfirst⟩ := copyNext_spec hc' (by simpa using hlen) hnd hdisj
    (by rw [hat, hupd s hsd]; exact hasNext_copySegment (vm.buffer d))
    (by rw [hat, hupd s hsd]; exact bytes_copySegment)
  rw [hat] at hfirst
  have hpools := bufferPoolIndex_copyNext es s d
    (update vm.buffer d ((vm.buffer s).copyFirst (vm.buffer d)))
  generalize copyNext (update vm.buffer d ((vm.buffer s).copyFirst (vm.buffer d))) s d es =
    mem' at *
  have hframe' : ∀ x, x ∉ d :: es → mem' x = vm.buffer x := fun x hx => by
    rw [hframe x hx, hupd x fun he => hx (he ▸ mem_cons_self)]
  have huses : ∀ x, uses ((d :: es) :: (s :: ss) :: cs) x =
      uses ((d :: es).map (fun a => [a]) ++ (s :: ss) :: cs) x := fun x => by
    rw [uses_append, FreeState.uses_singletons, uses_cons]
    by_cases hx : x ∈ d :: es
    · rw [if_pos hx, count_eq_one_of_mem hnd hx, Nat.add_comm]
    · rw [if_neg hx, count_eq_zero.mpr hx, Nat.add_comm]
  have hshared : Shared mem' ((d :: es) :: (s :: ss) :: cs) := by
    refine ⟨fun e he => ?_, fun e he => ?_, fun x hx => ?_, fun x => ?_, fun e he x hx => ?_⟩
    · rcases mem_cons.mp he with rfl | he
      · exact hchain
      · refine (h.shared.chain e he).congr fun x hx => ?_
        rw [hframe' x fun hin => ?_]
        have := hfresh x hin
        exact absurd (uses_eq_zero.mp this e he) (not_not.mpr hx)
    · rcases mem_cons.mp he with rfl | he
      · exact hnd
      · exact h.shared.nodup e he
    · rw [hrefs]
      have href := hlive.shared.refCount x (by rw [← huses]; exact hx)
      rw [hbuf, ← huses] at href
      rw [← href]
      by_cases hxd : x = d
      · rw [hxd, hat]
        rfl
      · rw [hupd x hxd]
    · rw [huses]
      exact hlive.shared.uses_le x
    · rw [huses]
      rcases mem_cons.mp he with rfl | he
      · obtain rfl : d = x := Option.some.inj hx
        exact hlive.shared.head [d] (mem_append_left _ (mem_map_of_mem mem_cons_self)) d rfl
      · exact hlive.shared.head e (mem_append_right _ he) x hx
  refine ⟨_, d :: es, d, rfl, rfl, ⟨?_, ?_, hframe', hfresh, hlen, ?_, ?_⟩, ?_⟩
  · refine hlive.rebuild rfl (fun p x hx => ?_) hshared fun x hx => by rw [← huses]; exact hx
    rw [hbuf]
    exact hframe' x (hfree p x hx)
  · rw [hcont]
    exact flatMap_congr fun x hx => by rw [hupd x fun he => hdisj x hx (he ▸ mem_cons_self)]
  · rintro i' hi' j hj
    obtain rfl := Option.some.inj hi'
    obtain rfl := Option.some.inj hj
    show (mem' d).currentLength = _
    rw [hfirst]
    rfl
  · rintro j hj
    obtain rfl := Option.some.inj hj
    show (mem' d).bufferPoolIndex = _
    rw [hfirst]
    exact (h.clean _ d (hmem d mem_cons_self)).pool
  · refine ⟨henv.numaPool, henv.defaultDataSize, henv.supply, fun x => ?_⟩
    rw [hpools]
    by_cases hxd : x = d
    · rw [hxd, hat]
      rfl
    · rw [hupd x hxd]

theorem length_free_back {vm1 vm2 : Vm} (h : Live vm cs)
    (hfree : ∀ q, vm.free q = if q = p then as ++ vm1.free q else vm1.free q) (hbuf : vm1.buffer = vm.buffer)
    (hcount : ∀ q x, (vm2.free q).count x = (vm1.free q).count x + gained (as.map fun a => [a]) cs vm1.buffer
      q x) {q : U8} : (vm2.free q).length = (vm.free q).length := by
  refine (perm_iff_count.mpr fun x => ?_).length_eq
  have hmem : x ∈ as → x ∈ vm.free p := fun hx => by
    rw [hfree p, if_pos rfl]
    exact mem_append_left _ hx
  rw [hcount, hfree, gained, FreeState.uses_singletons, hbuf]
  by_cases hx : x ∈ as
  · have hpool := (h.clean p x (hmem hx)).pool
    have hcs : uses cs x = 0 := Nat.eq_zero_of_not_pos fun hpos => h.apart x hpos p (hmem hx)
    have hone : (as ++ vm1.free p).count x ≤ 1 := by
      have := nodup_iff_count_le_one.mp (h.nodup p) x
      rwa [hfree p, if_pos rfl] at this
    have hpos := count_pos_iff.mpr hx
    rw [count_append] at hone
    rw [hpool]
    by_cases hq : q = p
    · rw [if_pos hq, if_pos ⟨hpos, hcs, hq⟩, count_append]
      omega
    · rw [if_neg hq, if_neg fun hand => hq hand.2.2, Nat.add_zero]
  · have hzero := count_eq_zero.mpr hx
    rw [if_neg (by rw [hzero]; exact fun hand => absurd hand.1 (Nat.lt_irrefl 0)), Nat.add_zero]
    split
    · rw [count_append, hzero, Nat.zero_add]
    · rfl

theorem bufferCopy_refused (simd : Simd) (h : Live vm (c :: cs)) (hi : c.head? = some i)
    (hfuel : c.length ≤ fuel) (hg : vm.supply.available vm.numaPool < c.length) :
    ∃ vm', bufferCopy simd fuel vm i = some (vm', none) ∧ Live vm' (c :: cs) ∧
      (∀ x, 0 < uses (c :: cs) x → vm'.buffer x = vm.buffer x) ∧
      Env vm vm' (vm.supply.spend vm.numaPool 0) := by
  have hc := h.shared.chain c mem_cons_self
  obtain ⟨as, vm1, halloc, hlen, hlive, henv, hbuf, hgrants, hfree, hmem, -, -⟩ :=
    h.allocated
  rw [Nat.min_eq_right (Nat.le_of_lt hg)] at hlen henv
  unfold bufferCopy Vm.alloc
  rw [nBuffers_eq hc hi hfuel]
  dsimp only
  rw [halloc, if_pos (Nat.lt_of_le_of_lt (Nat.le_of_eq hlen) hg)]
  dsimp only
  have hpos : 1 ≤ c.length := length_pos_of_ne_nil (by rintro rfl; cases hi)
  obtain ⟨vm', hvm', hfreed, hcount, hnuma, hsize, hgr⟩ := bufferFree_shared fuel as
    hlive.shared (by rw [map_map]; rfl) (by
      intro d hd
      obtain ⟨a, -, rfl⟩ := mem_map.mp hd
      exact Nat.le_trans hpos hfuel)
  have hkeep : ∀ x, 0 < uses (c :: cs) x → as.count x = 0 := fun x hx =>
    count_eq_zero.mpr fun hin => h.apart x hx _ (hmem x hin)
  split
  · rw [hvm']
    refine ⟨vm', rfl, hlive.release hfreed hcount, fun x hx => ?_, ?_⟩
    · rw [hfreed, released_of_uses (by rw [FreeState.uses_singletons]; exact hkeep x hx), hbuf]
    refine ⟨hnuma.trans henv.numaPool, hsize.trans henv.defaultDataSize, ?_, fun x => ?_⟩
    · unfold Vm.supply Supply.spend
      rw [hgr, hgrants, Nat.sub_zero, Function.update_eq_self]
      congr 1
      funext q
      exact length_free_back h hfree hbuf hcount
    · rw [hfreed, bufferPoolIndex_released, henv.pools x]
  · have hzero : vm.supply.available vm.numaPool = 0 := by omega
    obtain rfl : as = [] := length_eq_zero_iff.mp (by omega)
    rw [hzero] at henv
    exact ⟨vm1, rfl, hlive, fun x _ => by rw [hbuf], henv⟩

end Vpp.Vlib
