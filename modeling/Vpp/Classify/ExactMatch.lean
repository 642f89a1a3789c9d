import Vpp.Classify.Table
import Vpp.Lib.Run

/-!
# The classifier table is an exact-match map

The busy entries of a bucket are those of a map, each where the search for its key looks, and every free
entry has the key of memory filled with `0xff`. A split keeps the entries, and as a linear bucket has
room for one more, an addition always succeeds. So as long as no data is all ones under the mask, no
search stops at a free entry, and lookups, additions and deletions are those of the map.
-/

namespace Vpp.Classify

open Lib BitVec
open Function (update update_self update_of_ne)

/-! ## Comparison of an entry with data -/

section Equal

variable {data mask key : Nat → U64} {m : U16} {n o i : Nat} {r : U64}

theorem getLsbD_loadMask (hn : n ≤ 5) : (loadMask n).getLsbD i = decide (i < 2 * n) := by
  rw [loadMask, getLsbD_ofNat, Nat.testBit_two_pow_sub_one, ← Bool.decide_and]
  exact decide_eq_decide.mpr ⟨fun h => h.2, fun h => ⟨by omega, h⟩⟩

theorem isAllZero_iff {k : Nat} {f : Nat → U64} : isAllZero k f = true ↔ ∀ i < k, f i = 0 := by
  simp [isAllZero]

theorem or_eq_zero {a b : U64} : a ||| b = 0 ↔ a = 0 ∧ b = 0 := or_eq_zero_iff

theorem laneDiff_eq_zero : laneDiff data mask key i = 0 ↔ data i &&& mask i = key i :=
  BitVec.xor_eq_zero_iff

theorem wideDiff_eq_zero :
    wideDiff data mask key o m i = 0 ↔ (m.getLsbD i = true → laneDiff data mask key (o + i) = 0) := by
  unfold wideDiff maskLoadZero
  by_cases hm : m.getLsbD i = true
  · rw [if_pos hm, if_pos hm]
    exact ⟨fun h _ => h, fun h => h hm⟩
  · simp [hm]

theorem orLast_eq_zero : orLast data mask key r o m i = 0 ↔ r = 0 ∧ wideDiff data mask key o m i = 0 := by
  unfold orLast
  split
  · exact or_eq_zero
  · rename_i hm
    refine (and_iff_left (wideDiff_eq_zero.mpr fun hi => ?_)).symm
    rw [not_not.mp hm] at hi
    exact absurd hi (by simp)

theorem diffFrom_eq_zero (h1 : 1 ≤ n) (h5 : n ≤ 5) :
    diffFrom data mask key o n = 0 ↔ ∀ v < n, laneDiff data mask key (2 * v + o) = 0 := by
  have hfold : ∀ (l : List Nat) (b : U64),
      l.foldr (fun v r => r ||| laneDiff data mask key (2 * v + o)) b = 0 ↔
        b = 0 ∧ ∀ v ∈ l, laneDiff data mask key (2 * v + o) = 0 := by
    intro l b
    induction l with
    | nil => simp
    | cons v l ih =>
      rw [List.foldr_cons, or_eq_zero, ih, List.forall_mem_cons]
      exact ⟨fun h => ⟨h.1.1, h.2, h.1.2⟩, fun h => ⟨⟨h.1, h.2.2⟩, h.2.1⟩⟩
  rw [diffFrom, hfold]
  simp only [List.mem_filter, List.mem_range'_1, decide_eq_true_eq]
  constructor
  · intro h v hv
    rcases Nat.eq_zero_or_pos v with rfl | hpos
    · rw [Nat.zero_add]
      exact h.1
    · exact h.2 v ⟨by omega, hv⟩
  · intro h
    have h0 := h 0 h1
    rw [Nat.zero_add] at h0
    exact ⟨h0, fun v hv => h v hv.2⟩

theorem entryIsEqual_iff (simd : Simd) (h1 : 1 ≤ n) (h5 : n ≤ 5) :
    entryIsEqual data mask key simd n = true ↔ ∀ i < 2 * n, data i &&& mask i = key i := by
  simp only [← laneDiff_eq_zero]
  cases simd with
  | vec512 =>
    simp only [entryIsEqual, isAllZero_iff, orLast_eq_zero, wideDiff_eq_zero, getLsbD_ushiftRight,
      getLsbD_loadMask h5, decide_eq_true_eq, Nat.zero_add]
    constructor
    · intro h i hi
      rcases Nat.lt_or_ge i 8 with h8 | h8
      · exact (h i h8).1 hi
      · have := (h (i - 8) (by omega)).2 (by omega)
        rwa [Nat.add_sub_cancel' h8] at this
    · exact fun h i _ => ⟨h i, h (8 + i)⟩
  | vec256 =>
    simp only [entryIsEqual, isAllZero_iff, orLast_eq_zero, or_eq_zero, wideDiff_eq_zero,
      getLsbD_ushiftRight, getLsbD_loadMask h5, decide_eq_true_eq, Nat.zero_add]
    constructor
    · intro h i hi
      rcases Nat.lt_or_ge i 4 with h4 | h4
      · exact (h i h4).1.1 hi
      rcases Nat.lt_or_ge i 8 with h8 | h8
      · have := (h (i - 4) (by omega)).1.2 (by omega)
        rwa [Nat.add_sub_cancel' h4] at this
      · have := (h (i - 8) (by omega)).2 (by omega)
        rwa [Nat.add_sub_cancel' h8] at this
    · exact fun h i _ => ⟨⟨h i, h (4 + i)⟩, fun hi => h (8 + i) (by omega)⟩
  | vec128 =>
    simp only [entryIsEqual, isAllZero_iff, diffFrom_eq_zero h1 h5]
    constructor
    · intro h i hi
      have := h (i % 2) (Nat.mod_lt i (by decide)) (i / 2) (by omega)
      rwa [Nat.div_add_mod] at this
    · exact fun h i hi v hv => h _ (by omega)
  | scalar =>
    simp only [entryIsEqual, beq_iff_eq, or_eq_zero, diffFrom_eq_zero h1 h5]
    constructor
    · intro h i hi
      rcases Nat.mod_two_eq_zero_or_one i with h2 | h2
      · have := h.1 (i / 2) (by omega)
        rwa [show 2 * (i / 2) + 0 = i by omega] at this
      · have := h.2 (i / 2) (by omega)
        rwa [show 2 * (i / 2) + 1 = i by omega] at this
    · exact fun h => ⟨fun v hv => h _ (by omega), fun v hv => h _ (by omega)⟩

end Equal
/-! ## Keys -/

variable {c : Config} {old new values : Values c} {log2Pages newLog2Pages i : Nat} {linear : Bool}
  {L L' : List (Key c × Entry)} {v addV : Key c × Entry} {b : Bucket c} {M : Key c → Option Entry}
  {k : Key c} {h : Nat → U64}

theorem isEqual_eq (key : Key c) :
    entryIsEqual (fun i => h (2 * c.skipNVectors + i)) c.mask (lanes key) c.simd c.matchNVectors =
      decide (key = masked c h) := by
  rw [Bool.eq_iff_iff, entryIsEqual_iff c.simd c.one_le c.le_five, decide_eq_true_eq, funext_iff]
  constructor
  · intro heq i
    have := heq i i.isLt
    rw [lanes, dif_pos i.isLt] at this
    exact this.symm
  · intro heq i hi
    rw [lanes, dif_pos hi]
    exact (heq ⟨i, hi⟩).symm

def keyHash (c : Config) (k : Key c) : U32 := hashPacket c (keyMinusSkip c k)

theorem keyHash_masked : keyHash c (masked c h) = hashPacket c h := by
  have hkey : masked c (keyMinusSkip c (masked c h)) = masked c h := by
    funext i
    rw [masked, keyMinusSkip, dif_pos (by omega)]
    simp only [Nat.add_sub_cancel_left]
    rw [masked, BitVec.and_assoc, BitVec.and_self]
  rw [keyHash, hashPacket, hashPacket, hkey]

def home (c : Config) (linear : Bool) (log2Pages : Nat) (k : Key c) : Nat × Nat :=
  pageRange c linear log2Pages (keyHash c k)

variable {j oldLog2Pages : Nat} {t : Table c} {x : Session} {s' : State c} {rv : Int}

theorem lt_of_inHome (hin : InHome (home c linear log2Pages) k j) :
    j < entriesPerPage * 2 ^ log2Pages := by
  refine Nat.lt_of_lt_of_le hin.2 ?_
  unfold home pageRange entriesPerPage
  split
  · exact Nat.le_of_eq (Nat.zero_add _)
  · omega

/-! ## Busy entries -/

theorem entryIsFree_blankEntry : entryIsFree blankEntry = true := by decide

theorem entryIsFree_busyCopy : entryIsFree (busyCopy c v).2 = false := by
  have hclear : v.2.flags &&& ~~~entryFree &&& entryFree = 0 := by
    rw [BitVec.and_assoc, BitVec.and_comm (~~~entryFree)]
    exact and_zero
  rw [entryIsFree, busyCopy, hclear]
  rfl

theorem busyCopy_of_busy (hv : entryIsFree v.2 = false) : busyCopy c v = v := by
  have hzero : v.2.flags &&& entryFree = 0 := by simpa [entryIsFree] using hv
  have hsame : v.2.flags &&& ~~~entryFree = v.2.flags := by
    calc v.2.flags &&& ~~~entryFree = v.2.flags &&& ~~~entryFree ||| v.2.flags &&& entryFree := by
          rw [hzero]
          exact or_zero.symm
      _ = v.2.flags := by
          rw [← and_or_distrib_left, BitVec.or_comm, or_not_self, and_allOnes]
  rw [busyCopy, hsame]

/-- The entries `L` are in the memory, each where the search for its key looks. -/
abbrev Filled (values : Values c) (log2Pages : Nat) (linear : Bool) (L : List (Key c × Entry)) : Prop :=
  Kept entryIsFree (home c linear log2Pages) (blankKey c) values (entriesPerPage * 2 ^ log2Pages) L

theorem filled_entryAlloc : Filled (entryAlloc c) log2Pages linear [] :=
  kept_of_free (fun _ => entryIsFree_blankEntry) fun _ => rfl

theorem Filled.putFirst (hf : Filled values log2Pages linear L)
    (hj : firstIn (fun i => entryIsFree (values i).2) (home c linear log2Pages v.1).1 (home c linear
      log2Pages v.1).2 = some j) :
    Filled (update values j (busyCopy c v)) log2Pages linear (busyCopy c v :: L) := by
  obtain ⟨hfree, hin, -⟩ := firstIn_eq_some.mp hj
  exact hf.put (lt_of_inHome hin) hfree entryIsFree_busyCopy hin

/-! ## Splitting -/

theorem splitAndRehash_filled (h : splitAndRehash old oldLog2Pages newLog2Pages = some new) :
    Filled new newLog2Pages false (entries entryIsFree old (2 ^ oldLog2Pages * entriesPerPage)) := by
  refine foldlM_range (fun t new => Filled new newLog2Pages false (entries entryIsFree old t)) h
    filled_entryAlloc fun t _ new new' hnew hturn => ?_
  unfold rehashEntry at hturn
  split at hturn
  · rename_i hfree
    rw [entries_succ_of_free hfree]
    exact Option.some.inj hturn ▸ hnew
  rename_i hbusy
  have hbusy' : entryIsFree (old t).2 = false := by simpa using hbusy
  dsimp only at hturn
  split at hturn
  · rename_i j hj
    have hput := hnew.putFirst hj
    rw [← Option.some.inj hturn]
    rw [busyCopy_of_busy hbusy'] at hput ⊢
    exact hput.of_perm (entries_succ_of_live hbusy')
  · exact nomatch hturn

structure Packed (newLog2Pages : Nat) (old : Values c) (t : Nat) (s : Values c × Nat) : Prop where
  filled : Filled s.1 newLog2Pages true (entries entryIsFree old t)
  le : s.2 ≤ t
  filledTo : FilledTo entryIsFree s.1 s.2

theorem rehashEntryLinear_packed {t : Nat} {s : Values c × Nat} (h : Packed newLog2Pages old t s)
    (ht : t < 2 ^ newLog2Pages * entriesPerPage) :
    ∃ s', rehashEntryLinear old (2 ^ newLog2Pages * entriesPerPage) s t = some s' ∧
      Packed newLog2Pages old (t + 1) s' := by
  have hlt : s.2 < 2 ^ newLog2Pages * entriesPerPage := Nat.lt_of_le_of_lt h.le ht
  unfold rehashEntryLinear
  cases hold : entryIsFree (old t).2 with
  | true =>
    refine ⟨s, if_pos rfl, ?_, Nat.le_succ_of_le h.le, h.filledTo⟩
    rw [entries_succ_of_free hold]
    exact h.filled
  | false =>
    have hhome : firstIn (fun j => entryIsFree (s.1 j).2) (home c true newLog2Pages (old t).1).1
        (home c true newLog2Pages (old t).1).2 = some s.2 := by
      refine h.filledTo.firstIn (Nat.zero_le _) ?_
      show s.2 < 0 + entriesPerPage * 2 ^ newLog2Pages
      rw [Nat.zero_add, Nat.mul_comm]
      exact hlt
    rw [h.filledTo.firstIn (Nat.le_refl _) (by omega)]
    have hput := h.filled.putFirst hhome
    refine ⟨_, rfl, ?_, Nat.succ_le_succ h.le, h.filledTo.put entryIsFree_busyCopy⟩
    rw [busyCopy_of_busy hold] at hput ⊢
    exact hput.of_perm (entries_succ_of_live hold)

theorem exists_splitAndRehashLinear (old : Values c) (hle : oldLog2Pages ≤ newLog2Pages) :
    ∃ new, splitAndRehashLinear old oldLog2Pages newLog2Pages = some new ∧
      Filled new newLog2Pages true (entries entryIsFree old (2 ^ oldLog2Pages * entriesPerPage)) := by
  have hsize : 2 ^ oldLog2Pages * entriesPerPage ≤ 2 ^ newLog2Pages * entriesPerPage :=
    Nat.mul_le_mul_right _ (Nat.pow_le_pow_right (by decide) hle)
  obtain ⟨s, hs, hp⟩ := exists_foldlM_range (Packed newLog2Pages old) (s := (entryAlloc c, 0))
    ⟨filled_entryAlloc, Nat.le_refl 0, fun i hi => absurd hi (Nat.not_lt_zero i),
      fun _ _ => entryIsFree_blankEntry⟩
    fun t ht s hs => rehashEntryLinear_packed hs (Nat.lt_of_lt_of_le ht hsize)
  refine ⟨s.1, ?_, hp.filled⟩
  rw [splitAndRehashLinear, hs]
  rfl

/-! ## A larger bucket -/

theorem addNew_filled (hf : Filled new newLog2Pages linear L)
    (hadd : addNew addV linear newLog2Pages new = some b) :
    b.linearSearch = linear ∧ Filled b.values b.log2Pages b.linearSearch (busyCopy c addV :: L) := by
  unfold addNew at hadd
  dsimp only at hadd
  split at hadd
  · rename_i i hi
    rw [← Option.some.inj hadd]
    exact ⟨rfl, hf.putFirst hi⟩
  · exact nomatch hadd

theorem exists_addNew (addV : Key c × Entry) (hf : Filled new newLog2Pages true L)
    (hroom : L.length < entriesPerPage * 2 ^ newLog2Pages) :
    ∃ b, addNew addV true newLog2Pages new = some b := by
  obtain ⟨j, hj, hfree⟩ := exists_free (hf.perm.length_eq ▸ hroom)
  unfold addNew
  dsimp only
  split
  · exact ⟨_, rfl⟩
  rename_i hnone
  have := firstIn_eq_none.mp hnone j (Nat.zero_le j) (by
    show j < 0 + entriesPerPage * 2 ^ newLog2Pages
    omega)
  rw [hfree] at this
  exact nomatch this

theorem exists_linear :
    ∃ new b, splitAndRehashLinear old oldLog2Pages (oldLog2Pages + 1) = some new ∧
      addNew addV true (oldLog2Pages + 1) new = some b ∧ b.linearSearch = true ∧
      Filled b.values b.log2Pages b.linearSearch
        (busyCopy c addV :: entries entryIsFree old (2 ^ oldLog2Pages * entriesPerPage)) := by
  obtain ⟨new, hnew, hf⟩ := exists_splitAndRehashLinear old (Nat.le_add_right oldLog2Pages 1)
  have hroom : (entries entryIsFree old (2 ^ oldLog2Pages * entriesPerPage)).length <
      entriesPerPage * 2 ^ (oldLog2Pages + 1) := by
    have h1 := length_entries_le entryIsFree old (2 ^ oldLog2Pages * entriesPerPage)
    have h2 := Nat.two_pow_pos oldLog2Pages
    unfold entriesPerPage at *
    omega
  obtain ⟨b, hb⟩ := exists_addNew addV hf hroom
  exact ⟨new, b, hnew, hb, addNew_filled hf hb⟩

/-- What a bucket adds to the count of linear buckets. -/
def linears (b : Option (Bucket c)) : Nat := (b.any (·.linearSearch)).toNat

/-- **Expansion** always succeeds, and the new bucket holds the old entries and the new one. -/
theorem exists_expand (b : Bucket c) (addV : Key c × Entry) (linearBuckets : U32) :
    ∃ new count, expand b addV linearBuckets = some (new, count) ∧
      count + .ofNat 32 (linears (some b)) = linearBuckets + .ofNat 32 (linears (some new)) ∧
      Filled new.values new.log2Pages new.linearSearch
        (busyCopy c addV :: entries entryIsFree b.values (entriesPerPage * 2 ^ b.log2Pages)) := by
  rw [Nat.mul_comm entriesPerPage]
  have hattempt : ∀ n new, (splitAndRehash b.values b.log2Pages n).bind (addNew addV false n) = some new →
      new.linearSearch = false ∧ Filled new.values new.log2Pages new.linearSearch
        (busyCopy c addV :: entries entryIsFree b.values (2 ^ b.log2Pages * entriesPerPage)) := by
    intro n new hnew
    obtain ⟨newV, hnewV, hadd⟩ := Option.bind_eq_some_iff.mp hnew
    exact addNew_filled (splitAndRehash_filled hnewV) hadd
  obtain ⟨lin, linB, hlin, hadd, hlinear, hf⟩ := exists_linear
  unfold expand linears Option.any
  dsimp only
  split
  · rename_i hb
    rw [hlin]
    dsimp only
    rw [hadd]
    exact ⟨_, _, rfl, by rw [hb, hlinear], hf⟩
  rename_i hb
  rw [Bool.not_eq_true] at hb
  split
  · rename_i new hnew
    exact ⟨_, _, rfl, by rw [hb, (hattempt _ _ hnew).1], (hattempt _ _ hnew).2⟩
  unfold tryResplit
  split
  · rename_i new hnew
    exact ⟨_, _, rfl, by rw [hb, (hattempt _ _ hnew).1], (hattempt _ _ hnew).2⟩
  · rw [markLinear, hlin]
    dsimp only
    rw [hadd]
    exact ⟨_, _, rfl, by rw [hb, hlinear]; exact BitVec.add_zero _, hf⟩

/-! ## The map -/

def Stores : Option (Bucket c) → (Key c → Option Entry) → Prop
  | none, M => ∀ k, M k = none
  | some b, M => ∃ L, Lists M L ∧ Filled b.values b.log2Pages b.linearSearch L

def bucketOf (c : Config) (k : Key c) : Nat := bucketIndex c (keyHash c k)

/-- The part of the map that belongs to bucket `i`. -/
def onBucket (M : Key c → Option Entry) (i : Nat) : Key c → Option Entry := fun k =>
  if bucketOf c k = i then M k else none

def TableInv (t : Table c) (M : Key c → Option Entry) : Prop := ∀ i, Stores (t.buckets i) (onBucket M i)

theorem onBucket_self (M : Key c → Option Entry) (k : Key c) : onBucket M (bucketOf c k) k = M k :=
  if_pos rfl

theorem tableInv_newTable : TableInv (newTable c) fun _ => none := by
  intro i k
  exact ite_self _

theorem TableInv.setBucket (hinv : TableInv t M) {e : Option Entry}
    (hb : Stores (some b) (update (onBucket M (bucketOf c k)) k e)) :
    TableInv (t.setBucket (bucketOf c k) b) (update M k e) := by
  intro i
  by_cases hi : i = bucketOf c k
  · subst hi
    have hon : onBucket (update M k e) (bucketOf c k) = update (onBucket M (bucketOf c k)) k e := by
      funext k'
      by_cases hk : k' = k
      · rw [hk, onBucket_self, update_self, update_self]
      · rw [update_of_ne hk, onBucket, onBucket, update_of_ne hk]
    rw [hon, Table.setBucket]
    dsimp only
    rwa [update_self]
  · have hon : onBucket (update M k e) i = onBucket M i := by
      funext k'
      by_cases hk : k' = k
      · rw [onBucket, onBucket, hk, if_neg (Ne.symm hi), if_neg (Ne.symm hi)]
      · rw [onBucket, onBucket, update_of_ne hk]
    rw [hon, Table.setBucket]
    dsimp only
    rw [update_of_ne hi]
    exact hinv i

/-- What the search for a key finds: its entry, which may be written again or cleared. -/
structure Found (b : Bucket c) (M : Key c → Option Entry) (k : Key c) (j : Nat) : Prop where
  entry : M k = some (b.values j).2
  key : (b.values j).1 = k
  busy : entryIsFree (b.values j).2 = false
  write : ∀ e : Entry, entryIsFree e = false →
    Stores (some { b with values := update b.values j (k, e) }) (update M k (some e))
  clear : Stores (some { b with values := update b.values j (blankKey c, blankEntry) })
    (update M k none)

section

variable (hs : Stores (some b) M)
include hs

theorem Stores.found (hk : k ≠ blankKey c)
    (hj : firstIn (fun i => decide ((b.values i).1 = k)) (b.range (keyHash c k)).1
      (b.range (keyHash c k)).2 = some j) : Found b M k j := by
  obtain ⟨L, hL, hf⟩ := hs
  obtain ⟨hkey, hin, hlive⟩ := hf.live_of_firstIn hk hj
  have hlt := lt_of_inHome hin
  have hval : b.values j = (k, (b.values j).2) := Prod.ext hkey rfl
  refine ⟨?_, hkey, hlive, fun e he => ?_, ?_⟩
  · rw [← hL.mem_iff, ← hval]
    exact hf.perm.mem_iff.mp (mem_entries.mpr ⟨j, hlt, rfl, hlive⟩)
  · obtain ⟨rest, hperm, hkept⟩ := hf.replace (e := (k, e)) hlt hlive he hkey.symm
    rw [hval] at hperm
    exact ⟨_, (hL.perm hperm).replace e, hkept⟩
  · obtain ⟨rest, hperm, hkept⟩ := hf.clear (e := (blankKey c, blankEntry)) hlt hlive
      entryIsFree_blankEntry rfl
    rw [hval] at hperm
    exact ⟨_, (hL.perm hperm).uncons, hkept⟩

theorem Stores.notFound
    (hj : firstIn (fun i => decide ((b.values i).1 = k)) (b.range (keyHash c k)).1
      (b.range (keyHash c k)).2 = none) : M k = none := by
  obtain ⟨L, hL, hf⟩ := hs
  exact hL.eq_none (hf.notMem_of_firstIn hj)

theorem Stores.put (hM : M v.1 = none)
    (hj : firstIn (fun i => entryIsFree (b.values i).2) (b.range (keyHash c v.1)).1
      (b.range (keyHash c v.1)).2 = some j) :
    Stores (some { b with values := update b.values j (busyCopy c v) })
      (update M v.1 (some (busyCopy c v).2)) := by
  obtain ⟨L, hL, hf⟩ := hs
  exact ⟨_, hL.cons hM (busyCopy c v).2, hf.putFirst hj⟩

theorem Stores.expand (hM : M v.1 = none) (linearBuckets : U32) :
    ∃ new count, Classify.expand b v linearBuckets = some (new, count) ∧
      count + .ofNat 32 (linears (some b)) = linearBuckets + .ofNat 32 (linears (some new)) ∧
      Stores (some new) (update M v.1 (some (busyCopy c v).2)) := by
  obtain ⟨L, hL, hf⟩ := hs
  obtain ⟨new, count, hnew, hcount, hfill⟩ := exists_expand b v linearBuckets
  exact ⟨new, count, hnew, hcount, _, hL.cons hM (busyCopy c v).2, hfill.of_perm (hf.perm.cons _)⟩

end

theorem stores_first (hM : ∀ k, M k = none) :
    Stores (some ⟨update (entryAlloc c) 0 (busyCopy c v), 0, false⟩)
      (update M v.1 (some (busyCopy c v).2)) := by
  have hnil : Lists M ([] : List (Key c × Entry)) := ⟨List.nodup_nil, fun k e => by simp [hM k]⟩
  refine ⟨_, hnil.cons (hM v.1) (busyCopy c v).2, filled_entryAlloc.putFirst ?_⟩
  refine firstIn_eq_some.mpr ⟨entryIsFree_blankEntry, ?_, fun j _ hj => absurd hj (Nat.not_lt_zero j)⟩
  simp [home, pageRange, entriesPerPage, Nat.mod_one]

/-! ## Calls -/

def touchEntry (now : U64) (e : Entry) : Entry :=
  if now.toNat % 2 ^ 63 ≠ 0 then { e with hits := e.hits + 1, lastHeard := now } else e

variable {now : U64}

theorem touch_eq : touch now v = (v.1, touchEntry now v.2) := by
  unfold touch touchEntry
  split <;> rfl

theorem entryIsFree_touchEntry (now : U64) (e : Entry) : entryIsFree (touchEntry now e) = entryIsFree e := by
  unfold touchEntry
  split <;> rfl

theorem update_of_none (hM : M k = none) (f : Entry → Entry) : update M k ((M k).map f) = M := by
  rw [hM, Option.map_none, ← hM, Function.update_eq_self]

theorem TableInv.findEntry (hinv : TableInv t M) (hk : masked c h ≠ blankKey c) (now : U64) :
    (Classify.findEntry t h (hashPacket c h) now).2 =
        (M (masked c h)).map (fun e => (masked c h, touchEntry now e)) ∧
      TableInv (Classify.findEntry t h (hashPacket c h) now).1
        (update M (masked c h) ((M (masked c h)).map (touchEntry now))) := by
  have hs := hinv (bucketOf c (masked c h))
  have hon := onBucket_self M (masked c h)
  unfold Classify.findEntry
  simp only [isEqual_eq, ← keyHash_masked]
  rw [← bucketOf]
  generalize masked c h = k at *
  cases hb : t.buckets (bucketOf c k) with
  | none =>
    rw [hb] at hs
    have hM : M k = none := hon ▸ hs k
    rw [update_of_none hM, hM]
    exact ⟨rfl, hinv⟩
  | some b =>
    rw [hb] at hs
    dsimp only
    split
    · rename_i hj
      have hM : M k = none := hon ▸ hs.notFound hj
      rw [update_of_none hM, hM]
      exact ⟨rfl, hinv⟩
    · rename_i j hj
      have hf := hs.found hk hj
      have hM : M k = some (b.values j).2 := hon ▸ hf.entry
      rw [hM, touch_eq, hf.key]
      refine ⟨rfl, hinv.setBucket (hf.write _ ?_)⟩
      rw [entryIsFree_touchEntry]
      exact hf.busy

section AddDel

variable {s : State c}

/-- A call changes one bucket, and both counts with it. -/
structure Counted (t t' : Table c) (i : Nat) (d : U32) : Prop where
  buckets : ∃ b, t'.buckets = update t.buckets i (some b)
  active : t'.activeElements = t.activeElements + d
  linear : t'.linearBuckets + .ofNat 32 (linears (t.buckets i)) =
    t.linearBuckets + .ofNat 32 (linears (t'.buckets i))

theorem TableInv.add (hinv : TableInv s.table M) (hk : v.1 ≠ blankKey c) :
    ∃ t, addDel s v true = some (⟨t, entryClaimResource s.locks (busyCopy c v).2⟩, 0) ∧
      Counted s.table t (bucketOf c v.1) (if M v.1 = none then 1 else 0) ∧
      TableInv t (update M v.1 (some (busyCopy c v).2)) := by
  have hs := hinv (bucketOf c v.1)
  have hon := onBucket_self M v.1
  unfold addDel
  rw [← keyHash]
  dsimp only
  rw [← bucketOf]
  cases hb : s.table.buckets (bucketOf c v.1) with
  | none =>
    rw [hb] at hs
    refine ⟨_, rfl, ⟨⟨_, rfl⟩, ?_, ?_⟩, hinv.setBucket (stores_first hs)⟩
    · rw [if_pos (hon ▸ hs v.1)]
      rfl
    · simp [Table.setBucket, hb, linears]
  | some b =>
    rw [hb] at hs
    dsimp only
    rw [if_pos rfl, addToBucket]
    split
    · rename_i j hj
      have hf := hs.found hk hj
      refine ⟨_, rfl, ⟨⟨_, rfl⟩, ?_, ?_⟩, hinv.setBucket (hf.write _ entryIsFree_busyCopy)⟩
      · rw [if_neg (by rw [← hon, hf.entry]; exact nofun)]
        exact (BitVec.add_zero _).symm
      · simp [Table.setBucket, hb, linears]
    rename_i hnone
    have hM := hs.notFound hnone
    rw [if_pos (hon ▸ hM)]
    split
    · rename_i j hj
      refine ⟨_, rfl, ⟨⟨_, rfl⟩, rfl, ?_⟩, hinv.setBucket (hs.put hM hj)⟩
      simp [Table.setBucket, hb, linears]
    · obtain ⟨new, count, hnew, hcount, hst⟩ := hs.expand hM s.table.linearBuckets
      rw [hnew]
      refine ⟨_, rfl, ⟨⟨_, rfl⟩, rfl, ?_⟩, hinv.setBucket hst⟩
      simpa [Table.setBucket, hb] using hcount

theorem TableInv.del (hinv : TableInv s.table M) (hk : v.1 ≠ blankKey c) :
    (M v.1 = none → ∃ rv, addDel s v false = some (s, rv) ∧ rv ≠ 0) ∧
      ∀ e, M v.1 = some e → ∃ t, addDel s v false = some (⟨t, entryReleaseResource s.locks e⟩, 0) ∧
        Counted s.table t (bucketOf c v.1) (-1) ∧ TableInv t (update M v.1 none) := by
  have hs := hinv (bucketOf c v.1)
  rw [← onBucket_self M v.1]
  unfold addDel
  rw [← keyHash]
  dsimp only
  rw [← bucketOf]
  cases hb : s.table.buckets (bucketOf c v.1) with
  | none =>
    rw [hb] at hs
    exact ⟨fun _ => ⟨-1, rfl, by decide⟩, fun e hM => nomatch (hs v.1).symm.trans hM⟩
  | some b =>
    rw [hb] at hs
    dsimp only
    rw [if_neg Bool.false_ne_true, delFromBucket]
    split
    · rename_i hj
      exact ⟨fun _ => ⟨-3, rfl, by decide⟩, fun e hM => nomatch (hs.notFound hj).symm.trans hM⟩
    · rename_i j hj
      have hf := hs.found hk hj
      refine ⟨fun hM => (nomatch hM.symm.trans hf.entry), fun e hM => ?_⟩
      obtain rfl : (b.values j).2 = e := Option.some.inj (hf.entry.symm.trans hM)
      refine ⟨_, rfl, ⟨⟨_, rfl⟩, BitVec.sub_eq_add_neg _ _, ?_⟩, hinv.setBucket hf.clear⟩
      simp [Table.setBucket, hb, linears]

end AddDel

/-! ## Sessions -/

theorem entry_busy : entryIsFree x.entry = false := by
  simp [entryIsFree, Session.entry]

theorem release_claim (l : Locks) (e : Entry) : entryReleaseResource (entryClaimResource l e) e = l := by
  unfold entryReleaseResource entryClaimResource addLock
  cases e.fib? with
  | none => rfl
  | some f =>
    dsimp only
    rw [update_self, Function.update_idem, Int.add_neg_cancel_right, Function.update_eq_self]

inductive Op where
  | session (x : Session)
  | find (h : Nat → U64) (now : U64)

variable (c) in
inductive Output where
  /-- what a call for a session returns, if it does -/
  | returned (rv : Option Int)
  | found (v : Option (Key c × Entry))

def Op.key (c : Config) : Op → Key c
  | .session x => masked c x.data
  | .find h _ => masked c h

def step (s : State c) : Op → State c × Output c
  | .session x =>
    match addDelSession (some s) x with
    | some (some s', rv) => (s', .returned (some rv))
    | _ => (s, .returned none)
  | .find h now =>
    let r := findEntry s.table h (hashPacket c h) now
    (⟨r.1, s.locks⟩, .found r.2)

def mapStep (M : Key c → Option Entry) : Op → (Key c → Option Entry) × Output c
  | .session x =>
    let k := masked c x.data
    if x.isAdd then (update M k (some x.entry), .returned (some 0))
    else if M k = none then (M, .returned (some apiErrorNoSuchEntry))
    else (update M k none, .returned (some 0))
  | .find h now =>
    let k := masked c h
    (update M k ((M k).map (touchEntry now)), .found ((M k).map fun e => (k, touchEntry now e)))

variable {s : State c}

theorem addDelSession_eq
    (h : addDel ⟨s.table, entryClaimResource s.locks x.entry⟩ (masked c x.data, x.entry) x.isAdd =
      some (s', rv)) :
    addDelSession (some s) x = some (some ⟨s'.table, entryReleaseResource s'.locks x.entry⟩,
      if rv ≠ 0 then apiErrorNoSuchEntry else 0) := by
  rw [addDelSession, h]

theorem step_session (h : addDelSession (some s) x = some (some s', rv)) :
    step s (.session x) = (s', .returned (some rv)) := by
  rw [step, h]

section

variable (hinv : TableInv s.table M)
include hinv

theorem TableInv.addDelSession_absent (hadd : x.isAdd = false)
    (hk : masked c x.data ≠ blankKey c) (hM : M (masked c x.data) = none) :
    addDelSession (some s) x = some (some s, apiErrorNoSuchEntry) := by
  obtain ⟨rv, hdel, hrv⟩ := (TableInv.del (s := ⟨s.table, entryClaimResource s.locks x.entry⟩)
    (v := (masked c x.data, x.entry)) hinv hk).1 hM
  rw [addDelSession_eq (hadd ▸ hdel), if_pos hrv, release_claim]

theorem TableInv.session (hk : masked c x.data ≠ blankKey c) :
    (Classify.step s (.session x)).2 = (mapStep M (.session x)).2 ∧
      TableInv (Classify.step s (.session x)).1.table (mapStep M (.session x)).1 := by
  rw [mapStep]
  cases hadd : x.isAdd with
  | true =>
    obtain ⟨t, ht, -, hinv'⟩ := TableInv.add (s := ⟨s.table, entryClaimResource s.locks x.entry⟩)
      (v := (masked c x.data, x.entry)) hinv hk
    rw [busyCopy_of_busy entry_busy] at ht hinv'
    rw [step_session (addDelSession_eq (hadd ▸ ht))]
    exact ⟨rfl, hinv'⟩
  | false =>
    cases hM : M (masked c x.data) with
    | none =>
      rw [step_session (hinv.addDelSession_absent hadd hk hM)]
      exact ⟨rfl, hinv⟩
    | some e =>
      obtain ⟨t, ht, -, hinv'⟩ := (TableInv.del (s := ⟨s.table, entryClaimResource s.locks x.entry⟩)
        (v := (masked c x.data, x.entry)) hinv hk).2 e hM
      rw [step_session (addDelSession_eq (hadd ▸ ht))]
      exact ⟨rfl, hinv'⟩

/-- **One call.** -/
theorem TableInv.step {op : Op} (hk : op.key c ≠ blankKey c) :
    (Classify.step s op).2 = (mapStep M op).2 ∧
      TableInv (Classify.step s op).1.table (mapStep M op).1 := by
  cases op with
  | find h now =>
    obtain ⟨hfound, hinv'⟩ := hinv.findEntry hk now
    exact ⟨congrArg Output.found hfound, hinv'⟩
  | session x => exact hinv.session hk

/-- **Runs.** -/
theorem TableInv.run {ops : List Op} (hk : ∀ op ∈ ops, op.key c ≠ blankKey c) :
    outputs Classify.step s ops = outputs mapStep M ops ∧
      TableInv (after Classify.step s ops).table (after mapStep M ops) := by
  induction ops generalizing s M with
  | nil => exact ⟨rfl, hinv⟩
  | cons op ops ih =>
    obtain ⟨hout, hinv'⟩ := hinv.step (hk op List.mem_cons_self)
    obtain ⟨houts, hend⟩ := ih hinv' fun op' h => hk op' (List.mem_cons_of_mem op h)
    exact ⟨by rw [outputs, outputs, hout, houts], hend⟩

end

/-- **An exact-match map on masked data**, as long as no data is all ones under the mask: calls return what
the map of the sessions says, a packet gets the session of its data, and deleting an absent session fails and
changes nothing. -/
theorem classifier_is_map (c : Config) (locks : Locks) (ops : List Op)
    (hops : ∀ op ∈ ops, op.key c ≠ blankKey c) :
    let s := after step ⟨newTable c, locks⟩ ops
    let M := after mapStep (fun _ => none) ops
    outputs step ⟨newTable c, locks⟩ ops = outputs (mapStep (c := c)) (fun _ => none) ops ∧
      (∀ h now, masked c h ≠ blankKey c →
        (findEntry s.table h (hashPacket c h) now).2 =
          (M (masked c h)).map fun e => (masked c h, touchEntry now e)) ∧
      ∀ x : Session, x.isAdd = false → masked c x.data ≠ blankKey c → M (masked c x.data) = none →
        addDelSession (some s) x = some (some s, apiErrorNoSuchEntry) := by
  obtain ⟨hout, hinv⟩ := TableInv.run (s := ⟨newTable c, locks⟩) tableInv_newTable hops
  exact ⟨hout, fun h now hk => (hinv.findEntry hk now).1,
    fun x hadd hk hM => hinv.addDelSession_absent hadd hk hM⟩

def allBits : Config where
  simd := .scalar
  matchNVectors := 1
  one_le := by decide
  le_five := by decide
  skipNVectors := 0
  mask _ := BitVec.allOnes 64
  nbuckets := 1
  hash _ := 0

/-- A session for data that has `n` in every lane. -/
def session (n : U64) (isAdd : Bool) : Session := ⟨fun _ => n, 7, 9, 0, 0, 0, isAdd, 0⟩

/-- Four sessions with one hash, which make the bucket linear; the second one is deleted. -/
def fourSessions : List Op :=
  [.session (session 1 true), .session (session 2 true), .session (session 3 true),
    .session (session 4 true), .session (session 2 false)]

theorem colliding_sessions_found :
    let s := after step ⟨newTable allBits, fun _ => 0⟩ fourSessions
    (findEntry s.table (fun _ => 4) (hashPacket allBits fun _ => 4) 1).2 =
        some (masked allBits fun _ => 4, touchEntry 1 (session 4 true).entry) ∧
      (findEntry s.table (fun _ => 2) (hashPacket allBits fun _ => 2) 1).2 = none := by
  have h4 : after mapStep (fun _ => none) fourSessions (masked allBits fun _ => 4) =
      some (session 4 true).entry := by decide +kernel
  have h2 : after mapStep (fun _ => none) fourSessions (masked allBits fun _ => 2) = none := by
    decide +kernel
  have hkeys : ∀ op ∈ fourSessions, op.key allBits ≠ blankKey allBits := by
    decide +kernel
  obtain ⟨-, hfind, -⟩ := classifier_is_map allBits (fun _ => 0) fourSessions hkeys
  exact ⟨(hfind (fun _ => 4) 1 (by decide +kernel)).trans (congrArg (Option.map _) h4),
    (hfind (fun _ => 2) 1 (by decide +kernel)).trans (congrArg (Option.map _) h2)⟩

/-- A session for data of all ones is added and deleted: packets still get the free entry, and it can be
deleted again. -/
theorem free_entry_found :
    let ops : List Op := [.session (session (BitVec.allOnes 64) true),
      .session (session (BitVec.allOnes 64) false)]
    let s := after step ⟨newTable allBits, fun _ => 0⟩ ops
    after (mapStep (c := allBits)) (fun _ => none) ops (masked allBits fun _ => BitVec.allOnes 64) = none ∧
      (findEntry s.table (fun _ => BitVec.allOnes 64) (hashPacket allBits fun _ => BitVec.allOnes 64) 0).2 =
        some (blankKey allBits, blankEntry) ∧
      (addDelSession (some s) (session (BitVec.allOnes 64) false)).map (·.2) = some 0 := by
  exact ⟨by decide +kernel, by decide +kernel, by decide +kernel⟩

end Vpp.Classify
