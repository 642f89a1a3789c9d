import Vpp.Bihash.Bucket

/-!
# The table is a finite map

Each bucket holds the part of one map that its index is for. A call changes the bucket of its key and
that key in the map, so that the search and the walk over all pairs give back what the map holds.
-/

namespace Vpp.Bihash

open Lib
open List hiding after
open Function (update update_self update_of_ne)

variable {K V : Type} {c : Config K V} {M : K → Option V}

/-- The part of the map that belongs to bucket `i`. -/
def onBucket (c : Config K V) (M : K → Option V) (i : Nat) : K → Option V := fun k =>
  if bucketIndex c (c.hash k) = i then M k else none

def TableInv (c : Config K V) : Table K V → (K → Option V) → Prop
  | none, M => ∀ k, M k = none
  | some buckets, M => ∀ i, ∃ L, BucketInv c (buckets i) (onBucket c M i) L

theorem lists_nil (h : ∀ k, M k = none) : Lists M ([] : List (K × V)) :=
  ⟨nodup_nil, fun k v => by simp [h k]⟩

theorem instantiate_inv (junk : Nat → Values K V) (h : ∀ k, M k = none) :
    TableInv c (some (instantiate c junk)) M := by
  intro i
  have hnil : Lists (onBucket c M i) ([] : List (K × V)) := lists_nil fun k => by simp [onBucket, h k]
  refine ⟨[], ?_⟩
  unfold instantiate
  cases hc : c.kvpAtBucketLevel with
  | true => exact bucketInv_level hc hnil _
  | false => exact bucketInv_null hc hnil _

/-! ## The walk over all pairs -/

variable {n isAdd : Nat} {s : Table K V × (K → Option V)} {b : Bucket K V} {h : Table K V} {L : List (K × V)}
  {kv : K × V}

theorem entries_pages (isFree : V → Bool) (values : Values K V) (m : Nat) :
    ((List.range n).flatMap fun j => ((List.range m).map fun k => values (m * j + k)).filter
      fun kv => !isFree kv.2) = entries isFree values (m * n) := by
  induction n with
  | zero => rfl
  | succ n ih =>
    rw [range_succ, flatMap_append, ih, Nat.mul_succ, entries, entries, range_add, map_append]
    simp [Function.comp_def]

def visited (c : Config K V) (b : Bucket K V) : List (K × V) :=
  if b.isEmpty c then [] else entries c.isFree b.getValue (c.kvpPerPage * 2 ^ b.log2Pages)

theorem foreachKeyValuePair_eq (buckets : Nat → Bucket K V) :
    foreachKeyValuePair c (some buckets) =
      (List.range (2 ^ c.log2Nbuckets)).flatMap fun i => visited c (buckets i) := by
  refine flatMap_congr fun i _ => ?_
  dsimp only
  rw [entries_pages]
  rfl

theorem BucketInv.visited (h : BucketInv c b M L) : Lists M (Bihash.visited c b) := by
  unfold Bihash.visited
  split
  · rename_i hempty
    exact h.nil_of_isEmpty hempty ▸ h.lists
  · rename_i hne
    have hs := h.stored (.inr (by simpa using hne))
    exact hs.lists.perm hs.filled.perm.symm

theorem TableInv.foreach (hinv : TableInv c h M) : Lists M (foreachKeyValuePair c h) := by
  cases h with
  | none => exact lists_nil hinv
  | some buckets =>
    have hv : ∀ i, Lists (onBucket c M i) (visited c (buckets i)) := fun i => by
      obtain ⟨L, hL⟩ := hinv i
      exact hL.visited
    have hmem : ∀ i k v, (k, v) ∈ visited c (buckets i) ↔
        bucketIndex c (c.hash k) = i ∧ M k = some v := fun i k v => by
      rw [(hv i).mem_iff, onBucket]
      split <;> simp_all
    rw [foreachKeyValuePair_eq]
    constructor
    · rw [map_flatMap, nodup_flatMap]
      refine ⟨fun i _ => (hv i).nodup, nodup_range.imp fun {i j} hij => ?_⟩
      intro k hki hkj
      obtain ⟨⟨k', v⟩, hi, rfl⟩ := mem_map.mp hki
      obtain ⟨⟨k'', w⟩, hj, hk⟩ := mem_map.mp hkj
      subst hk
      exact hij (((hmem i _ v).mp hi).1.symm.trans ((hmem j _ w).mp hj).1)
    · intro k v
      rw [mem_flatMap]
      constructor
      · rintro ⟨i, -, hi⟩
        exact ((hmem i k v).mp hi).2
      · intro hM
        exact ⟨_, mem_range.mpr (Nat.mod_lt _ (Nat.two_pow_pos _)), (hmem _ k v).mpr ⟨rfl, hM⟩⟩

theorem TableInv.getD (hinv : TableInv c h M) (fresh : Nat → Values K V) :
    TableInv c (some (h.getD (instantiate c fresh))) M := by
  cases h with
  | none => exact instantiate_inv fresh hinv
  | some buckets => exact hinv

variable [DecidableEq K]

theorem TableInv.search_eq (hinv : TableInv c h M) (k : K) : search c h k = M k := by
  cases h with
  | none => exact (hinv k).symm
  | some buckets =>
    obtain ⟨L, hL⟩ := hinv (bucketIndex c (c.hash k))
    show searchBucket c (buckets (bucketIndex c (c.hash k))) k = M k
    rw [hL.searchBucket_eq, onBucket, if_pos rfl]

/-! ## Calls -/

structure Op (K V : Type) where
  kv : K × V
  isAdd : Nat
  /-- the memory that the call gets -/
  fresh : Nat → Values K V
  junk : Nat → Values K V

structure Output where
  isAdd : Nat
  present : Bool
  rv : Option Int

def step (c : Config K V) (s : Table K V × (K → Option V)) (op : Op K V) :
    (Table K V × (K → Option V)) × Output :=
  let r := addDel c s.1 op.kv op.isAdd op.fresh op.junk
  (((r.map (·.1)).getD s.1, applyOp s.2 op.kv op.isAdd),
    ⟨op.isAdd, (s.2 op.kv.1).isSome, r.map (·.2)⟩)

def Op.bucket (c : Config K V) (h : Table K V) (op : Op K V) : Bucket K V :=
  h.getD (instantiate c op.fresh) (bucketIndex c (c.hash op.kv.1))

def Op.Live (c : Config K V) (op : Op K V) : Prop := op.isAdd ≠ 0 → c.isFree op.kv.2 = false

/-- The bucket can count one more pair if the call adds one. -/
def Op.Room (c : Config K V) (s : Table K V × (K → Option V)) (op : Op K V) : Prop :=
  op.isAdd ≠ 0 → s.2 op.kv.1 = none → (op.bucket c s.1).refcnt + 1 < 2 ^ 16

def Output.Good (o : Output) : Prop := ∃ rv, o.rv = some rv ∧ Answers o.isAdd o.present rv

theorem onBucket_applyOp_same :
    onBucket c (applyOp M kv isAdd) (bucketIndex c (c.hash kv.1)) =
      applyOp (onBucket c M (bucketIndex c (c.hash kv.1))) kv isAdd := by
  funext k
  have hkv : onBucket c M (bucketIndex c (c.hash kv.1)) kv.1 = M kv.1 := if_pos rfl
  unfold applyOp
  rw [hkv]
  by_cases hk : k = kv.1
  · subst hk
    split
    · simp [onBucket]
    · split <;> simp [onBucket]
  · split
    · simp [onBucket, update_of_ne hk]
    · split
      · rfl
      · simp [onBucket, update_of_ne hk]

theorem onBucket_applyOp_other {i : Nat} (hi : i ≠ bucketIndex c (c.hash kv.1)) :
    onBucket c (applyOp M kv isAdd) i = onBucket c M i := by
  funext k
  unfold onBucket
  split
  · rename_i hk
    have hne : k ≠ kv.1 := fun he => hi (he ▸ hk.symm)
    unfold applyOp
    split
    · rw [update_of_ne hne]
    · split
      · rfl
      · rw [update_of_ne hne]
  · rfl

/-- **One call.** -/
theorem TableInv.step {op : Op K V} (h : TableInv c s.1 s.2) (hlive : op.Live c) (hroom : op.Room c s) :
    TableInv c (Bihash.step c s op).1.1 (Bihash.step c s op).1.2 ∧ (Bihash.step c s op).2.Good := by
  obtain ⟨table, M⟩ := s
  obtain ⟨kv, isAdd, fresh, junk⟩ := op
  dsimp only [Bihash.step, Output.Good, Op.Live, Op.Room, Op.bucket] at *
  unfold addDel
  split
  · -- nothing is there yet, and nothing is deleted
    rename_i hnone
    obtain ⟨hn, rfl⟩ := hnone
    obtain rfl := Option.isNone_iff_eq_none.mp hn
    refine ⟨fun k => ?_, -1, rfl, by simp [Answers, h kv.1]⟩
    simp only [applyOp, if_true]
    by_cases hk : k = kv.1
    · rw [hk, update_self]
    · rw [update_of_ne hk]
      exact h k
  · have hinv := h.getD fresh
    dsimp only
    obtain ⟨L, hL⟩ := hinv (bucketIndex c (c.hash kv.1))
    have hkv : onBucket c M (bucketIndex c (c.hash kv.1)) kv.1 = M kv.1 := if_pos rfl
    obtain ⟨b', rv, L', hb', hans, hL'⟩ := hL.addDelBucket junk hlive (by rw [hkv]; exact hroom)
    rw [hb']
    refine ⟨fun i => ?_, rv, rfl, hkv ▸ hans⟩
    by_cases hi : i = bucketIndex c (c.hash kv.1)
    · subst hi
      rw [update_self, onBucket_applyOp_same]
      exact ⟨L', hL'⟩
    · rw [update_of_ne hi, onBucket_applyOp_other hi]
      exact hinv i

/-- A table as it is set up, with its buckets or to be instantiated by the first addition. -/
def Fresh (c : Config K V) (h : Table K V) : Prop := h = none ∨ ∃ fresh, h = some (instantiate c fresh)

/-- The search gives what the map holds, the walk visits each pair once, and every call returns what the map
says, in every run in which no bucket counts beyond 16 bits. -/
theorem finite_map {h : Table K V} {ops : List (Op K V)} (hfresh : Fresh c h)
    (hok : Along (step c) (fun s op => op.Live c ∧ op.Room c s) (h, fun _ => none) ops) :
    let s := after (step c) (h, fun _ => none) ops
    (∀ k, search c s.1 k = s.2 k) ∧ Lists s.2 (foreachKeyValuePair c s.1) ∧
      ∀ o ∈ outputs (step c) (h, fun _ => none) ops, o.Good := by
  have h0 : TableInv c h fun _ => none := by
    rcases hfresh with rfl | ⟨fresh, rfl⟩
    · exact fun _ => rfl
    · exact instantiate_inv fresh fun _ => rfl
  obtain ⟨hinv, hgood⟩ := Along.invariant (fun s => TableInv c s.1 s.2) Output.Good
    (fun s op hs hop => hs.step hop.1 hop.2) h0 hok
  exact ⟨hinv.search_eq, hinv.foreach, hgood⟩

/-! ## One bucket for every key -/

/-- All keys collide. A value is a flag that says whether it looks free. -/
def oneBucket : Config Nat Bool where
  hash _ := 0
  isFree := id
  markFree _ := true
  isFree_markFree _ := rfl
  kvpPerPage := 2
  kvpPerPage_pos := by decide
  log2Nbuckets := 0
  kvpAtBucketLevel := false

def junkPages : Nat → Values Nat Bool := fun _ _ => (0, true)

def addKey (k : Nat) : Op Nat Bool := ⟨(k, false), 1, junkPages, junkPages⟩

def delKey (k : Nat) : Op Nat Bool := ⟨(k, false), 0, junkPages, junkPages⟩

/-- Three keys fill a page, make the bucket expand and turn linear; one is deleted. -/
theorem finite_map_oneBucket :
    let s := after (step oneBucket) (none, fun _ => none) [addKey 0, addKey 1, addKey 2, delKey 1]
    search oneBucket s.1 2 = some false ∧ search oneBucket s.1 1 = none ∧
      Lists s.2 (foreachKeyValuePair oneBucket s.1) := by
  have hok : Along (step oneBucket) (fun s op => op.Live oneBucket ∧ op.Room oneBucket s)
      (none, fun _ => none) [addKey 0, addKey 1, addKey 2, delKey 1] := by
    refine ⟨⟨fun _ => rfl, fun _ _ => ?_⟩, ⟨fun _ => rfl, fun _ _ => ?_⟩,
      ⟨fun _ => rfl, fun _ _ => ?_⟩, ⟨fun h => absurd rfl h, fun h => absurd rfl h⟩, trivial⟩
    all_goals decide
  obtain ⟨hsearch, hlist, -⟩ := finite_map (.inl rfl) hok
  exact ⟨hsearch 2, hsearch 1, hlist⟩

/-! ### A bucket of 65536 pairs -/

def addKeys (n : Nat) : List (Op Nat Bool) := (List.range n).map addKey

/-- The map of the keys below `n`. -/
def firstKeys (n : Nat) : Nat → Option Bool := fun k => if k < n then some false else none

def emptyTable : Table Nat Bool × (Nat → Option Bool) :=
  (some (instantiate oneBucket junkPages), fun _ => none)

/-- The one bucket after `n` keys. -/
def bucketAfter (n : Nat) : Bucket Nat Bool :=
  (after (step oneBucket) emptyTable (addKeys n)).1.getD (instantiate oneBucket junkPages) 0

theorem addKeys_succ : addKeys (n + 1) = addKeys n ++ [addKey n] := by
  rw [addKeys, range_succ, map_append]
  rfl

theorem firstKeys_succ : update (firstKeys n) n (some false) = firstKeys (n + 1) := by
  funext k
  unfold firstKeys
  by_cases hk : k = n
  · rw [hk, update_self, if_pos (Nat.lt_succ_self n)]
  · rw [update_of_ne hk]
    congr 1
    apply propext
    omega

theorem after_addKeys_map : (after (step oneBucket) emptyTable (addKeys n)).2 = firstKeys n := by
  induction n with
  | zero => rfl
  | succ n ih =>
    rw [addKeys_succ, after_append]
    show applyOp (after (step oneBucket) emptyTable (addKeys n)).2 (n, false) 1 = _
    rw [ih]
    exact firstKeys_succ

theorem length_of_lists_firstKeys {L : List (Nat × Bool)} (h : Lists (firstKeys n) L) : L.length = n := by
  have hperm : (L.map Prod.fst).Perm (List.range n) := by
    rw [perm_ext_iff_of_nodup h.nodup nodup_range]
    intro k
    rw [mem_range]
    constructor
    · intro hk
      by_contra hlt
      exact h.not_mem (if_neg hlt) hk
    · intro hk
      exact mem_map_of_mem ((h.mem_iff k false).mpr (if_pos hk))
  simpa using hperm.length_eq

theorem bucketIndex_oneBucket (k : Nat) : bucketIndex oneBucket (oneBucket.hash k) = 0 := rfl

theorem bucketAfter_inv
    (hok : Along (step oneBucket) (fun s op => op.Live oneBucket ∧ op.Room oneBucket s) emptyTable (addKeys
      n)) : ∃ L, BucketInv oneBucket (bucketAfter n) (firstKeys n) L ∧ L.length = n := by
  have hinv := (Along.invariant (fun s => TableInv oneBucket s.1 s.2) Output.Good
    (fun s op hs hop => hs.step hop.1 hop.2) (instantiate_inv junkPages fun _ => rfl) hok).1
  rw [after_addKeys_map] at hinv
  obtain ⟨L, hL⟩ := hinv.getD junkPages 0
  exact ⟨L, hL, length_of_lists_firstKeys hL.lists⟩

theorem along_addKeys (hn : n < 2 ^ 16) :
    Along (step oneBucket) (fun s op => op.Live oneBucket ∧ op.Room oneBucket s) emptyTable
      (addKeys n) := by
  induction n with
  | zero => trivial
  | succ n ih =>
    have hn' := ih (by omega)
    obtain ⟨L, hL, hlen⟩ := bucketAfter_inv hn'
    rw [addKeys_succ]
    refine along_append.mpr ⟨hn', ⟨fun _ => rfl, fun _ _ => ?_⟩, trivial⟩
    show (bucketAfter n).refcnt + 1 < 2 ^ 16
    rw [hL.refcnt_eq, hlen]
    exact hn

theorem step_table {op : Op K V} {rv : Int} (hne : ¬ (s.1.isNone ∧ op.isAdd = 0))
    (hb : addDelBucket c (op.bucket c s.1) op.kv op.isAdd op.junk = some (b, rv)) :
    (step c s op).1.1 = some (update (s.1.getD (instantiate c op.fresh))
      (bucketIndex c (c.hash op.kv.1)) b) := by
  unfold Op.bucket at hb
  dsimp only [step]
  rw [addDel, if_neg hne]
  dsimp only
  rw [hb]
  rfl

theorem delFromBucket_refcnt_zero {k : K} (hs : Stored c b M L) (hk : M k ≠ none) (hz : b.refcnt = 0) :
    ∃ b', delFromBucket c b k = (b', 0) ∧ b'.offset = .null := by
  obtain ⟨i, hi⟩ : ∃ i, findKey c b k = some i :=
    Option.ne_none_iff_exists'.mp fun hn => hk (hs.findKey_eq_none.mp hn)
  unfold delFromBucket
  rw [hi]
  dsimp only
  rw [if_neg (by omega)]
  exact ⟨_, rfl, rfl⟩

theorem lost_after_addKeys (hn : n + 1 = 2 ^ 16) :
    search oneBucket (after (step oneBucket) emptyTable (addKeys (n + 1) ++ [delKey 0])).1 1 = none := by
  obtain ⟨L, hL, hlen⟩ := bucketAfter_inv (along_addKeys (n := n) (by omega))
  have hs : Stored oneBucket (bucketAfter n) (firstKeys n) L := hL.stored_of_mem (k := 0) (by
    rw [firstKeys, if_pos (by omega)]
    exact Option.some_ne_none _)
  have habsent : firstKeys n n = none := if_neg (lt_irrefl n)
  obtain ⟨b, hb, hs', hcnt⟩ := hs.addNew (show firstKeys n (n, false).1 = none from habsent) rfl 1
    junkPages
  have hzero : b.refcnt = 0 := by
    have hone : (bucketAfter n).refcnt = n := by
      rw [hL.refcnt_eq, hlen]
      rfl
    rw [hcnt, hone, hn, Nat.mod_self]
  obtain ⟨b', hdel, hnull⟩ := delFromBucket_refcnt_zero (k := 0) hs' (by
    rw [firstKeys_succ, firstKeys]
    exact Option.some_ne_none _) hzero
  rw [addKeys_succ, append_assoc, after_append]
  show search oneBucket
    (step oneBucket (step oneBucket (after (step oneBucket) emptyTable (addKeys n)) (addKey n)).1
      (delKey 0)).1.1 1 = none
  have h1 : (step oneBucket (after (step oneBucket) emptyTable (addKeys n)) (addKey n)).1.1 = _ :=
    step_table (fun h => one_ne_zero h.2) ((addDelBucket_stored hs one_ne_zero).trans hb)
  rw [bucketIndex_oneBucket] at h1
  generalize (step oneBucket (after (step oneBucket) emptyTable (addKeys n)) (addKey n)).1 = s1 at h1
  have hb1 : (delKey 0).bucket oneBucket s1.1 = b := by
    rw [Op.bucket, h1, bucketIndex_oneBucket, Option.getD_some, update_self]
  have hne : ¬ (oneBucket.kvpAtBucketLevel = false ∧ b.isEmpty oneBucket = true) := fun h =>
    Bool.false_ne_true ((hs'.nonempty rfl).symm.trans h.2)
  have hdel' : addDelBucket oneBucket ((delKey 0).bucket oneBucket s1.1) (delKey 0).kv 0 junkPages =
      some (b', 0) := by
    rw [hb1, addDelBucket, if_neg hne]
    exact congrArg some hdel
  rw [step_table (by rw [h1]; rintro ⟨⟨⟩, -⟩) hdel']
  rw [search, bucketIndex_oneBucket, bucketIndex_oneBucket, update_self, searchBucket, if_pos]
  rw [isEmpty_eq rfl, hnull]

theorem map_after_addKeys (hn : 0 < n) :
    (after (step oneBucket) emptyTable (addKeys (n + 1) ++ [delKey 0])).2 1 = some false := by
  rw [after_append]
  show applyOp (after (step oneBucket) emptyTable (addKeys (n + 1))).2 (0, false) 0 1 = some false
  rw [after_addKeys_map, applyOp, if_pos rfl]
  exact if_pos (by omega)

theorem live_addKeys : ∀ op ∈ addKeys n ++ [delKey 0], op.Live oneBucket := by
  intro op hop
  rcases mem_append.mp hop with hop | hop
  · obtain ⟨k, -, rfl⟩ := mem_map.mp hop
    exact fun _ => rfl
  · rw [mem_singleton.mp hop]
    exact fun h => absurd rfl h

/-- The count of the bucket starts over at 65536 pairs, and the next deletion frees them all. -/
theorem pairs_lost_with_count_of_16_bits :
    let ops := addKeys (65535 + 1) ++ [delKey 0]
    let s := after (step oneBucket) emptyTable ops
    (∀ op ∈ ops, op.Live oneBucket) ∧ s.2 1 = some false ∧ search oneBucket s.1 1 = none :=
  ⟨live_addKeys, map_after_addKeys (by decide), lost_after_addKeys rfl⟩

end Vpp.Bihash
