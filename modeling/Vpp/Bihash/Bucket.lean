import Vpp.Bihash.Split

/-!
# A bucket is a map

The storage of a bucket holds the pairs of a map, and the bucket counts them. The lemmas say what the
search, an addition and a deletion do to that map; the count is right as long as it does not leave its
16 bits.
-/

namespace Vpp.Bihash

open Lib List
open Function (update)

variable {K V : Type} {c : Config K V} {b : Bucket K V} {M : K → Option V}
  {L : List (K × V)} {kv : K × V} {k : K} {v : V} {i : Nat}

/-- The storage of the bucket holds the pairs `L` of the map `M`. -/
structure Stored (c : Config K V) (b : Bucket K V) (M : K → Option V) (L : List (K × V)) : Prop where
  lists : Lists M L
  filled : Filled c b.getValue b.log2Pages b.linearSearch L
  nonempty : c.kvpAtBucketLevel = false → b.isEmpty c = false

/-- With an array at the bucket level, the count is one more than the pairs. -/
def Config.bump (c : Config K V) : Nat := if c.kvpAtBucketLevel then 1 else 0

structure BucketInv (c : Config K V) (b : Bucket K V) (M : K → Option V) (L : List (K × V)) : Prop where
  lists : Lists M L
  refcnt_eq : b.refcnt = L.length + c.bump
  refcnt_lt : b.refcnt < 2 ^ 16
  stored : c.kvpAtBucketLevel = true ∨ b.isEmpty c = false → Stored c b M L
  empty_iff : c.kvpAtBucketLevel = false → (b.isEmpty c = true ↔ L = [])

/-! ## Writing to the storage -/

@[simp] theorem getValue_setValue : (b.setValue i kv).getValue = update b.getValue i kv := by
  unfold Bucket.setValue Bucket.getValue
  cases b.offset <;> rfl

@[simp] theorem log2Pages_setValue : (b.setValue i kv).log2Pages = b.log2Pages := by
  unfold Bucket.setValue
  split <;> rfl

@[simp] theorem linearSearch_setValue : (b.setValue i kv).linearSearch = b.linearSearch := by
  unfold Bucket.setValue
  split <;> rfl

@[simp] theorem refcnt_setValue : (b.setValue i kv).refcnt = b.refcnt := by
  unfold Bucket.setValue
  split <;> rfl

theorem isEmpty_eq (hc : c.kvpAtBucketLevel = false) :
    b.isEmpty c = match b.offset with
      | .null => true
      | _ => false := by
  unfold Bucket.isEmpty
  cases b.offset <;> simp only [hc, Bool.false_eq_true, if_false]

theorem isEmpty_withRefcnt (hc : c.kvpAtBucketLevel = false) (n : Nat) :
    ({ b with refcnt := n } : Bucket K V).isEmpty c = b.isEmpty c := by
  rw [isEmpty_eq hc, isEmpty_eq hc]

theorem isEmpty_setValue (hc : c.kvpAtBucketLevel = false) : (b.setValue i kv).isEmpty c = b.isEmpty c := by
  rw [isEmpty_eq hc, isEmpty_eq hc]
  unfold Bucket.setValue
  cases b.offset <;> rfl

/-! ## The search -/

theorem Stored.nodup (h : Stored c b M L) :
    ((entries c.isFree b.getValue (c.kvpPerPage * 2 ^ b.log2Pages)).map Prod.fst).Nodup :=
  (h.filled.perm.map Prod.fst).nodup_iff.mpr h.lists.nodup

theorem Stored.inv (h : Stored c b M L) (hcnt : b.refcnt = L.length + c.bump)
    (hlt : b.refcnt < 2 ^ 16) (hne : c.kvpAtBucketLevel = false → L ≠ []) : BucketInv c b M L := by
  refine ⟨h.lists, hcnt, hlt, fun _ => h, fun hc => ?_⟩
  simp [h.nonempty hc, hne hc]

theorem BucketInv.stored_of_mem (h : BucketInv c b M L) (hM : M k ≠ none) : Stored c b M L := by
  refine h.stored ?_
  cases hc : c.kvpAtBucketLevel with
  | true => exact .inl rfl
  | false =>
    refine .inr (Bool.eq_false_iff.mpr fun he => ?_)
    have hnil := (h.empty_iff hc).mp he
    exact hM (h.lists.eq_none (by rw [hnil]; exact not_mem_nil))

theorem Stored.withRefcnt (h : Stored c b M L) (n : Nat) : Stored c { b with refcnt := n } M L :=
  ⟨h.lists, h.filled, fun hc => (isEmpty_withRefcnt hc n).trans (h.nonempty hc)⟩

theorem bucketInv_null (hc : c.kvpAtBucketLevel = false) (h : Lists M ([] : List (K × V)))
    (kvp : Values K V) :
    BucketInv c { offset := .null, linearSearch := false, log2Pages := 0, refcnt := 0, kvp } M [] := by
  refine ⟨h, by simp [Config.bump, hc], (by decide : 0 < 2 ^ 16), fun hne => ?_, fun _ => by simp [isEmpty_eq hc]⟩
  rcases hne with hne | hne
  · exact absurd (hc.symm.trans hne) Bool.false_ne_true
  · rw [isEmpty_eq hc] at hne
    exact nomatch hne

theorem bucketInv_level (hc : c.kvpAtBucketLevel = true) (h : Lists M ([] : List (K × V)))
    (kvp : Values K V) :
    BucketInv c
      { offset := .bucketLevel, linearSearch := false, log2Pages := 0, refcnt := 1
        kvp := valueAlloc c kvp } M [] := by
  refine ⟨h, by simp [Config.bump, hc], (by decide : 1 < 2 ^ 16), fun _ => ⟨h, filled_valueAlloc c kvp 0 false, ?_⟩, ?_⟩
  · exact fun hf => absurd (hf.symm.trans hc) Bool.false_ne_true
  · exact fun hf => absurd (hf.symm.trans hc) Bool.false_ne_true

theorem BucketInv.nil_of_isEmpty (h : BucketInv c b M L) (hempty : b.isEmpty c = true) : L = [] := by
  cases hc : c.kvpAtBucketLevel with
  | false => exact (h.empty_iff hc).mp hempty
  | true =>
    have hcnt := h.refcnt_eq
    simp only [Bucket.isEmpty, hc, if_true, Bool.and_eq_true, beq_iff_eq] at hempty
    simp only [Config.bump, hc, if_true] at hcnt
    exact length_eq_zero_iff.mp (by omega)

variable [DecidableEq K]

theorem BucketInv.searchBucket_eq (h : BucketInv c b M L) (k : K) : searchBucket c b k = M k := by
  by_cases hempty : b.isEmpty c = true
  · have hnil := h.nil_of_isEmpty hempty
    rw [searchBucket, if_pos hempty]
    exact (h.lists.eq_none (by rw [hnil]; exact not_mem_nil)).symm
  have hs := h.stored (.inr (by simpa using hempty))
  have hlookup : ∀ v, searchBucket c b k = some v ↔ M k = some v := fun v => by
    rw [← hs.lists.mem_iff, ← hs.filled.perm.mem_iff,
      ← hs.filled.placed.lookup_eq_some hs.nodup (pageRange_le _), searchBucket, if_neg hempty]
    rfl
  exact Option.ext hlookup

/-! ## Finding a key -/

theorem findKey_some (hi : findKey c b k = some i) :
    i < c.kvpPerPage * 2 ^ b.log2Pages ∧ c.isFree (b.getValue i).2 = false ∧ (b.getValue i).1 = k := by
  obtain ⟨hp, hin, -⟩ := firstIn_eq_some.mp hi
  simp only [Bool.and_eq_true, Bool.not_eq_true', decide_eq_true_eq] at hp
  exact ⟨lt_of_lt_of_le hin.2 (pageRange_le _), hp.1, hp.2⟩

theorem Stored.findKey_eq_none (h : Stored c b M L) : findKey c b k = none ↔ M k = none := by
  constructor
  · intro hnone
    cases hM : M k with
    | none => rfl
    | some v =>
      have hmem := h.filled.perm.mem_iff.mpr ((h.lists.mem_iff k v).mpr hM)
      obtain ⟨j, hj, hv, hf⟩ := mem_entries.mp hmem
      have hin := h.filled.placed.inHome j hj (by rw [hv]; exact hf)
      rw [hv] at hin
      have := firstIn_eq_none.mp hnone j hin.1 hin.2
      rw [hv] at this
      simp [hf] at this
  · intro hM
    cases hf : findKey c b k with
    | none => rfl
    | some i =>
      obtain ⟨hi, hlive, hkey⟩ := findKey_some hf
      have hmem : b.getValue i ∈ L := h.filled.perm.mem_iff.mp (mem_entries.mpr ⟨i, hi, rfl, hlive⟩)
      exact absurd (hkey ▸ mem_map_of_mem hmem) (h.lists.not_mem hM)

theorem Stored.found (h : Stored c b M L) (hi : findKey c b k = some i) :
    ∃ w rest, L.Perm ((k, w) :: rest) ∧
      rest = others c.isFree b.getValue (c.kvpPerPage * 2 ^ b.log2Pages) i := by
  obtain ⟨hlt, hlive, hkey⟩ := findKey_some hi
  refine ⟨(b.getValue i).2, _, ?_, rfl⟩
  have := h.filled.perm.symm.trans (entries_live hlt hlive)
  rwa [← hkey]

/-! ## Adding -/

theorem Stored.overwrite (h : Stored c b M L) (hi : findKey c b kv.1 = some i)
    (hlive : c.isFree kv.2 = false) :
    ∃ L', Stored c (b.setValue i ((b.getValue i).1, kv.2)) (update M kv.1 (some kv.2)) L' ∧
      L'.length = L.length := by
  obtain ⟨w, rest, hperm, hrest⟩ := h.found hi
  obtain ⟨hlt, hold, hkey⟩ := findKey_some hi
  refine ⟨(kv.1, kv.2) :: rest, ⟨(h.lists.perm hperm).replace kv.2, ⟨?_, ?_⟩, fun hc => ?_⟩, ?_⟩
  · simp only [getValue_setValue, log2Pages_setValue]
    rw [hrest, ← hkey]
    exact entries_update_live hlt hlive
  · simp only [getValue_setValue, log2Pages_setValue, linearSearch_setValue]
    exact h.filled.placed.setValue hlt hold h.nodup
  · exact (isEmpty_setValue hc).trans (h.nonempty hc)
  · rw [hperm.length_eq]
    rfl

theorem Stored.addNew (h : Stored c b M L) (hM : M kv.1 = none) (hlive : c.isFree kv.2 = false)
    (isAdd : Nat) (junk : Nat → Values K V) :
    ∃ b', addToBucket c b kv isAdd junk = some (b', 0) ∧
      Stored c b' (update M kv.1 (some kv.2)) (kv :: L) ∧
      b'.refcnt = (b.refcnt + 1) % 2 ^ 16 := by
  unfold addToBucket
  rw [h.findKey_eq_none.mpr hM]
  dsimp only
  split
  · rename_i i hi
    refine ⟨_, rfl, ⟨h.lists.cons hM kv.2, ?_, fun hc => ?_⟩, rfl⟩
    · have := h.filled.put hlive hi
      rwa [← getValue_setValue, ← log2Pages_setValue, ← linearSearch_setValue] at this
    · rw [isEmpty_withRefcnt hc, isEmpty_setValue hc]
      exact h.nonempty hc
  · obtain ⟨new, hnew, hf⟩ := exists_expand c b.getValue b.log2Pages hlive junk
    rw [hnew]
    refine ⟨_, rfl, ⟨h.lists.cons hM kv.2, hf.of_perm (h.filled.perm.cons kv), fun hc => ?_⟩, rfl⟩
    rw [isEmpty_eq hc]

def Answers (isAdd : Nat) (present : Bool) (rv : Int) : Prop :=
  if isAdd = 0 then if present then rv = 0 else rv < 0
  else if isAdd = 2 ∧ present = true then rv = -2 else rv = 0

def applyOp (M : K → Option V) (kv : K × V) (isAdd : Nat) : K → Option V :=
  if isAdd = 0 then update M kv.1 none
  else if isAdd = 2 ∧ (M kv.1).isSome = true then M else update M kv.1 (some kv.2)

/-- The bucket after a call, and what the call returned. -/
def Serves (c : Config K V) (M : K → Option V) (kv : K × V) (isAdd : Nat)
    (r : Option (Bucket K V × Int)) : Prop :=
  ∃ b rv L, r = some (b, rv) ∧ Answers isAdd (M kv.1).isSome rv ∧ BucketInv c b (applyOp M kv isAdd) L

variable {isAdd : Nat} {junk : Nat → Values K V}

theorem addDelBucket_stored (h : Stored c b M L) (hadd : isAdd ≠ 0) :
    addDelBucket c b kv isAdd junk = addToBucket c b kv isAdd junk := by
  have hne : ¬ (c.kvpAtBucketLevel = false ∧ b.isEmpty c = true) := fun hh =>
    Bool.false_ne_true ((h.nonempty hh.1).symm.trans hh.2)
  rw [addDelBucket, if_neg hne, if_neg hadd]

theorem BucketInv.add_present (h : BucketInv c b M L) (hM : M kv.1 = some v)
    (hlive : c.isFree kv.2 = false) (hadd : isAdd ≠ 0) :
    Serves c M kv isAdd (addDelBucket c b kv isAdd junk) := by
  have hs := h.stored_of_mem (by rw [hM]; exact Option.some_ne_none v)
  obtain ⟨i, hi⟩ : ∃ i, findKey c b kv.1 = some i := Option.ne_none_iff_exists'.mp fun hn => by
    have := hs.findKey_eq_none.mp hn
    rw [hM] at this
    exact nomatch this
  rw [addDelBucket_stored hs hadd, addToBucket, hi]
  dsimp only
  split
  · rename_i h2
    refine ⟨b, -2, L, rfl, ?_, ?_⟩
    · simp [Answers, h2, hM]
    · simpa [applyOp, h2, hM] using h
  · rename_i h2
    obtain ⟨L', hs', hlen⟩ := hs.overwrite hi hlive
    refine ⟨_, 0, L', rfl, ?_, ?_⟩
    · simp [Answers, h2, hadd]
    have happ : applyOp M kv isAdd = update M kv.1 (some kv.2) := by simp [applyOp, h2, hadd]
    rw [happ]
    refine hs'.inv ?_ ?_ fun hc hnil => ?_
    · rw [refcnt_setValue, hlen]
      exact h.refcnt_eq
    · rw [refcnt_setValue]
      exact h.refcnt_lt
    · rw [hnil] at hlen
      have hmem := (h.lists.mem_iff kv.1 v).mpr hM
      rw [length_eq_zero_iff.mp hlen.symm] at hmem
      exact not_mem_nil hmem

theorem firstElt_stored (hc : c.kvpAtBucketLevel = false) (h : Lists M ([] : List (K × V)))
    (hlive : c.isFree kv.2 = false) (junk : Values K V) :
    Stored c (firstElt c b kv junk) (update M kv.1 (some kv.2)) [kv] := by
  have hM : M kv.1 = none := h.eq_none not_mem_nil
  refine ⟨h.cons hM kv.2, ?_, fun _ => by rw [isEmpty_eq hc]; rfl⟩
  have hrange : pageRange c false 0 (c.hash kv.1) = (0, c.kvpPerPage) := by
    simp [pageRange, extractBits, Nat.mod_one]
  refine (filled_valueAlloc c junk 0 false).put hlive (firstIn_eq_some.mpr ?_)
  rw [hrange]
  exact ⟨valueAlloc_isFree junk 0, ⟨le_refl 0, by have := c.kvpPerPage_pos; omega⟩,
    fun j _ hj => absurd hj (Nat.not_lt_zero j)⟩

theorem BucketInv.add_absent (h : BucketInv c b M L) (hM : M kv.1 = none)
    (hlive : c.isFree kv.2 = false) (hadd : isAdd ≠ 0) (hlt : b.refcnt + 1 < 2 ^ 16) :
    Serves c M kv isAdd (addDelBucket c b kv isAdd junk) := by
  have happ : applyOp M kv isAdd = update M kv.1 (some kv.2) := by simp [applyOp, hadd, hM]
  have hans : Answers isAdd (M kv.1).isSome 0 := by simp [Answers, hadd, hM]
  by_cases hfirst : c.kvpAtBucketLevel = false ∧ b.isEmpty c = true
  · obtain ⟨hc, hempty⟩ := hfirst
    obtain rfl := (h.empty_iff hc).mp hempty
    refine ⟨firstElt c b kv (junk 0), 0, [kv], ?_, hans, ?_⟩
    · rw [addDelBucket, if_pos ⟨hc, hempty⟩, if_neg hadd]
    · rw [happ]
      refine (firstElt_stored hc h.lists hlive (junk 0)).inv ?_ (by decide : 1 < 2 ^ 16)
        fun _ => cons_ne_nil _ _
      simp [firstElt, Config.bump, hc]
  · have hs : Stored c b M L := h.stored (by
      cases hc : c.kvpAtBucketLevel with
      | true => exact .inl rfl
      | false => exact .inr (by simpa [hc] using hfirst))
    obtain ⟨b', hb', hs', hcnt⟩ := hs.addNew hM hlive isAdd junk
    refine ⟨b', 0, kv :: L, (addDelBucket_stored hs hadd).trans hb', hans, ?_⟩
    rw [happ]
    have hcnt' := h.refcnt_eq
    refine hs'.inv ?_ (by omega) fun _ => cons_ne_nil _ _
    rw [length_cons]
    omega

/-! ## Deleting -/

theorem Stored.markFree (h : Stored c b M L) (hi : findKey c b k = some i) :
    ∃ w rest, L.Perm ((k, w) :: rest) ∧
      Stored c (b.setValue i ((b.getValue i).1, c.markFree (b.getValue i).2))
        (update M k none) rest := by
  obtain ⟨w, rest, hperm, hrest⟩ := h.found hi
  obtain ⟨hlt, hold, hkey⟩ := findKey_some hi
  refine ⟨w, rest, hperm, (h.lists.perm hperm).uncons, ⟨?_, ?_⟩, fun hc => ?_⟩
  · simp only [getValue_setValue, log2Pages_setValue]
    rw [hrest]
    exact entries_update_dead hlt (c.isFree_markFree _)
  · simp only [getValue_setValue, log2Pages_setValue, linearSearch_setValue]
    exact h.filled.placed.setValue hlt hold h.nodup
  · exact (isEmpty_setValue hc).trans (h.nonempty hc)

theorem delFromBucket_present (h : BucketInv c b M L) (hM : M k = some v) :
    ∃ b' L', delFromBucket c b k = (b', 0) ∧ BucketInv c b' (update M k none) L' := by
  have hs := h.stored_of_mem (by rw [hM]; exact Option.some_ne_none v)
  obtain ⟨i, hi⟩ : ∃ i, findKey c b k = some i := Option.ne_none_iff_exists'.mp fun hn => by
    have := hs.findKey_eq_none.mp hn
    rw [hM] at this
    exact nomatch this
  obtain ⟨w, rest, hperm, hs'⟩ := hs.markFree hi
  have hcnt := h.refcnt_eq
  have hlt := h.refcnt_lt
  rw [hperm.length_eq, length_cons] at hcnt
  have hnil : rest.length = 0 → Lists (update M k none) ([] : List (K × V)) := fun hz =>
    length_eq_zero_iff.mp hz ▸ hs'.lists
  unfold delFromBucket
  rw [hi]
  dsimp only
  split
  · split
    · -- the last pair of a bucket that had grown beyond its own array
      rename_i hback
      simp only [Bool.and_eq_true, beq_iff_eq] at hback
      obtain ⟨⟨hc, hone⟩, -⟩ := hback
      rw [Config.bump, if_pos hc] at hcnt
      rw [hone]
      exact ⟨_, [], rfl, bucketInv_level hc (hnil (by omega)) _⟩
    · refine ⟨_, rest, rfl, (hs'.withRefcnt _).inv ?_ (by dsimp only; omega) fun hc hr => ?_⟩
      · dsimp only
        omega
      · rw [Config.bump, hc, hr] at hcnt
        simp at hcnt
        omega
  · have hc : c.kvpAtBucketLevel = false := Bool.eq_false_iff.mpr fun hc => by
      rw [Config.bump, if_pos hc] at hcnt
      omega
    exact ⟨_, [], rfl, bucketInv_null hc (hnil (by omega)) _⟩

theorem BucketInv.del (h : BucketInv c b M L) : Serves c M kv 0 (addDelBucket c b kv 0 junk) := by
  have happ : applyOp M kv 0 = update M kv.1 none := by simp [applyOp]
  cases hM : M kv.1 with
  | some v =>
    have hs := h.stored_of_mem (by rw [hM]; exact Option.some_ne_none v)
    have hne : ¬ (c.kvpAtBucketLevel = false ∧ b.isEmpty c = true) := fun hh =>
      Bool.false_ne_true ((hs.nonempty hh.1).symm.trans hh.2)
    obtain ⟨b', L', hdel, hinv⟩ := delFromBucket_present h hM
    refine ⟨b', 0, L', ?_, by simp [Answers, hM], happ ▸ hinv⟩
    rw [addDelBucket, if_neg hne, if_pos rfl, hdel]
  | none =>
    have hsame : applyOp M kv 0 = M := by
      rw [happ, ← hM, Function.update_eq_self]
    by_cases hfirst : c.kvpAtBucketLevel = false ∧ b.isEmpty c = true
    · refine ⟨b, -1, L, ?_, by simp [Answers, hM], by rw [hsame]; exact h⟩
      rw [addDelBucket, if_pos hfirst, if_pos rfl]
    have hs : Stored c b M L := h.stored (by
      cases hc : c.kvpAtBucketLevel with
      | true => exact .inl rfl
      | false => exact .inr (by simpa [hc] using hfirst))
    refine ⟨b, -3, L, ?_, by simp [Answers, hM], by rw [hsame]; exact h⟩
    rw [addDelBucket, if_neg hfirst, if_pos rfl, delFromBucket, hs.findKey_eq_none.mpr hM]

/-- **A bucket serves a call** as long as its count has room for a new key. -/
theorem BucketInv.addDelBucket (h : BucketInv c b M L) (junk : Nat → Values K V)
    (hlive : isAdd ≠ 0 → c.isFree kv.2 = false)
    (hroom : isAdd ≠ 0 → M kv.1 = none → b.refcnt + 1 < 2 ^ 16) :
    Serves c M kv isAdd (Bihash.addDelBucket c b kv isAdd junk) := by
  by_cases hadd : isAdd = 0
  · subst hadd
    exact h.del
  · cases hM : M kv.1 with
    | none => exact h.add_absent hM (hlive hadd) hadd (hroom hadd hM)
    | some v => exact h.add_present hM (hlive hadd) hadd

end Vpp.Bihash
