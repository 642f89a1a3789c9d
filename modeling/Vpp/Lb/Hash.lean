import Mathlib.Data.Fintype.Pi
import Mathlib.Data.Fintype.Prod
import Mathlib.Tactic.FinCases

/-!
# The sticky flow table of the load balancer

`lb_hash_get` is compiled in one of two variants: with SSE it compares the four entries of a bucket at
once, otherwise it loops over them. The stored timeouts are 32-bit clock values.
-/

namespace Vpp.Lb

open Function (update update_self update_of_ne)

abbrev U32 := BitVec 32

/-- One value for each of the `LBHASH_ENTRY_PER_BUCKET` entries. -/
abbrev Row := Fin 4 → U32

structure Bucket where
  hash : Row
  timeout : Row
  vip : Row
  value : Row
deriving DecidableEq

structure LbHash where
  bucketsMask : U32
  timeout : U32
  buckets : U32 → Bucket

/-- What `lb_hash_get` leaves: the bucket, `available_index` (`none` for `~0`) and `found_value`. -/
structure Got where
  bucket : Bucket
  availableIndex : Option (Fin 4)
  foundValue : U32
deriving DecidableEq

/-- `bucket->timeout[i] = t` -/
def Bucket.setTimeout (b : Bucket) (i : Fin 4) (t : U32) : Bucket :=
  { b with timeout := update b.timeout i t }

/-! ## With SSE -/

def mmSet1Epi32 (x : U32) : Row := fun _ => x

def mmCmpgtEpi32 (x y : Row) : Row := fun i => if (y i).slt (x i) then BitVec.allOnes 32 else 0

def mmCmpeqEpi32 (x y : Row) : Row := fun i => if x i = y i then BitVec.allOnes 32 else 0

def mmAndSi128 (x y : Row) : Row := fun i => x i &&& y i

def mmMovemaskEpi8 (x : Row) : U32 :=
  BitVec.ofNat 32 ((List.range 16).foldr
    (fun k m => 2 * m + ((x (Fin.ofNat 4 (k / 4))).getLsbD (8 * (k % 4) + 7)).toNat) 0)

/-- `__builtin_ctz` -/
def builtinCtz (x : U32) : Nat := ((List.range 32).find? x.getLsbD).getD 32

def lbHashGetSse (timeout : U32) (bucket : Bucket) (hash vip timeNow : U32) : Got :=
  let mask := mmCmpgtEpi32 bucket.timeout (mmSet1Epi32 timeNow)
  let bitmask := ~~~ mmMovemaskEpi8 mask &&& 0xffff
  let availableIndex := if bitmask ≠ 0 then some (Fin.ofNat 4 (builtinCtz bitmask / 4)) else none
  let mask := mmAndSi128 mask (mmCmpeqEpi32 bucket.hash (mmSet1Epi32 hash))
  let mask := mmAndSi128 mask (mmCmpeqEpi32 bucket.vip (mmSet1Epi32 vip))
  let bitmask := mmMovemaskEpi8 mask
  let foundIndex := if bitmask ≠ 0 then Fin.ofNat 4 (builtinCtz bitmask / 4) else 0
  let foundValue := if bitmask ≠ 0 then bucket.value foundIndex else 0
  ⟨bucket.setTimeout foundIndex (if bitmask ≠ 0 then timeNow + timeout else bucket.timeout foundIndex),
    availableIndex, foundValue⟩

/-! ## Without SSE -/

def clibU32LoopGt (a b : U32) : Bool := a - b < 0x7fffffff

/-- The loop over the entries `is` that are left. -/
def lbHashGetLoop (timeout hash vip timeNow : U32) : List (Fin 4) → Got → Got
  | [], g => g
  | i :: is, g =>
    let cmp := g.bucket.hash i == hash && g.bucket.vip i == vip
    let timeouted := clibU32LoopGt timeNow (g.bucket.timeout i)
    let g := Got.mk
      (g.bucket.setTimeout i
        (if cmp || timeouted then timeNow + timeout else g.bucket.timeout i))
      (if timeouted && g.availableIndex == none then some i else g.availableIndex)
      (if cmp || timeouted then g.foundValue else g.bucket.value i)
    if !cmp then g else lbHashGetLoop timeout hash vip timeNow is g

def lbHashGetScalar (timeout : U32) (bucket : Bucket) (hash vip timeNow : U32) : Got :=
  lbHashGetLoop timeout hash vip timeNow [0, 1, 2, 3] ⟨bucket, none, 0⟩

/-! ## The table -/

/-- How the file is compiled. -/
inductive Variant
  | sse
  | scalar
deriving DecidableEq, Repr

def Variant.get : Variant → U32 → Bucket → U32 → U32 → U32 → Got
  | .sse => lbHashGetSse
  | .scalar => lbHashGetScalar

def LbHash.bucket (ht : LbHash) (hash : U32) : Bucket := ht.buckets (hash &&& ht.bucketsMask)

def LbHash.setBucket (ht : LbHash) (hash : U32) (b : Bucket) : LbHash :=
  { ht with buckets := update ht.buckets (hash &&& ht.bucketsMask) b }

/-- The table, `available_index` and `found_value`. -/
def lbHashGet (v : Variant) (ht : LbHash) (hash vip timeNow : U32) : LbHash × Option (Fin 4) × U32 :=
  let g := v.get ht.timeout (ht.bucket hash) hash vip timeNow
  (ht.setBucket hash g.bucket, g.availableIndex, g.foundValue)

/-- The four stores of `lb_hash_put`. -/
def Bucket.put (b : Bucket) (i : Fin 4) (hash value vip timeout : U32) : Bucket where
  hash := update b.hash i hash
  value := update b.value i value
  timeout := update b.timeout i timeout
  vip := update b.vip i vip

def lbHashPut (ht : LbHash) (hash value vip : U32) (availableIndex : Fin 4) (timeNow : U32) : LbHash :=
  ht.setBucket hash
    ((ht.bucket hash).put availableIndex hash value vip (timeNow + ht.timeout))

/-! ## What a lookup should do -/

/-- Entry `i` is for the flow. -/
def Bucket.Matches (b : Bucket) (hash vip : U32) (i : Fin 4) : Prop := b.hash i = hash ∧ b.vip i = vip

instance (b : Bucket) (hash vip : U32) : DecidablePred (b.Matches hash vip) :=
  fun _ => inferInstanceAs (Decidable (_ ∧ _))

/-- A timeout has passed: it is not ahead of now, going less than half round the clock. -/
def Passed (now timeout : U32) : Prop := (now - timeout).toNat < 2 ^ 31

instance (now timeout : U32) : Decidable (Passed now timeout) := inferInstanceAs (Decidable (_ < _))

/-- What is asked of `lb_hash_get`. -/
structure Right (timeout : U32) (b : Bucket) (hash vip now : U32) (g : Got) : Prop where
  /-- the value of one entry of the flow, which is refreshed, or 0 if there is none -/
  found : (∃ i, b.Matches hash vip i ∧ ¬ Passed now (b.timeout i) ∧ g.foundValue = b.value i ∧
      g.bucket = b.setTimeout i (now + timeout)) ∨
    (∀ i, b.Matches hash vip i → Passed now (b.timeout i)) ∧ g.foundValue = 0 ∧ g.bucket = b
  /-- an entry that may be used, or `~0` if there is none -/
  available : (∃ i, g.availableIndex = some i ∧ Passed now (b.timeout i)) ∨
    g.availableIndex = none ∧ ∀ i, ¬ Passed now (b.timeout i)

/-- What is asked of `lb_hash_get`, of the table as a whole. -/
structure RightTable (ht : LbHash) (hash vip now : U32) (r : LbHash × Option (Fin 4) × U32) : Prop where
  found : (∃ i, (ht.bucket hash).Matches hash vip i ∧ ¬ Passed now ((ht.bucket hash).timeout i) ∧
      r.2.2 = (ht.bucket hash).value i ∧
      r.1 = ht.setBucket hash ((ht.bucket hash).setTimeout i (now + ht.timeout))) ∨
    (∀ i, (ht.bucket hash).Matches hash vip i → Passed now ((ht.bucket hash).timeout i)) ∧
      r.2.2 = 0 ∧ r.1 = ht
  available : (∃ i, r.2.1 = some i ∧ Passed now ((ht.bucket hash).timeout i)) ∨
    r.2.1 = none ∧ ∀ i, ¬ Passed now ((ht.bucket hash).timeout i)

/-- The timeout is ahead of now as a signed number, which is how the SSE variant compares them. -/
def SignedAhead (now timeout : U32) : Prop := now.toInt < timeout.toInt

instance (now timeout : U32) : Decidable (SignedAhead now timeout) :=
  inferInstanceAs (Decidable (_ < _))

/-- The difference of now and the timeout does not overflow a signed word: the clock does not go through
`2 ^ 31` between them. -/
def Ordered (now timeout : U32) : Prop :=
  -2 ^ 31 ≤ now.toInt - timeout.toInt ∧ now.toInt - timeout.toInt < 2 ^ 31

instance (now timeout : U32) : Decidable (Ordered now timeout) := inferInstanceAs (Decidable (_ ∧ _))

theorem ordered_iff {now timeout : U32} :
    Ordered now timeout ↔ (SignedAhead now timeout ↔ ¬ Passed now timeout) := by
  simp only [Ordered, SignedAhead, Passed, BitVec.toNat_sub, BitVec.toInt_eq_toNat_cond]
  omega

/-! ## The SSE variant -/

/-- All ones in the entries for which `p` holds. -/
def mask (p : Fin 4 → Bool) : Row := fun i => if p i then BitVec.allOnes 32 else 0

theorem mmCmpgtEpi32_eq (x : Row) (now : U32) :
    mmCmpgtEpi32 x (mmSet1Epi32 now) = mask fun i => decide (SignedAhead now (x i)) := by
  congr 1

theorem mmAnd_mask (p : Fin 4 → Bool) (x : Row) (y : U32) :
    mmAndSi128 (mask p) (mmCmpeqEpi32 x (mmSet1Epi32 y)) = mask fun i => p i && x i == y := by
  funext i
  simp only [mmAndSi128, mask, mmCmpeqEpi32, mmSet1Epi32]
  by_cases hx : x i = y <;> by_cases hp : p i = true <;> simp [hx, hp]

theorem first_of_mask (p : Fin 4 → Bool) :
    (if mmMovemaskEpi8 (mask p) ≠ 0 then
      some (Fin.ofNat 4 (builtinCtz (mmMovemaskEpi8 (mask p)) / 4)) else none) =
      (List.finRange 4).find? p := by
  revert p
  decide +kernel

theorem first_of_not_mask (p : Fin 4 → Bool) :
    (if ~~~ mmMovemaskEpi8 (mask p) &&& 0xffff ≠ 0 then
      some (Fin.ofNat 4 (builtinCtz (~~~ mmMovemaskEpi8 (mask p) &&& 0xffff) / 4)) else none) =
      (List.finRange 4).find? fun i => !p i := by
  revert p
  decide +kernel

variable {p : Fin 4 → Bool} {i : Fin 4} {ht : LbHash} {timeout hash vip now : U32} {b : Bucket}

@[simp] theorem Bucket.setTimeout_self (b : Bucket) (i : Fin 4) : b.setTimeout i (b.timeout i) = b := by
  unfold setTimeout
  rw [Function.update_eq_self]

theorem lbHashGetSse_eq :
    lbHashGetSse timeout b hash vip now =
      match (List.finRange 4).find? fun i => decide (SignedAhead now (b.timeout i)) && b.hash i == hash &&
        b.vip i == vip with
      | some i => ⟨b.setTimeout i (now + timeout),
        (List.finRange 4).find? fun i => !decide (SignedAhead now (b.timeout i)), b.value i⟩
      | none => ⟨b, (List.finRange 4).find? fun i => !decide (SignedAhead now (b.timeout i)), 0⟩ := by
  unfold lbHashGetSse
  simp only [mmCmpgtEpi32_eq, mmAnd_mask]
  rw [first_of_not_mask]
  have hfirst := first_of_mask fun i =>
    decide (SignedAhead now (b.timeout i)) && b.hash i == hash && b.vip i == vip
  split at hfirst
  · rename_i hne
    rw [← hfirst]
    simp only [if_pos hne]
  · rename_i hne
    rw [← hfirst]
    simp only [if_neg hne, Bucket.setTimeout_self]

theorem not_passed_refreshed (now : U32) (h0 : 0 < timeout.toNat) (h1 : timeout.toNat < 2 ^ 31) :
    ¬ Passed now (now + timeout) := by
  unfold Passed
  rw [BitVec.toNat_sub, BitVec.toNat_add]
  omega

/-- **With SSE**, a lookup is right where the timeouts of the bucket are in order. -/
theorem sse_right (h : ∀ i, Ordered now (b.timeout i)) :
    Right timeout b hash vip now (lbHashGetSse timeout b hash vip now) := by
  have hahead : ∀ i, SignedAhead now (b.timeout i) ↔ ¬ Passed now (b.timeout i) :=
    fun i => ordered_iff.mp (h i)
  rw [lbHashGetSse_eq]
  constructor
  · split
    · rename_i i hfind
      have hi := List.find?_some hfind
      simp only [Bool.and_eq_true, decide_eq_true_eq, beq_iff_eq] at hi
      exact .inl ⟨i, ⟨hi.1.2, hi.2⟩, (hahead i).mp hi.1.1, rfl, rfl⟩
    · rename_i hfind
      refine .inr ⟨fun i hm => ?_, rfl, rfl⟩
      have hi := List.find?_eq_none.mp hfind i (List.mem_finRange i)
      simpa [hm.1, hm.2, hahead i] using hi
  · have havailable : ∀ o, o = ((List.finRange 4).find? fun i => !decide (SignedAhead now (b.timeout i))) →
        (∃ i, o = some i ∧ Passed now (b.timeout i)) ∨ o = none ∧ ∀ i, ¬ Passed now (b.timeout i) := by
      rintro (- | i) ho
      · refine .inr ⟨rfl, fun i => (hahead i).mp ?_⟩
        have hi := List.find?_eq_none.mp ho.symm i (List.mem_finRange i)
        simpa using hi
      · have hi := List.find?_some ho.symm
        exact .inl ⟨i, rfl, by simpa [hahead i] using hi⟩
    split <;> exact havailable _ rfl

/-! ## Where a lookup is wrong -/

/-- Entry `i` alone is for the flow `(1, 0)`. -/
def alone (i : Fin 4) (times : Row) : Bucket :=
  ⟨fun j => if j = i then 1 else 0, times, fun _ => 0, fun _ => 5⟩

theorem alone_matches {times : Row} {j : Fin 4} : (alone i times).Matches 1 0 j ↔ j = i := by
  simp [alone, Bucket.Matches]

theorem ordered_of_sse_right {times : Row} (h0 : 0 < timeout.toNat) (h1 : timeout.toNat < 2 ^ 31)
    (h : Right timeout (alone i times) 1 0 now (lbHashGetSse timeout (alone i times) 1 0 now)) :
    Ordered now (times i) := by
  have hfound := h.found
  rw [ordered_iff]
  rw [lbHashGetSse_eq] at hfound
  split at hfound
  · rename_i j hfind
    have hj := List.find?_some hfind
    simp only [Bool.and_eq_true, decide_eq_true_eq, beq_iff_eq] at hj
    obtain rfl := alone_matches.mp ⟨hj.1.2, hj.2⟩
    refine iff_of_true hj.1.1 ?_
    rcases hfound with ⟨k, hm, hp, -, -⟩ | ⟨-, -, hb⟩
    · rwa [alone_matches.mp hm] at hp
    · have htime : now + timeout = times j := by
        simpa [Bucket.setTimeout, alone] using congrFun (congrArg Bucket.timeout hb) j
      rw [← htime]
      exact not_passed_refreshed now h0 h1
  · rename_i hfind
    have hi := List.find?_eq_none.mp hfind i (List.mem_finRange i)
    refine iff_of_false (by simpa [alone] using hi) (not_not_intro ?_)
    rcases hfound with ⟨k, -, -, hv, -⟩ | ⟨hall, -, -⟩
    · exact absurd hv (show ¬ (0 : U32) = 5 by decide)
    · exact hall i (alone_matches.mpr rfl)

/-- **Without SSE**, whatever the times are: the first entry is another flow's, and either its value is taken
or it is refreshed. -/
theorem not_scalar_right (times : Row) (h0 : 0 < timeout.toNat) (h1 : timeout.toNat < 2 ^ 31) :
    ¬ Right timeout (alone 0 times) 2 0 now (lbHashGetScalar timeout (alone 0 times) 2 0 now) := by
  intro h
  have hnone : ∀ i, ¬ (alone 0 times).Matches 2 0 i := by
    intro i hm
    have := hm.1
    simp only [alone] at this
    split at this <;> exact absurd this (by decide)
  have hget : lbHashGetScalar timeout (alone 0 times) 2 0 now =
      if clibU32LoopGt now (times 0) then ⟨(alone 0 times).setTimeout 0 (now + timeout), some 0, 0⟩
      else ⟨alone 0 times, none, 5⟩ := by
    cases hgt : clibU32LoopGt now (times 0) <;>
      simp [lbHashGetScalar, lbHashGetLoop, Bucket.setTimeout, alone, hgt]
  rcases h.found with ⟨i, hm, -⟩ | ⟨-, hv, hb⟩
  · exact hnone i hm
  rw [hget] at hv hb
  split at hb
  · rename_i hgt
    have htime : now + timeout = times 0 := by
      simpa [Bucket.setTimeout, alone] using congrFun (congrArg Bucket.timeout hb) 0
    exact not_passed_refreshed now h0 h1 (htime ▸ (of_decide_eq_true hgt).trans (by decide))
  · rename_i hgt
    rw [if_neg hgt] at hv
    exact absurd hv (show ¬ (5 : U32) = 0 by decide)

theorem LbHash.setBucket_inj {b' : Bucket} : ht.setBucket hash b = ht.setBucket hash b' ↔ b = b' := by
  refine ⟨fun h => ?_, fun h => by rw [h]⟩
  have := congrFun (congrArg LbHash.buckets h) (hash &&& ht.bucketsMask)
  simpa only [setBucket, update_self] using this

theorem LbHash.setBucket_bucket (ht : LbHash) (hash : U32) :
    ht.setBucket hash (ht.bucket hash) = ht := by
  unfold setBucket bucket
  rw [Function.update_eq_self]

theorem rightTable_iff (v : Variant) :
    RightTable ht hash vip now (lbHashGet v ht hash vip now) ↔
      Right ht.timeout (ht.bucket hash) hash vip now
        (v.get ht.timeout (ht.bucket hash) hash vip now) := by
  have hself : ∀ b, ht.setBucket hash b = ht ↔ b = ht.bucket hash := fun b => by
    rw [← LbHash.setBucket_inj, LbHash.setBucket_bucket]
  simp only [lbHashGet]
  constructor
  · rintro ⟨hfound, havail⟩
    simp only [LbHash.setBucket_inj, hself] at hfound
    exact ⟨hfound, havail⟩
  · rintro ⟨hfound, havail⟩
    refine ⟨?_, havail⟩
    simpa only [LbHash.setBucket_inj, hself] using hfound

/-- Whatever flows and values a bucket with these timeouts holds, lookups in it are right: just with SSE, and
if the timeouts are in order. -/
theorem rightTable_of_times_iff (v : Variant) (times : Row) (h0 : 0 < timeout.toNat)
    (h1 : timeout.toNat < 2 ^ 31) :
    (∀ (ht : LbHash) (hash vip : U32), ht.timeout = timeout → (ht.bucket hash).timeout = times →
        RightTable ht hash vip now (lbHashGet v ht hash vip now)) ↔
      v = .sse ∧ ∀ i, Ordered now (times i) := by
  constructor
  · intro h
    have halone : ∀ i hash, Right timeout (alone i times) hash 0 now
        (v.get timeout (alone i times) hash 0 now) :=
      fun i hash => (rightTable_iff v).mp (h ⟨0, timeout, fun _ => alone i times⟩ hash 0 rfl rfl)
    cases v with
    | sse => exact ⟨rfl, fun i => ordered_of_sse_right h0 h1 (halone i 1)⟩
    | scalar => exact absurd (halone 0 2) (not_scalar_right times h0 h1)
  · rintro ⟨rfl, h⟩ ht hash vip - rfl
    exact (rightTable_iff .sse).mpr (sse_right h)

end Vpp.Lb
