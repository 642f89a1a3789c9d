import Mathlib.Data.BitVec
import Vpp.Lib.Slots

/-!
# The bounded-index hash table

`bihash_template.c` is instantiated for a type of keys and values, a hash function and a page size. A
table has a power of two of buckets. A bucket points to an array of pages of key-value pairs; the page
of a key comes from the bits of its hash after those that choose the bucket, and a bucket whose keys
cannot be told apart by those bits is searched linearly. A pair is free when its value looks free. The
bucket counts its pairs in 16 bits, and the storage goes when the count does.

Locks, working copies for concurrent readers, statistics and the free lists of the allocator are left
out. A page that is allocated holds what was in the memory before (`junk`), with every pair marked free.
The number of pages is not cut to the 8 bits of `log2_pages`: memory ends long before them.
-/

namespace Vpp.Bihash

open Lib
open Function (update)

variable {K V : Type}

structure Config (K V : Type) where
  hash : K → BitVec 64
  isFree : V → Bool
  markFree : V → V
  isFree_markFree : ∀ v, isFree (markFree v) = true
  kvpPerPage : Nat
  kvpPerPage_pos : 0 < kvpPerPage
  log2Nbuckets : Nat
  kvpAtBucketLevel : Bool

abbrev Values (K V : Type) := Nat → K × V

inductive Offset (K V : Type) where
  | null
  /-- the array that follows the bucket -/
  | bucketLevel
  | store (values : Values K V)

structure Bucket (K V : Type) where
  offset : Offset K V
  linearSearch : Bool
  log2Pages : Nat
  refcnt : Nat
  /-- what follows the bucket with `BIHASH_KVP_AT_BUCKET_LEVEL` -/
  kvp : Values K V

abbrev Table (K V : Type) := Option (Nat → Bucket K V)

def extractBits (x : BitVec 64) (start count : Nat) : Nat := x.toNat / 2 ^ start % 2 ^ count

def pageRange (c : Config K V) (linear : Bool) (log2Pages : Nat) (hash : BitVec 64) : Nat × Nat :=
  if linear then (0, c.kvpPerPage * 2 ^ log2Pages)
  else (c.kvpPerPage * extractBits hash c.log2Nbuckets log2Pages, c.kvpPerPage)

/-! ## Buckets -/

namespace Bucket

variable (c : Config K V) (b : Bucket K V)

def isEmpty : Bool :=
  if c.kvpAtBucketLevel then b.log2Pages == 0 && b.refcnt == 1
  else match b.offset with
    | .null => true
    | _ => false

def getValue : Values K V :=
  match b.offset with
  | .store values => values
  | _ => b.kvp

def setValue (i : Nat) (kv : K × V) : Bucket K V :=
  match b.offset with
  | .store values => { b with offset := .store (update values i kv) }
  | _ => { b with kvp := update b.kvp i kv }

def range (hash : BitVec 64) : Nat × Nat := pageRange c b.linearSearch b.log2Pages hash

end Bucket

/-! ## Storage -/

def valueAlloc (c : Config K V) (junk : Values K V) : Values K V :=
  fun i => ((junk i).1, c.markFree (junk i).2)

/-- `clib_bihash_get_bucket`. -/
def bucketIndex (c : Config K V) (hash : BitVec 64) : Nat := hash.toNat % 2 ^ c.log2Nbuckets

def instantiate (c : Config K V) (junk : Nat → Values K V) : Nat → Bucket K V := fun i =>
  if c.kvpAtBucketLevel then
    { offset := .bucketLevel, linearSearch := false, log2Pages := 0, refcnt := 1
      kvp := valueAlloc c (junk i) }
  else { offset := .null, linearSearch := false, log2Pages := 0, refcnt := 0, kvp := junk i }

/-! ## Search -/

section Search

variable [DecidableEq K]

/-- The first pair of the range that has the key, even if it is free. -/
def searchBucket (c : Config K V) (b : Bucket K V) (key : K) : Option V :=
  if b.isEmpty c then none
  else
    let v := b.getValue
    let r := b.range c (c.hash key)
    match firstIn (fun i => decide ((v i).1 = key)) r.1 r.2 with
    | some i => if c.isFree (v i).2 then none else some (v i).2
    | none => none

def search (c : Config K V) (h : Table K V) (key : K) : Option V :=
  match h with
  | none => none
  | some buckets => searchBucket c (buckets (bucketIndex c (c.hash key))) key

end Search

/-- The pairs that `clib_bihash_foreach_key_value_pair` gives to its callback, in order. -/
def foreachKeyValuePair (c : Config K V) (h : Table K V) : List (K × V) :=
  match h with
  | none => []
  | some buckets =>
    (List.range (2 ^ c.log2Nbuckets)).flatMap fun i =>
      let b := buckets i
      if b.isEmpty c then []
      else
        (List.range (2 ^ b.log2Pages)).flatMap fun j =>
          ((List.range c.kvpPerPage).map fun k => b.getValue (c.kvpPerPage * j + k)).filter
            fun kv => !c.isFree kv.2

/-! ## Splitting a bucket -/

/-- One pair of the old array goes to the first free pair of its new page. -/
def rehashPair (c : Config K V) (old : Values K V) (newLog2Pages : Nat) (new : Values K V) (i : Nat) :
    Option (Values K V) :=
  if c.isFree (old i).2 then some new
  else
    let newHash := extractBits (c.hash (old i).1) c.log2Nbuckets newLog2Pages
    match firstIn (fun j => c.isFree (new j).2) (c.kvpPerPage * newHash) c.kvpPerPage with
    | some j => some (update new j (old i))
    | none => none

def splitAndRehash (c : Config K V) (old : Values K V) (oldLog2Pages newLog2Pages : Nat)
    (junk : Values K V) : Option (Values K V) :=
  (List.range (2 ^ oldLog2Pages * c.kvpPerPage)).foldlM (rehashPair c old newLog2Pages)
    (valueAlloc c junk)

/-- One pair of the old array goes to the next free pair from `j` on. -/
def rehashPairLinear (c : Config K V) (old : Values K V) (newLength : Nat) (s : Values K V × Nat)
    (i : Nat) : Option (Values K V × Nat) :=
  if s.2 < newLength ∧ c.isFree (old i).2 = true then some s
  else
    match firstIn (fun j => c.isFree (s.1 j).2) s.2 (newLength - s.2) with
    | some j => some (update s.1 j (old i), j + 1)
    | none => none

def splitAndRehashLinear (c : Config K V) (old : Values K V) (oldLog2Pages newLog2Pages : Nat)
    (junk : Values K V) : Option (Values K V) :=
  ((List.range (2 ^ oldLog2Pages * c.kvpPerPage)).foldlM
    (rehashPairLinear c old (2 ^ newLog2Pages * c.kvpPerPage)) (valueAlloc c junk, 0)).map (·.1)

/-- Add the new pair to the new array, where there is a free pair for it. -/
def addNew (c : Config K V) (addV : K × V) (linear : Bool) (newLog2Pages : Nat) (newV : Values K V) :
    Option (Values K V) :=
  let r := pageRange c linear newLog2Pages (c.hash addV.1)
  match firstIn (fun i => c.isFree (newV i).2) r.1 r.2 with
  | some i => some (update newV i addV)
  | none => none

/-- From the label `mark_linear` on, with the number of pages found there. -/
def markLinear (c : Config K V) (old : Values K V) (oldLog2Pages : Nat) (addV : K × V)
    (junk : Values K V) : Nat → Option (Values K V × Nat)
  | 0 => none
  | newLog2Pages + 1 =>
    match splitAndRehashLinear c old oldLog2Pages newLog2Pages junk with
    | none => none
    | some newV =>
      match addNew c addV true newLog2Pages newV with
      | some v => some (v, newLog2Pages)
      | none => markLinear c old oldLog2Pages addV junk newLog2Pages

structure Expanded (K V : Type) where
  values : Values K V
  log2Pages : Nat
  linear : Bool

/-- A split into twice the pages, then four times, then a linear bucket of twice the pages. -/
def expand (c : Config K V) (old : Values K V) (oldLog2Pages : Nat) (addV : K × V)
    (junk : Nat → Values K V) : Option (Expanded K V) :=
  let attempt := fun newLog2Pages junk =>
    (splitAndRehash c old oldLog2Pages newLog2Pages junk).bind (addNew c addV false newLog2Pages)
  match attempt (oldLog2Pages + 1) (junk 0) with
  | some v => some ⟨v, oldLog2Pages + 1, false⟩
  | none =>
    match attempt (oldLog2Pages + 2) (junk 1) with
    | some v => some ⟨v, oldLog2Pages + 2, false⟩
    | none =>
      (markLinear c old oldLog2Pages addV (junk 2) (oldLog2Pages + 2)).map fun r => ⟨r.1, r.2, true⟩

/-! ## Add and delete -/

section AddDel

variable [DecidableEq K]

def findKey (c : Config K V) (b : Bucket K V) (key : K) : Option Nat :=
  let r := b.range c (c.hash key)
  firstIn (fun i => !c.isFree (b.getValue i).2 && decide ((b.getValue i).1 = key)) r.1 r.2

def firstElt (c : Config K V) (b : Bucket K V) (addV : K × V) (junk : Values K V) : Bucket K V :=
  { offset := .store (update (valueAlloc c junk) 0 addV)
    linearSearch := false, log2Pages := 0, refcnt := 1, kvp := b.kvp }

def addToBucket (c : Config K V) (b : Bucket K V) (addV : K × V) (isAdd : Nat)
    (junk : Nat → Values K V) : Option (Bucket K V × Int) :=
  let r := b.range c (c.hash addV.1)
  match findKey c b addV.1 with
  | some i =>
    if isAdd = 2 then some (b, -2)
    else some (b.setValue i ((b.getValue i).1, addV.2), 0)
  | none =>
    match firstIn (fun i => c.isFree (b.getValue i).2) r.1 r.2 with
    | some i => some ({ b.setValue i addV with refcnt := (b.refcnt + 1) % 2 ^ 16 }, 0)
    | none =>
      match expand c b.getValue b.log2Pages addV junk with
      | none => none
      | some new =>
        -- there is more than one page now, so the count is written in either configuration
        some ({ offset := .store new.values, linearSearch := new.linear, log2Pages := new.log2Pages
                refcnt := (b.refcnt + 1) % 2 ^ 16, kvp := b.kvp }, 0)

def delFromBucket (c : Config K V) (b : Bucket K V) (key : K) : Bucket K V × Int :=
  match findKey c b key with
  | none => (b, -3)
  | some i =>
    let b' := b.setValue i ((b.getValue i).1, c.markFree (b.getValue i).2)
    if b.refcnt > 1 then
      if c.kvpAtBucketLevel && b.refcnt - 1 == 1 && decide (b.log2Pages > 0) then
        ({ offset := .bucketLevel, linearSearch := false, log2Pages := 0, refcnt := b.refcnt - 1
           kvp := valueAlloc c b'.kvp }, 0)
      else ({ b' with refcnt := b.refcnt - 1 }, 0)
    else
      ({ offset := .null, linearSearch := false, log2Pages := 0, refcnt := 0, kvp := b'.kvp }, 0)

/-- `clib_bihash_add_del` on the bucket of the key. -/
def addDelBucket (c : Config K V) (b : Bucket K V) (addV : K × V) (isAdd : Nat)
    (junk : Nat → Values K V) : Option (Bucket K V × Int) :=
  if c.kvpAtBucketLevel = false ∧ b.isEmpty c = true then
    if isAdd = 0 then some (b, -1) else some (firstElt c b addV (junk 0), 0)
  else if isAdd = 0 then some (delFromBucket c b addV.1)
  else addToBucket c b addV isAdd junk

/-- `clib_bihash_add_del`; `none` is a call that does not return. The buckets are `fresh` memory if the call
instantiates them. -/
def addDel (c : Config K V) (h : Table K V) (addV : K × V) (isAdd : Nat)
    (fresh junk : Nat → Values K V) : Option (Table K V × Int) :=
  if h.isNone ∧ isAdd = 0 then some (h, -1)
  else
    let buckets := h.getD (instantiate c fresh)
    let i := bucketIndex c (c.hash addV.1)
    match addDelBucket c (buckets i) addV isAdd junk with
    | none => none
    | some (b, rv) => some (some (update buckets i b), rv)

end AddDel

end Vpp.Bihash
