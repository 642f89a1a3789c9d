import Mathlib.Data.BitVec
import Mathlib.Data.Fintype.Pi
import Vpp.Lib.Slots

/-!
# The classifier table

A classifier table finds the session of a packet: the data of the packet after the skip, under the
mask, is the key of a hash table. A bucket points to pages of two entries; a key may be in the two
entries that start at its index, so that the pairs of neighbours overlap, or anywhere once the bucket
is searched linearly. An entry is free by a flag, and memory for entries is filled with `0xff`.

Data, mask and keys are read as `u64` lanes, two for a vector. The hash is any function of the masked
data. Locks of the writer, working copies for concurrent readers and the free lists of the allocator
are left out; memory does not run out.
-/

namespace Vpp.Classify

open Lib
open Function (update)

abbrev U64 := BitVec 64
abbrev U32 := BitVec 32
abbrev U16 := BitVec 16
abbrev U8 := BitVec 8

/-! ## Entries -/

/-- The vector instructions that the code is built for. -/
inductive Simd where
  | vec512
  | vec256
  | vec128
  | scalar

structure Config where
  simd : Simd
  matchNVectors : Nat
  one_le : 1 ≤ matchNVectors
  le_five : matchNVectors ≤ 5
  skipNVectors : Nat
  mask : Nat → U64
  nbuckets : Nat
  hash : (Fin (2 * matchNVectors) → U64) → U32

abbrev Key (c : Config) := Fin (2 * c.matchNVectors) → U64

structure Entry where
  opaqueIndex : U32
  advance : U32
  hits : U64
  lastHeard : U64
  metadata : U32
  nextIndex : U16
  action : U8
  flags : U8
deriving DecidableEq

abbrev Values (c : Config) := Nat → Key c × Entry

def entryFree : U8 := 1#8

def entryIsFree (e : Entry) : Bool := e.flags &&& entryFree != 0

/-- What memory filled with `0xff` holds. -/
def blankEntry : Entry :=
  ⟨BitVec.allOnes 32, BitVec.allOnes 32, BitVec.allOnes 64, BitVec.allOnes 64, BitVec.allOnes 32,
    BitVec.allOnes 16, BitVec.allOnes 8, BitVec.allOnes 8⟩

variable (c : Config)

def blankKey : Key c := fun _ => BitVec.allOnes 64

def entryAlloc : Values c := fun _ => (blankKey c, blankEntry)

def busyCopy (v : Key c × Entry) : Key c × Entry :=
  (v.1, { v.2 with flags := v.2.flags &&& ~~~entryFree })

/-! ## Data and hash -/

/-- The data at `h`, after the skip and under the mask. -/
def masked (h : Nat → U64) : Key c := fun i => h (2 * c.skipNVectors + i) &&& c.mask i

def hashPacket (h : Nat → U64) : U32 := c.hash (masked c h)

def keyMinusSkip (key : Key c) : Nat → U64 := fun i =>
  if h : i - 2 * c.skipNVectors < 2 * c.matchNVectors then key ⟨i - 2 * c.skipNVectors, h⟩ else 0

def maxLog2 (x : Nat) : Nat := if x > 2 ^ x.log2 then x.log2 + 1 else x.log2

def log2Nbuckets : Nat := maxLog2 c.nbuckets

def bucketIndex (hash : U32) : Nat := hash.toNat % 2 ^ log2Nbuckets c

def entriesPerPage : Nat := 2

/-- The first entry to look at for a hash, and how many. -/
def pageRange (linear : Bool) (log2Pages : Nat) (hash : U32) : Nat × Nat :=
  if linear then (0, entriesPerPage * 2 ^ log2Pages)
  else ((hash >>> log2Nbuckets c).toNat % 2 ^ log2Pages, entriesPerPage)

/-! ## Comparison of an entry with data -/

section Equal

variable (data mask key : Nat → U64)

/-- The bits in which a lane of the masked data and of the key differ. -/
def laneDiff (i : Nat) : U64 := (data i &&& mask i) ^^^ key i

def maskLoadZero (p : Nat → U64) (loadMask : U16) (i : Nat) : U64 :=
  if loadMask.getLsbD i then p i else 0

/-- The differences in a wide vector that starts at lane `o`. -/
def wideDiff (o : Nat) (loadMask : U16) (i : Nat) : U64 :=
  (maskLoadZero (fun j => data (o + j)) loadMask i &&& mask (o + i)) ^^^
    maskLoadZero (fun j => key (o + j)) loadMask i

def isAllZero (lanes : Nat) (r : Nat → U64) : Bool := (List.range lanes).all fun i => r i == 0

/-- The cases of the switch fall through from the number of vectors down to the second. -/
def diffFrom (o : Nat) (matchNVectors : Nat) : U64 :=
  ((List.range' 1 4).filter (· < matchNVectors)).foldr (fun v r => r ||| laneDiff data mask key (2 * v + o))
    (laneDiff data mask key o)

def loadMask (matchNVectors : Nat) : U16 := BitVec.ofNat 16 (2 ^ (2 * matchNVectors) - 1)

/-- The last wide vector is only read if there is a lane to load. -/
def orLast (r : U64) (o : Nat) (loadMask : U16) (i : Nat) : U64 :=
  if loadMask ≠ 0 then r ||| wideDiff data mask key o loadMask i else r

def entryIsEqual (simd : Simd) (matchNVectors : Nat) : Bool :=
  let m := loadMask matchNVectors
  match simd with
  | .vec512 => isAllZero 8 fun i => orLast data mask key (wideDiff data mask key 0 m i) 8 (m >>> 8) i
  | .vec256 =>
    isAllZero 4 fun i =>
      let r := wideDiff data mask key 0 m i ||| wideDiff data mask key 4 (m >>> 4) i
      orLast data mask key r 8 (m >>> 4 >>> 4) i
  | .vec128 => isAllZero 2 fun i => diffFrom data mask key i matchNVectors
  | .scalar => diffFrom data mask key 0 matchNVectors ||| diffFrom data mask key 1 matchNVectors == 0

end Equal

/-! ## Buckets -/

structure Bucket where
  values : Values c
  log2Pages : Nat
  linearSearch : Bool

structure Table where
  buckets : Nat → Option (Bucket c)
  activeElements : U32
  linearBuckets : U32

def newTable : Table c := ⟨fun _ => none, 0, 0⟩

variable {c}

def Bucket.range (b : Bucket c) (hash : U32) : Nat × Nat :=
  pageRange c b.linearSearch b.log2Pages hash

def Table.setBucket (t : Table c) (i : Nat) (b : Bucket c) : Table c :=
  { t with buckets := update t.buckets i (some b) }

/-! ## Lookup -/

/-- A hit is counted if there is a time; the sign of a zero does not make it one. -/
def touch (now : U64) (v : Key c × Entry) : Key c × Entry :=
  if now.toNat % 2 ^ 63 ≠ 0 then (v.1, { v.2 with hits := v.2.hits + 1, lastHeard := now }) else v

def lanes (key : Key c) : Nat → U64 := fun i => if h : i < 2 * c.matchNVectors then key ⟨i, h⟩ else 0

/-- `vnet_classify_find_entry_inline`: the table, and the entry that is found. -/
def findEntry (t : Table c) (h : Nat → U64) (hash : U32) (now : U64) :
    Table c × Option (Key c × Entry) :=
  match t.buckets (bucketIndex c hash) with
  | none => (t, none)
  | some b =>
    let r := b.range hash
    let data := fun i => h (2 * c.skipNVectors + i)
    match firstIn (fun i => entryIsEqual data c.mask (lanes (b.values i).1) c.simd c.matchNVectors)
        r.1 r.2 with
    | none => (t, none)
    | some i =>
      let v := touch now (b.values i)
      (t.setBucket (bucketIndex c hash) { b with values := update b.values i v }, some v)

/-! ## Splitting a bucket -/

def rehashEntry (old : Values c) (newLog2Pages : Nat) (new : Values c) (i : Nat) : Option (Values c) :=
  if entryIsFree (old i).2 then some new
  else
    let newHash := hashPacket c (keyMinusSkip c (old i).1)
    let newIndex := (newHash >>> log2Nbuckets c).toNat % 2 ^ newLog2Pages
    match firstIn (fun j => entryIsFree (new j).2) newIndex entriesPerPage with
    | some j => some (update new j (busyCopy c (old i)))
    | none => none

def splitAndRehash (old : Values c) (oldLog2Pages newLog2Pages : Nat) : Option (Values c) :=
  (List.range (2 ^ oldLog2Pages * entriesPerPage)).foldlM (rehashEntry old newLog2Pages) (entryAlloc c)

def rehashEntryLinear (old : Values c) (newLength : Nat) (s : Values c × Nat) (i : Nat) :
    Option (Values c × Nat) :=
  if entryIsFree (old i).2 then some s
  else
    match firstIn (fun j => entryIsFree (s.1 j).2) s.2 (newLength - s.2) with
    | some j => some (update s.1 j (busyCopy c (old i)), j + 1)
    | none => none

def splitAndRehashLinear (old : Values c) (oldLog2Pages newLog2Pages : Nat) : Option (Values c) :=
  ((List.range (2 ^ oldLog2Pages * entriesPerPage)).foldlM
    (rehashEntryLinear old (2 ^ newLog2Pages * entriesPerPage)) (entryAlloc c, 0)).map (·.1)

def addNew (addV : Key c × Entry) (linear : Bool) (newLog2Pages : Nat) (newV : Values c) :
    Option (Bucket c) :=
  let r := pageRange c linear newLog2Pages (hashPacket c (keyMinusSkip c addV.1))
  match firstIn (fun i => entryIsFree (newV i).2) r.1 r.2 with
  | some i => some ⟨update newV i (busyCopy c addV), newLog2Pages, linear⟩
  | none => none

/-- From the label `mark_linear` on, with the number of pages found there. Linear buckets are counted up
unless the bucket was one. -/
def markLinear (b : Bucket c) (addV : Key c × Entry) (linearBuckets : U32) :
    Nat → Option (Bucket c × U32)
  | 0 => none
  | newLog2Pages + 1 =>
    match splitAndRehashLinear b.values b.log2Pages newLog2Pages with
    | none => none
    | some newV =>
      let count := if b.linearSearch then linearBuckets else linearBuckets + 1
      match addNew addV true newLog2Pages newV with
      | some new => some (new, count)
      | none => markLinear b addV count newLog2Pages

/-- From the label `try_resplit` on. -/
def tryResplit (b : Bucket c) (addV : Key c × Entry) (linearBuckets : U32) (markBucketLinear : Bool)
    (newLog2Pages : Nat) : Option (Bucket c × U32) :=
  match (splitAndRehash b.values b.log2Pages (newLog2Pages + 1)).bind
      (addNew addV markBucketLinear (newLog2Pages + 1)) with
  | some new => some (new, linearBuckets)
  | none => markLinear b addV linearBuckets (newLog2Pages + 1)

/-- A larger bucket with the new entry; `none` where the code would not go on. A linear bucket starts at
`linear_resplit`, and would try to split if it had no room even so. -/
def expand (b : Bucket c) (addV : Key c × Entry) (linearBuckets : U32) : Option (Bucket c × U32) :=
  let newLog2Pages := b.log2Pages + 1
  if b.linearSearch then
    match splitAndRehashLinear b.values b.log2Pages newLog2Pages with
    | none => none
    | some newV =>
      match addNew addV true newLog2Pages newV with
      | some new => some (new, linearBuckets)
      | none => tryResplit b addV linearBuckets true newLog2Pages
  else
    match (splitAndRehash b.values b.log2Pages newLog2Pages).bind (addNew addV false newLog2Pages) with
    | some new => some (new, linearBuckets)
    | none => tryResplit b addV linearBuckets false newLog2Pages

/-! ## Resources -/

inductive FibProtocol where
  | ip4
  | ip6
deriving DecidableEq

abbrev Locks := FibProtocol × U32 → Int

def actionSetIp4FibIndex : U8 := 1#8
def actionSetIp6FibIndex : U8 := 2#8
def actionSetMetadata : U8 := 3#8

def Entry.fib? (e : Entry) : Option (FibProtocol × U32) :=
  if e.action = actionSetIp4FibIndex then some (.ip4, e.metadata)
  else if e.action = actionSetIp6FibIndex then some (.ip6, e.metadata)
  else none

def addLock (l : Locks) (e : Entry) (n : Int) : Locks :=
  match e.fib? with
  | some f => update l f (l f + n)
  | none => l

def entryClaimResource (l : Locks) (e : Entry) : Locks := addLock l e 1

def entryReleaseResource (l : Locks) (e : Entry) : Locks := addLock l e (-1)

/-! ## Add and delete -/

variable (c) in
structure State where
  table : Table c
  locks : Locks

def addToBucket (s : State c) (i : Nat) (b : Bucket c) (hash : U32) (addV : Key c × Entry) :
    Option (State c × Int) :=
  let r := b.range hash
  let v := busyCopy c addV
  let locks := entryClaimResource s.locks v.2
  let t := s.table
  -- a key that is there is replaced; only then is there a search for an empty slot
  match firstIn (fun j => decide ((b.values j).1 = addV.1)) r.1 r.2 with
  | some j => some (⟨t.setBucket i { b with values := update b.values j v }, locks⟩, 0)
  | none =>
    match firstIn (fun j => entryIsFree (b.values j).2) r.1 r.2 with
    | some j =>
      let t' := t.setBucket i { b with values := update b.values j v }
      some (⟨{ t' with activeElements := t.activeElements + 1 }, locks⟩, 0)
    | none =>
      match expand b addV t.linearBuckets with
      | none => none
      | some (new, linearBuckets) =>
        let t' := t.setBucket i new
        some (⟨{ t' with activeElements := t.activeElements + 1, linearBuckets }, locks⟩, 0)

def delFromBucket (s : State c) (i : Nat) (b : Bucket c) (hash : U32) (key : Key c) : State c × Int :=
  let r := b.range hash
  match firstIn (fun j => decide ((b.values j).1 = key)) r.1 r.2 with
  | none => (s, -3)
  | some j =>
    let t := s.table.setBucket i { b with values := update b.values j (blankKey c, blankEntry) }
    (⟨{ t with activeElements := t.activeElements - 1 },
      entryReleaseResource s.locks (b.values j).2⟩, 0)

/-- `vnet_classify_add_del`; `none` is a call that does not return. -/
def addDel (s : State c) (addV : Key c × Entry) (isAdd : Bool) : Option (State c × Int) :=
  let hash := hashPacket c (keyMinusSkip c addV.1)
  let i := bucketIndex c hash
  match s.table.buckets i with
  | none =>
    if isAdd then
      let v := busyCopy c addV
      let t := s.table.setBucket i ⟨update (entryAlloc c) 0 v, 0, false⟩
      some (⟨{ t with activeElements := t.activeElements + 1 }, entryClaimResource s.locks v.2⟩, 0)
    else some (s, -1)
  | some b =>
    if isAdd then addToBucket s i b hash addV else some (delFromBucket s i b hash addV.1)

/-- The arguments of `vnet_classify_add_del_session`. -/
structure Session where
  /-- the argument `match` -/
  data : Nat → U64
  hitNextIndex : U16
  opaqueIndex : U32
  advance : U32
  action : U8
  metadata : U32
  isAdd : Bool
  /-- what `fib_table_find_or_create_and_lock` returns for the metadata -/
  fibIndex : U32

def Session.entry (x : Session) : Entry :=
  { opaqueIndex := x.opaqueIndex
    advance := x.advance
    hits := 0
    lastHeard := 0
    metadata :=
      if x.action = actionSetIp4FibIndex ∨ x.action = actionSetIp6FibIndex then x.fibIndex
      else if x.action = actionSetMetadata then x.metadata
      else 0
    nextIndex := x.hitNextIndex
    action := x.action
    flags := 0 }

def apiErrorNoSuchEntry : Int := -6
def apiErrorNoSuchTable : Int := -65

/-- `vnet_classify_add_del_session` on the element of the pool of tables. -/
def addDelSession (elt : Option (State c)) (x : Session) : Option (Option (State c) × Int) :=
  match elt with
  | none => some (none, apiErrorNoSuchTable)
  | some s =>
    let e := x.entry
    -- a FIB table is locked while the session is built, and released at the end
    match addDel ⟨s.table, entryClaimResource s.locks e⟩ (masked c x.data, e) x.isAdd with
    | none => none
    | some (s', rv) =>
      some (some ⟨s'.table, entryReleaseResource s'.locks e⟩,
        if rv ≠ 0 then apiErrorNoSuchEntry else 0)

end Vpp.Classify
