import Vpp.Bihash.Map
import Vpp.Lib.ByteOrder
import Vpp.Lib.Prefix

/-!
# The IPv6 FIB

All tables share one bihash, keyed by the masked address, the index of the table and the length of the
prefix. A count for each length, a bitmap of the lengths in use and the list of lengths in search order
stand next to it. There are two such instances, for the entries and for forwarding. The bihash is the
finite map it implements, and addresses are as a little endian processor loads them.
-/

namespace Vpp.Fib

open Lib BitVec Nat
open List hiding after
open Function (update update_self update_of_ne)

structure Ip6Address where
  asU64 : BitVec 64 × BitVec 64
deriving DecidableEq, Repr

/-- `key[0 .. 2]` of the bihash. -/
abbrev Key := BitVec 64 × BitVec 64 × BitVec 64

def fibNodeIndexInvalid : BitVec 32 := ~~~0#32

/-- `ip6_fib_table_instance_t`. The counts are `i32`; the bihash is full long before one wraps to zero. -/
structure TableInstance where
  ip6Hash : Key → Option (BitVec 32)
  nonEmptyDstAddressLengthBitmap : Nat → Bool
  prefixLengthsInSearchOrder : List Nat
  dstAddressLengthRefcounts : Nat → Nat

def TableInstance.empty : TableInstance where
  ip6Hash := fun _ => none
  nonEmptyDstAddressLengthBitmap := fun _ => false
  prefixLengthsInSearchOrder := []
  dstAddressLengthRefcounts := fun _ => 0

/-- `ip6_fib_table` -/
structure Tables where
  fwding : TableInstance
  nonFwding : TableInstance

/-! ## Masks and keys -/

/-- `fib_masks[len].as_u32[j]` -/
def fibMaskWord (len j : Nat) : BitVec 32 :=
  if j < len / 32 then BitVec.allOnes 32
  else if j = len / 32 ∧ len % 32 ≠ 0 then
    swapBytes (BitVec.ofNat 32 ((2 ^ (len % 32) - 1) * 2 ^ (32 - len % 32)))
  else 0

/-- `fib_masks[len].as_u64` -/
def fibMasks (len : Nat) : BitVec 64 × BitVec 64 :=
  (fibMaskWord len 1 ++ fibMaskWord len 0, fibMaskWord len 3 ++ fibMaskWord len 2)

/-- `x[0] & mask[0], x[1] & mask[1]` -/
def maskBy (x : BitVec 64 × BitVec 64) (len : Nat) : BitVec 64 × BitVec 64 :=
  (x.1 &&& (fibMasks len).1, x.2 &&& (fibMasks len).2)

/-- `fib | len` -/
def fibAndLen (fibIndex : BitVec 32) (len : Nat) : BitVec 64 :=
  fibIndex.setWidth 64 <<< 32 ||| BitVec.ofNat 64 len

def mkKey (x : BitVec 64 × BitVec 64) (fibIndex : BitVec 32) (len : Nat) : Key :=
  (x.1, x.2, fibAndLen fibIndex len)

def keyOf (fibIndex : BitVec 32) (addr : Ip6Address) (len : Nat) : Key :=
  mkKey (maskBy addr.asU64 len) fibIndex len

namespace TableInstance

variable (table : TableInstance)

/-! ## Changes -/

/-- The bitmap is in reverse: bit `i` stands for the length `128 - i`. -/
def computePrefixLengthsInSearchOrder : TableInstance :=
  { table with
    prefixLengthsInSearchOrder :=
      ((List.range 129).filter table.nonEmptyDstAddressLengthBitmap).map (128 - ·) }

/-- What `ip6_fib_table_entry_insert` and `ip6_fib_table_fwding_dpo_update` do to their instances. -/
def insert (fibIndex : BitVec 32) (addr : Ip6Address) (len : Nat) (value : BitVec 32) : TableInstance :=
  let first := table.dstAddressLengthRefcounts len = 0
  let table := { table with
    ip6Hash := Bihash.applyOp table.ip6Hash (keyOf fibIndex addr len, value) 1
    dstAddressLengthRefcounts := update table.dstAddressLengthRefcounts len
      (table.dstAddressLengthRefcounts len + 1) }
  if first then
    { table with
      nonEmptyDstAddressLengthBitmap :=
        update table.nonEmptyDstAddressLengthBitmap (128 - len) true
      }.computePrefixLengthsInSearchOrder
  else table

/-- What `ip6_fib_table_entry_remove` and `ip6_fib_table_fwding_dpo_remove` do. -/
def remove (fibIndex : BitVec 32) (addr : Ip6Address) (len : Nat) : TableInstance :=
  let refcount := table.dstAddressLengthRefcounts len - 1
  let table := { table with
    ip6Hash := Bihash.applyOp table.ip6Hash (keyOf fibIndex addr len, 0) 0
    dstAddressLengthRefcounts := update table.dstAddressLengthRefcounts len refcount }
  if refcount = 0 then
    { table with
      nonEmptyDstAddressLengthBitmap :=
        update table.nonEmptyDstAddressLengthBitmap (128 - len) false
      }.computePrefixLengthsInSearchOrder
  else table

/-! ## Lookups -/

/-- The search through the lengths; the key is masked further at each. -/
def search (fibIndex : BitVec 32) : BitVec 64 × BitVec 64 → List Nat → Option (BitVec 32)
  | _, [] => none
  | key, len :: lens =>
    let key := maskBy key len
    match table.ip6Hash (mkKey key fibIndex len) with
    | some value => some value
    | none => search fibIndex key lens

end TableInstance

namespace Tables

variable (tables : Tables)

def ip6FibTableLookup (fibIndex : BitVec 32) (addr : Ip6Address) (len : Nat) : BitVec 32 :=
  let table := tables.nonFwding
  (table.search fibIndex addr.asU64 (table.prefixLengthsInSearchOrder.dropWhile (· > len))).getD
    fibNodeIndexInvalid

def ip6FibTableLookupExactMatch (fibIndex : BitVec 32) (addr : Ip6Address) (len : Nat) : BitVec 32 :=
  (tables.nonFwding.ip6Hash (keyOf fibIndex addr len)).getD fibNodeIndexInvalid

/-- The code takes it that there is always a default route, and returns 0 if not. -/
def ip6FibTableFwdingLookup (fibIndex : BitVec 32) (dst : Ip6Address) : BitVec 32 :=
  let table := tables.fwding
  (table.search fibIndex dst.asU64 table.prefixLengthsInSearchOrder).getD 0

def ip6FibTableEntryInsert (fibIndex : BitVec 32) (addr : Ip6Address) (len : Nat)
    (fibEntryIndex : BitVec 32) : Tables :=
  { tables with nonFwding := tables.nonFwding.insert fibIndex addr len fibEntryIndex }

def ip6FibTableEntryRemove (fibIndex : BitVec 32) (addr : Ip6Address) (len : Nat) : Tables :=
  { tables with nonFwding := tables.nonFwding.remove fibIndex addr len }

def ip6FibTableFwdingDpoUpdate (fibIndex : BitVec 32) (addr : Ip6Address) (len : Nat)
    (dpoiIndex : BitVec 32) : Tables :=
  { tables with fwding := tables.fwding.insert fibIndex addr len dpoiIndex }

def ip6FibTableFwdingDpoRemove (fibIndex : BitVec 32) (addr : Ip6Address) (len : Nat) : Tables :=
  { tables with fwding := tables.fwding.remove fibIndex addr len }

end Tables

/-! ## What a table is for -/

abbrev Routes := BitVec 32 → Prefix → Option (BitVec 32)

def host (x : BitVec 64 × BitVec 64) : Nat := (swapBytes x.1).toNat * 2 ^ 64 + (swapBytes x.2).toNat

def prefixOf (addr : Ip6Address) (len : Nat) : Prefix := ⟨len, host addr.asU64 / 2 ^ (128 - len)⟩

def upTo (R : Prefix → Option (BitVec 32)) (len : Nat) : Prefix → Option (BitVec 32) :=
  fun p => if p.len ≤ len then R p else none

/-- `r` is the value of the longest present prefix that covers the address, `missing` if none does. -/
def Finds (R : Prefix → Option (BitVec 32)) (addr : Ip6Address) (missing r : BitVec 32) : Prop :=
  (∃ p, Longest R (prefixOf addr 128) p r) ∨ (∀ p, p.Covers (prefixOf addr 128) → R p = none) ∧ r = missing

/-! ## Masks and prefixes -/

theorem swapBytes_append (x y : BitVec 32) :
    swapBytes (x ++ y : BitVec 64) = (swapBytes y ++ swapBytes x : BitVec 64) := by
  apply eq_of_getLsbD_eq
  intro i hi
  rw [getLsbD_swapBytes _ hi, getLsbD_append, getLsbD_append]
  by_cases h : i < 32
  · rw [if_neg (by omega), if_pos h, getLsbD_swapBytes _ h]
    congr 1
    omega
  · rw [if_pos (by omega), if_neg h, getLsbD_swapBytes _ (by omega)]
    congr 1
    omega

theorem highMask_append (len : Nat) :
    (highMask 32 (32 - len) ++ highMask 32 (32 - (len - 32)) : BitVec 64) = highMask 64 (64 - len) := by
  apply eq_of_getLsbD_eq
  intro i hi
  rw [getLsbD_append, getLsbD_highMask hi]
  by_cases h : i < 32
  · rw [if_pos h, getLsbD_highMask h]
    exact decide_eq_decide.mpr (by omega)
  · rw [if_neg h, getLsbD_highMask (by omega)]
    exact decide_eq_decide.mpr (by omega)

theorem swapBytes_fibMaskWord (len j : Nat) :
    swapBytes (fibMaskWord len j) = highMask 32 (32 - (len - 32 * j)) := by
  have hwithin : ∀ i < 32, BitVec.ofNat 32 ((2 ^ i - 1) * 2 ^ (32 - i)) = highMask 32 (32 - i) := by
    decide +kernel
  unfold fibMaskWord
  split
  · rw [show 32 - (len - 32 * j) = 0 by omega]
    decide +kernel
  split
  · rw [swapBytes_swapBytes ⟨4, rfl⟩, hwithin _ (mod_lt _ (by decide))]
    congr 1
    omega
  · rw [show 32 - (len - 32 * j) = 32 by omega]
    decide +kernel

theorem swapBytes_fibMasks (len : Nat) :
    swapBytes (fibMasks len).1 = highMask 64 (64 - len) ∧
      swapBytes (fibMasks len).2 = highMask 64 (64 - (len - 64)) := by
  unfold fibMasks
  rw [swapBytes_append, swapBytes_append, swapBytes_fibMaskWord, swapBytes_fibMaskWord,
    swapBytes_fibMaskWord, swapBytes_fibMaskWord, ← highMask_append, ← highMask_append]
  exact ⟨rfl, by rw [Nat.sub_sub]⟩

theorem highMask_and_highMask {w k k' : Nat} (h : k ≤ k') :
    highMask w k &&& highMask w k' = highMask w k' := by
  apply eq_of_getLsbD_eq
  intro i hi
  rw [getLsbD_and, getLsbD_highMask hi, getLsbD_highMask hi]
  by_cases hk : k' ≤ i
  · simp [le_trans h hk]
  · simp [hk]

variable {l l' len : Nat} {f f' : BitVec 32} {R : Prefix → Option (BitVec 32)}

theorem maskBy_maskBy (x : BitVec 64 × BitVec 64) (h : l' ≤ l) :
    maskBy (maskBy x l) l' = maskBy x l' := by
  have hand {m m' : BitVec 64} {k k' : Nat} (hm : swapBytes m = highMask 64 k)
      (hm' : swapBytes m' = highMask 64 k') (hk : k ≤ k') : m &&& m' = m' := by
    rw [← swapBytes_inj ⟨8, rfl⟩, swapBytes_and, hm, hm', highMask_and_highMask hk]
  obtain ⟨h1, h2⟩ := swapBytes_fibMasks l
  obtain ⟨h1', h2'⟩ := swapBytes_fibMasks l'
  unfold maskBy
  rw [BitVec.and_assoc, BitVec.and_assoc, hand h1 h1' (by omega), hand h2 h2' (by omega)]

theorem div_pair_eq_iff {x y x' y' k : Nat} (hy : y < 2 ^ 64) (hy' : y' < 2 ^ 64) (hk : k ≤ 64) :
    (x * 2 ^ 64 + y) / 2 ^ k = (x' * 2 ^ 64 + y') / 2 ^ k ↔ x = x' ∧ y / 2 ^ k = y' / 2 ^ k := by
  have hsplit : 2 ^ 64 = 2 ^ (64 - k) * 2 ^ k := by rw [← Nat.pow_add, Nat.sub_add_cancel hk]
  have hdiv (a b : Nat) : (a * 2 ^ 64 + b) / 2 ^ k = b / 2 ^ k + a * 2 ^ (64 - k) := by
    rw [hsplit, ← mul_assoc, add_comm, add_mul_div_right _ _ (Nat.two_pow_pos k)]
  have hlt {b : Nat} (hb : b < 2 ^ 64) : b / 2 ^ k < 2 ^ (64 - k) := by
    rw [hsplit] at hb
    exact Nat.div_lt_of_lt_mul (by rwa [mul_comm])
  rw [hdiv, hdiv]
  constructor
  · intro h
    have hmod := congrArg (· % 2 ^ (64 - k)) h
    simp only [add_mul_mod_self_right, mod_eq_of_lt (hlt hy), mod_eq_of_lt (hlt hy')] at hmod
    rw [hmod] at h
    exact ⟨eq_of_mul_eq_mul_right (Nat.two_pow_pos _) (add_left_cancel h), hmod⟩
  · rintro ⟨rfl, h⟩
    rw [h]

theorem and_eq_and_iff {x y : BitVec 64} {m : BitVec 64} {k : Nat} (hm : swapBytes m = highMask 64 k) :
    x &&& m = y &&& m ↔ (swapBytes x).toNat / 2 ^ k = (swapBytes y).toNat / 2 ^ k := by
  rw [← swapBytes_inj ⟨8, rfl⟩, swapBytes_and, swapBytes_and, hm, ← toNat_inj, toNat_and_highMask,
    toNat_and_highMask, Nat.mul_left_inj (Nat.two_pow_pos _).ne']

theorem maskBy_eq_iff {x y : BitVec 64 × BitVec 64} (h : len ≤ 128) :
    maskBy x len = maskBy y len ↔ host x / 2 ^ (128 - len) = host y / 2 ^ (128 - len) := by
  unfold maskBy host
  rw [Prod.mk.injEq, and_eq_and_iff (swapBytes_fibMasks len).1, and_eq_and_iff (swapBytes_fibMasks len).2]
  have hx := (swapBytes x.2).isLt
  have hy := (swapBytes y.2).isLt
  generalize (swapBytes x.1).toNat = a
  generalize (swapBytes y.1).toNat = b
  generalize (swapBytes x.2).toNat = c at hx ⊢
  generalize (swapBytes y.2).toNat = d at hy ⊢
  by_cases hlen : 64 ≤ len
  · rw [show 64 - len = 0 by omega, show 64 - (len - 64) = 128 - len by omega, Nat.pow_zero, Nat.div_one,
      Nat.div_one, div_pair_eq_iff hx hy (by omega)]
  have hhigh (u v : Nat) (hv : v < 2 ^ 64) : (u * 2 ^ 64 + v) / 2 ^ (128 - len) = u / 2 ^ (64 - len) := by
    rw [show 128 - len = 64 + (64 - len) by omega, pow_add, ← Nat.div_div_eq_div_mul,
      add_comm, add_mul_div_right _ _ (Nat.two_pow_pos 64), div_eq_of_lt hv, zero_add]
  rw [show 64 - (len - 64) = 64 by omega, div_eq_of_lt hx, div_eq_of_lt hy, hhigh a c hx,
    hhigh b d hy, and_iff_left rfl]

theorem fibAndLen_inj (hl : l ≤ 128) (hl' : l' ≤ 128) :
    fibAndLen f l = fibAndLen f' l' ↔ f = f' ∧ l = l' := by
  have hvalue (g : BitVec 32) {n : Nat} (hn : n ≤ 128) :
      (fibAndLen g n).toNat = g.toNat * 2 ^ 32 + n := by
    rw [fibAndLen, toNat_or, toNat_shiftLeft, toNat_setWidth, toNat_ofNat,
      Nat.mod_eq_of_lt (by omega : g.toNat < 2 ^ 64), Nat.shiftLeft_eq,
      mod_eq_of_lt (by omega), mod_eq_of_lt (by omega),
      ← Nat.shiftLeft_eq, Nat.shiftLeft_add_eq_or_of_lt (by omega)]
  rw [← toNat_inj, hvalue f hl, hvalue f' hl', ← toNat_inj]
  omega

/-- **The key of a prefix** tells the table, the length and the prefix. -/
theorem keyOf_eq_iff {a a' : Ip6Address} (hl : l ≤ 128) (hl' : l' ≤ 128) :
    keyOf f a l = keyOf f' a' l' ↔ f = f' ∧ prefixOf a l = prefixOf a' l' := by
  unfold keyOf mkKey
  rw [Prod.mk.injEq, Prod.mk.injEq, fibAndLen_inj hl hl']
  rw [Prefix.mk.injEq]
  constructor
  · rintro ⟨h1, h2, rfl, rfl⟩
    exact ⟨rfl, rfl, (maskBy_eq_iff hl).mp (Prod.ext h1 h2)⟩
  · rintro ⟨rfl, rfl, h⟩
    have hmask := (maskBy_eq_iff hl).mpr h
    exact ⟨congrArg Prod.fst hmask, congrArg Prod.snd hmask, rfl, rfl⟩

/-! ## The invariant of an instance -/

/-- **The instance holds the routes.** -/
structure Holds (table : TableInstance) (R : Routes) : Prop where
  hash : ∀ fibIndex addr, ∀ len ≤ 128,
    table.ip6Hash (keyOf fibIndex addr len) = R fibIndex (prefixOf addr len)
  short : ∀ fibIndex p, R fibIndex p ≠ none → p.len ≤ 128
  /-- A count is the number of prefixes of that length, in all tables. -/
  count : ∀ len ≤ 128, ∃ L : List (BitVec 32 × Prefix), L.Nodup ∧
    (∀ x, x ∈ L ↔ R x.1 x.2 ≠ none ∧ x.2.len = len) ∧ table.dstAddressLengthRefcounts len = L.length
  bitmap : ∀ len ≤ 128, table.nonEmptyDstAddressLengthBitmap (128 - len) = true ↔
    table.dstAddressLengthRefcounts len ≠ 0
  order : table.prefixLengthsInSearchOrder =
    ((List.range 129).filter table.nonEmptyDstAddressLengthBitmap).map (128 - ·)

def Routes.set (R : Routes) (fibIndex : BitVec 32) (p : Prefix) (v : Option (BitVec 32)) : Routes :=
  update R fibIndex (update (R fibIndex) p v)

variable {v : Option (BitVec 32)} {p : Prefix}

theorem Routes.set_apply (R : Routes) (p' : Prefix) :
    R.set f p v f' p' = if f' = f ∧ p' = p then v else R f' p' := by
  unfold Routes.set
  by_cases hf : f' = f
  · subst hf
    rw [update_self, Function.update_apply]
    simp
  · rw [update_of_ne hf, if_neg (fun h => hf h.1)]

theorem Routes.set_pair (R : Routes) (x : BitVec 32 × Prefix) :
    R.set f p v x.1 x.2 = if x = (f, p) then v else R x.1 x.2 := by
  simp only [set_apply, Prod.ext_iff]

theorem holds_empty : Holds .empty fun _ _ => none where
  hash := fun _ _ _ _ => rfl
  short := fun _ _ h => absurd rfl h
  count := fun _ _ => ⟨[], nodup_nil, by simp, rfl⟩
  bitmap := fun _ _ => by simp [TableInstance.empty]
  order := by
    simp only [TableInstance.empty, filter_false, map_nil]

namespace Holds

variable {table : TableInstance} {R : Routes} {fibIndex : BitVec 32} {addr : Ip6Address} {len : Nat}

variable {l n : Nat} {lens : List Nat}

/-- There are `n` prefixes of length `len`. -/
def HasCount (R : Routes) (len n : Nat) : Prop :=
  ∃ L : List (BitVec 32 × Prefix), L.Nodup ∧ (∀ x, x ∈ L ↔ R x.1 x.2 ≠ none ∧ x.2.len = len) ∧ n = L.length

theorem count_other (h : Holds table R) (v : Option (BitVec 32)) (hl : l ≤ 128) (hne : l ≠ len) :
    HasCount (R.set fibIndex (prefixOf addr len) v) l (table.dstAddressLengthRefcounts l) := by
  obtain ⟨L, hnodup, hmem, hcount⟩ := h.count l hl
  refine ⟨L, hnodup, fun x => ?_, hcount⟩
  rw [hmem x, Routes.set_apply]
  by_cases heq : x.1 = fibIndex ∧ x.2 = prefixOf addr len
  · have hx : x.2.len ≠ l := by
      rw [heq.2]
      exact hne.symm
    simp [hx]
  · rw [if_neg heq]

theorem set (h : Holds table R) (hlen : len ≤ 128) (v : Option (BitVec 32)) {table' : TableInstance}
    (hcount : HasCount (R.set fibIndex (prefixOf addr len) v) len n)
    (hhash' : table'.ip6Hash = update table.ip6Hash (keyOf fibIndex addr len) v)
    (hcount' : table'.dstAddressLengthRefcounts = update table.dstAddressLengthRefcounts len n)
    (hbitmap' : ∀ l ≤ 128, table'.nonEmptyDstAddressLengthBitmap (128 - l) =
      if l = len then decide (n ≠ 0) else table.nonEmptyDstAddressLengthBitmap (128 - l))
    (horder' : table'.prefixLengthsInSearchOrder =
      ((List.range 129).filter table'.nonEmptyDstAddressLengthBitmap).map (128 - ·)) :
    Holds table' (R.set fibIndex (prefixOf addr len) v) where
  hash f a l hl := by
    rw [hhash', Function.update_apply, Routes.set_apply, h.hash f a l hl]
    exact if_congr (keyOf_eq_iff hl hlen) rfl rfl
  short f p hp := by
    rw [Routes.set_apply] at hp
    split at hp
    · rename_i heq
      rw [heq.2]
      exact hlen
    · exact h.short f p hp
  count l hl := by
    rw [hcount']
    by_cases hll : l = len
    · subst hll
      rw [update_self]
      exact hcount
    · rw [update_of_ne hll]
      exact h.count_other v hl hll
  bitmap l hl := by
    rw [hbitmap' l hl, hcount']
    by_cases hll : l = len
    · subst hll
      simp
    · rw [if_neg hll, update_of_ne hll]
      exact h.bitmap l hl
  order := horder'

theorem bitmap_update {b : Bool} (hb : b = decide (n ≠ 0)) (hlen : len ≤ 128) (hl : l ≤ 128) :
    update table.nonEmptyDstAddressLengthBitmap (128 - len) b (128 - l) =
      if l = len then decide (n ≠ 0) else table.nonEmptyDstAddressLengthBitmap (128 - l) := by
  rw [Function.update_apply, hb]
  exact if_congr (by omega) rfl rfl

section

variable (h : Holds table R)
include h

theorem bitmap_same (hlen : len ≤ 128) (hpos : table.dstAddressLengthRefcounts len ≠ 0)
    (hn : n ≠ 0) (l : Nat) :
    table.nonEmptyDstAddressLengthBitmap (128 - l) =
      if l = len then decide (n ≠ 0) else table.nonEmptyDstAddressLengthBitmap (128 - l) := by
  split
  · rename_i hll
    rw [hll, (h.bitmap len hlen).mpr hpos, decide_eq_true hn]
  · rfl

/-- **Insertion** of an absent prefix. -/
theorem insert (hlen : len ≤ 128) (habsent : R fibIndex (prefixOf addr len) = none)
    (value : BitVec 32) :
    Holds (table.insert fibIndex addr len value) (R.set fibIndex (prefixOf addr len) (some value)) := by
  obtain ⟨L, hnodup, hmem, hcount⟩ := h.count len hlen
  have hnew : HasCount (R.set fibIndex (prefixOf addr len) (some value)) len
      (table.dstAddressLengthRefcounts len + 1) := by
    refine ⟨(fibIndex, prefixOf addr len) :: L, nodup_cons.mpr ⟨?_, hnodup⟩, fun x => ?_, ?_⟩
    · rw [hmem]
      exact fun hin => hin.1 habsent
    · rw [mem_cons, hmem, Routes.set_pair]
      by_cases hx : x = (fibIndex, prefixOf addr len)
      · simp [hx, prefixOf]
      · rw [if_neg hx, or_iff_right hx]
    · rw [length_cons, hcount]
  unfold TableInstance.insert
  simp only
  split
  · exact h.set hlen (some value) hnew rfl rfl
      (fun l hl => bitmap_update (decide_eq_true (succ_ne_zero _)).symm hlen hl) rfl
  · rename_i hpos
    exact h.set hlen (some value) hnew rfl rfl
      (fun l _ => h.bitmap_same hlen hpos (succ_ne_zero _) l) h.order

/-- **Removal** of a prefix that is there. -/
theorem remove (hlen : len ≤ 128) (hpresent : R fibIndex (prefixOf addr len) ≠ none) :
    Holds (table.remove fibIndex addr len) (R.set fibIndex (prefixOf addr len) none) := by
  obtain ⟨L, hnodup, hmem, hcount⟩ := h.count len hlen
  have hin : (fibIndex, prefixOf addr len) ∈ L := (hmem _).mpr ⟨hpresent, rfl⟩
  have hnew : HasCount (R.set fibIndex (prefixOf addr len) none) len
      (table.dstAddressLengthRefcounts len - 1) := by
    refine ⟨L.erase (fibIndex, prefixOf addr len), hnodup.erase _, fun x => ?_, ?_⟩
    · rw [hnodup.mem_erase_iff, hmem, Routes.set_pair]
      by_cases hx : x = (fibIndex, prefixOf addr len)
      · simp [hx]
      · rw [if_neg hx, and_iff_right hx]
    · rw [length_erase_of_mem hin, hcount]
  have hpos : table.dstAddressLengthRefcounts len ≠ 0 := by
    rw [hcount]
    exact (length_pos_of_mem hin).ne'
  unfold TableInstance.remove
  simp only
  split
  · rename_i hzero
    exact h.set hlen none hnew rfl rfl
      (fun l hl => bitmap_update (decide_eq_false (not_not.mpr hzero)).symm hlen hl) rfl
  · rename_i hn
    exact h.set hlen none hnew rfl rfl (fun l _ => h.bitmap_same hlen hpos hn l) h.order

/-! ## The search order -/

theorem pairwise_order : table.prefixLengthsInSearchOrder.Pairwise (· > ·) := by
  rw [h.order, pairwise_map]
  refine (pairwise_lt_range.filter _).imp_of_mem ?_
  intro a b ha hb hab
  have := mem_range.mp (mem_of_mem_filter hb)
  omega

theorem mem_order_iff (l : Nat) :
    l ∈ table.prefixLengthsInSearchOrder ↔ ∃ f p, R f p ≠ none ∧ p.len = l := by
  have hbit : l ∈ table.prefixLengthsInSearchOrder ↔
      l ≤ 128 ∧ table.nonEmptyDstAddressLengthBitmap (128 - l) = true := by
    rw [h.order, mem_map]
    constructor
    · rintro ⟨i, hi, rfl⟩
      obtain ⟨hlt, hset⟩ := mem_filter.mp hi
      have := mem_range.mp hlt
      refine ⟨by omega, ?_⟩
      rwa [show 128 - (128 - i) = i by omega]
    · rintro ⟨hl, hset⟩
      exact ⟨128 - l, mem_filter.mpr ⟨mem_range.mpr (by omega), hset⟩, by omega⟩
  rw [hbit]
  constructor
  · rintro ⟨hl, hset⟩
    obtain ⟨L, -, hmem, hcount⟩ := h.count l hl
    have hpos := (h.bitmap l hl).mp hset
    rw [hcount] at hpos
    obtain ⟨x, hx⟩ := exists_mem_of_length_pos (Nat.pos_of_ne_zero hpos)
    exact ⟨x.1, x.2, (hmem x).mp hx⟩
  · rintro ⟨f, p, hp, rfl⟩
    have hl := h.short f p hp
    obtain ⟨L, -, hmem, hcount⟩ := h.count p.len hl
    refine ⟨hl, (h.bitmap p.len hl).mpr ?_⟩
    rw [hcount]
    exact (length_pos_of_mem ((hmem (f, p)).mpr ⟨hp, rfl⟩)).ne'

end

/-! ## Lookups -/

theorem search_eq (fibIndex : BitVec 32) (addr : Ip6Address) (lens : List Nat) (hlens : lens.Pairwise (· > ·))
    (key : BitVec 64 × BitVec 64) (hkey : ∀ l ∈ lens, maskBy key l = maskBy addr.asU64 l) :
    table.search fibIndex key lens = lens.findSome? fun l => table.ip6Hash (keyOf fibIndex addr l) := by
  induction lens generalizing key with
  | nil => rfl
  | cons l lens ih =>
    obtain ⟨hfirst, hrest⟩ := pairwise_cons.mp hlens
    have hl : mkKey (maskBy key l) fibIndex l = keyOf fibIndex addr l := by
      rw [keyOf, hkey l mem_cons_self]
    rw [TableInstance.search, findSome?_cons, hl]
    cases table.ip6Hash (keyOf fibIndex addr l) with
    | some value => rfl
    | none =>
      refine ih hrest _ fun l' hl' => ?_
      have hle : l' ≤ l := le_of_lt (hfirst l' hl')
      rw [maskBy_maskBy key hle, hkey l' (mem_cons_of_mem l hl')]

theorem mem_dropWhile_iff (h : lens.Pairwise (· > ·)) (bound l : Nat) :
    l ∈ lens.dropWhile (· > bound) ↔ l ∈ lens ∧ l ≤ bound := by
  induction lens with
  | nil => simp
  | cons a lens ih =>
    obtain ⟨hfirst, hrest⟩ := pairwise_cons.mp h
    rw [dropWhile_cons]
    split
    · rename_i ha
      have ha : bound < a := of_decide_eq_true ha
      rw [ih hrest, mem_cons]
      constructor
      · exact fun hl => ⟨.inr hl.1, hl.2⟩
      · rintro ⟨rfl | hl, hle⟩
        · omega
        · exact ⟨hl, hle⟩
    · rename_i ha
      have ha : ¬ bound < a := fun hlt => ha (decide_eq_true hlt)
      refine ⟨fun hl => ⟨hl, ?_⟩, And.left⟩
      rcases mem_cons.mp hl with rfl | hl
      · omega
      · have := hfirst l hl
        omega

theorem search_finds (h : Holds table R) (fibIndex : BitVec 32) (addr : Ip6Address)
    {bound : Nat} (hlens : lens.Pairwise (· > ·))
    (hmem : ∀ l, l ∈ lens ↔ l ∈ table.prefixLengthsInSearchOrder ∧ l ≤ bound) (missing : BitVec 32) :
    Finds (upTo (R fibIndex) bound) addr missing
      ((table.search fibIndex addr.asU64 lens).getD missing) := by
  rw [search_eq fibIndex addr lens hlens addr.asU64 fun _ _ => rfl]
  have haddr : prefixOf addr 128 = ⟨128, host addr.asU64⟩ := by simp [prefixOf]
  have hle (l : Nat) (hl : l ∈ lens) : l ≤ 128 := by
    obtain ⟨f, p, hp, rfl⟩ := (h.mem_order_iff l).mp ((hmem l).mp hl).1
    exact h.short f p hp
  have hupTo {l : Nat} (hl : l ∈ lens) : upTo (R fibIndex) bound ⟨l, host addr.asU64 / 2 ^ (128 - l)⟩ =
      table.ip6Hash (keyOf fibIndex addr l) := by
    rw [h.hash fibIndex addr l (hle l hl)]
    exact if_pos ((hmem l).mp hl).2
  have hother {l : Nat} (hl : l ∉ lens) :
      upTo (R fibIndex) bound ⟨l, host addr.asU64 / 2 ^ (128 - l)⟩ = none := by
    unfold upTo
    split
    · rename_i hb
      by_contra hne
      exact hl ((hmem l).mpr ⟨(h.mem_order_iff l).mpr ⟨fibIndex, _, hne, rfl⟩, hb⟩)
    · rfl
  unfold Finds
  rw [haddr]
  cases hfind : lens.findSome? fun l => table.ip6Hash (keyOf fibIndex addr l) with
  | none =>
    rw [findSome?_eq_none_iff] at hfind
    refine .inr ⟨none_of_lengths fun l _ => ?_, rfl⟩
    by_cases hl : l ∈ lens
    · rw [hupTo hl, hfind l hl]
    · exact hother hl
  | some value =>
    obtain ⟨front, l, back, rfl, hvalue, hfront⟩ := findSome?_eq_some_iff.mp hfind
    have hl : l ∈ front ++ l :: back := mem_append_right _ mem_cons_self
    refine .inl ⟨_, longest_of_lengths (hle l hl) ((hupTo hl).trans hvalue) fun l' _ hlt => ?_⟩
    by_cases hl' : l' ∈ front ++ l :: back
    · rw [hupTo hl']
      rcases mem_append.mp hl' with hin | hin
      · exact hfront l' hin
      have hback := (pairwise_append.mp hlens).2.1
      rcases mem_cons.mp hin with rfl | hin
      · exact absurd hlt (lt_irrefl _)
      · have := (pairwise_cons.mp hback).1 l' hin
        omega
    · exact hother hl'

theorem upTo_all (h : Holds table R) (fibIndex : BitVec 32) : upTo (R fibIndex) 128 = R fibIndex := by
  funext p
  unfold upTo
  split
  · rfl
  · rename_i hlen
    by_contra hne
    exact hlen (h.short fibIndex p (Ne.symm hne))

end Holds

theorem upTo_eq_some {v : BitVec 32} (h : upTo R len p = some v) : R p = some v := by
  unfold upTo at h
  split at h
  · exact h
  · cases h

theorem Finds.missing_iff {addr : Ip6Address} {missing r : BitVec 32}
    (h : Finds R addr missing r) (hvalid : ∀ p, R p ≠ some missing) :
    r = missing ↔ ∀ p, p.Covers (prefixOf addr 128) → R p = none := by
  constructor
  · rintro rfl
    rcases h with ⟨p, hp⟩ | ⟨hnone, -⟩
    · exact absurd hp.value (hvalid p)
    · exact hnone
  · intro hnone
    rcases h with ⟨p, hp⟩ | ⟨-, hr⟩
    · have := hp.value
      rw [hnone p hp.covers] at this
      cases this
    · exact hr

theorem Finds.unique (h : Finds R addr missing r) (h' : Finds R addr missing r') : r = r' := by
  rcases h with ⟨p, hp⟩ | ⟨hnone, rfl⟩ <;> rcases h' with ⟨p', hp'⟩ | ⟨hnone', rfl⟩
  · exact hp.unique hp'
  · cases hp.value.symm.trans (hnone' p hp.covers)
  · cases hp'.value.symm.trans (hnone p' hp'.covers)
  · rfl

/-! ## Runs -/

inductive Op
  | entryInsert (fibIndex : BitVec 32) (addr : Ip6Address) (len : Nat) (fibEntryIndex : BitVec 32)
  | entryRemove (fibIndex : BitVec 32) (addr : Ip6Address) (len : Nat)
  | fwdingDpoUpdate (fibIndex : BitVec 32) (addr : Ip6Address) (len : Nat) (dpoiIndex : BitVec 32)
  | fwdingDpoRemove (fibIndex : BitVec 32) (addr : Ip6Address) (len : Nat)

structure Model where
  tables : Tables
  entries : Routes
  fwding : Routes

def Model.init : Model := ⟨⟨.empty, .empty⟩, fun _ _ => none, fun _ _ => none⟩

def Model.step (s : Model) : Op → Model × Unit
  | .entryInsert f a l v =>
    ({ s with
      tables := s.tables.ip6FibTableEntryInsert f a l v
      entries := s.entries.set f (prefixOf a l) (some v) }, ())
  | .entryRemove f a l =>
    ({ s with
      tables := s.tables.ip6FibTableEntryRemove f a l
      entries := s.entries.set f (prefixOf a l) none }, ())
  | .fwdingDpoUpdate f a l v =>
    ({ s with
      tables := s.tables.ip6FibTableFwdingDpoUpdate f a l v
      fwding := s.fwding.set f (prefixOf a l) (some v) }, ())
  | .fwdingDpoRemove f a l =>
    ({ s with
      tables := s.tables.ip6FibTableFwdingDpoRemove f a l
      fwding := s.fwding.set f (prefixOf a l) none }, ())

/-- Absent prefixes are inserted, with an entry, and present ones removed. -/
def Allowed (s : Model) : Op → Prop
  | .entryInsert f a l v => l ≤ 128 ∧ s.entries f (prefixOf a l) = none ∧ v ≠ fibNodeIndexInvalid
  | .entryRemove f a l => l ≤ 128 ∧ s.entries f (prefixOf a l) ≠ none
  | .fwdingDpoUpdate f a l _ => l ≤ 128 ∧ s.fwding f (prefixOf a l) = none
  | .fwdingDpoRemove f a l => l ≤ 128 ∧ s.fwding f (prefixOf a l) ≠ none

structure Model.Inv (s : Model) : Prop where
  entries : Holds s.tables.nonFwding s.entries
  fwding : Holds s.tables.fwding s.fwding
  valid : ∀ f p, s.entries f p ≠ some fibNodeIndexInvalid

theorem Model.Inv.step {s : Model} (h : s.Inv) (op : Op) (hop : Allowed s op) : (s.step op).1.Inv := by
  have hvalid {f f' : BitVec 32} {p p' : Prefix} {v : Option (BitVec 32)} (hv : v ≠ some fibNodeIndexInvalid) :
      s.entries.set f p v f' p' ≠ some fibNodeIndexInvalid := by
    rw [Routes.set_apply]
    split
    · exact hv
    · exact h.valid f' p'
  cases op with
  | entryInsert f a l v =>
    exact ⟨h.entries.insert hop.1 hop.2.1 v, h.fwding,
      fun _ _ => hvalid fun heq => hop.2.2 (Option.some.inj heq)⟩
  | entryRemove f a l =>
    exact ⟨h.entries.remove hop.1 hop.2, h.fwding, fun _ _ => hvalid (Option.some_ne_none _).symm⟩
  | fwdingDpoUpdate f a l v => exact ⟨h.entries, h.fwding.insert hop.1 hop.2 v, h.valid⟩
  | fwdingDpoRemove f a l => exact ⟨h.entries, h.fwding.remove hop.1 hop.2, h.valid⟩

theorem Model.inv_init : Model.init.Inv :=
  ⟨holds_empty, holds_empty, fun _ _ h => nomatch h⟩

structure Ordered (table : TableInstance) (R : Routes) : Prop where
  descending : table.prefixLengthsInSearchOrder.Pairwise (· > ·)
  exact : ∀ l, l ∈ table.prefixLengthsInSearchOrder ↔ ∃ f p, R f p ≠ none ∧ p.len = l

/-- **Longest-prefix match.** After any insertions of absent and removals of present prefixes the lookups find
the longest match and the prefix itself, and the search orders are right; the forwarding lookup returns 0
without a match. -/
theorem ip6_fib_lookups (ops : List Op) (h : Along Model.step Allowed Model.init ops) (s : Model)
    (hs : s = after Model.step Model.init ops) :
    (∀ f a len, Finds (upTo (s.entries f) len) a fibNodeIndexInvalid (s.tables.ip6FibTableLookup f a len) ∧
      (s.tables.ip6FibTableLookup f a len = fibNodeIndexInvalid ↔
        ∀ p, p.Covers (prefixOf a 128) → upTo (s.entries f) len p = none)) ∧
    (∀ f a, ∀ len ≤ 128, s.tables.ip6FibTableLookupExactMatch f a len =
      (s.entries f (prefixOf a len)).getD fibNodeIndexInvalid) ∧
    Ordered s.tables.nonFwding s.entries ∧
    (∀ f a, Finds (s.fwding f) a 0 (s.tables.ip6FibTableFwdingLookup f a)) ∧
    Ordered s.tables.fwding s.fwding := by
  have hinv := (h.invariant Model.Inv (fun _ => True) (fun s op hs hop => ⟨hs.step op hop, trivial⟩)
    Model.inv_init).1
  rw [← hs] at hinv
  obtain ⟨hentries, hfwding, hvalid⟩ := hinv
  refine ⟨fun f a len => ?_, fun f a len hlen => ?_, ⟨hentries.pairwise_order, hentries.mem_order_iff⟩,
    fun f a => ?_, ⟨hfwding.pairwise_order, hfwding.mem_order_iff⟩⟩
  · have horder := hentries.pairwise_order
    have hfinds := hentries.search_finds f a (horder.sublist (dropWhile_sublist _))
      (Holds.mem_dropWhile_iff horder len) fibNodeIndexInvalid
    exact ⟨hfinds, hfinds.missing_iff fun p hp => hvalid f p (upTo_eq_some hp)⟩
  · rw [Tables.ip6FibTableLookupExactMatch, hentries.hash f a len hlen]
  · rw [← hfwding.upTo_all f]
    refine hfwding.search_finds f a hfwding.pairwise_order (fun l => ?_) 0
    refine ⟨fun hl => ⟨hl, ?_⟩, And.left⟩
    obtain ⟨g, p, hp, rfl⟩ := (hfwding.mem_order_iff l).mp hl
    exact hfwding.short g p hp

/-- `2001:db8::` -/
def documentation : Ip6Address := ⟨0xb80d0120, 0⟩

/-- `2001:db8::/32` in one table and `2001:db8::/48` in another. -/
def twoTables : List Op := [.entryInsert 0 documentation 32 7, .entryInsert 1 documentation 48 8]

theorem two_tables_looked_up :
    (after Model.step Model.init twoTables).tables.ip6FibTableLookup 0 documentation 128 = 7 ∧
      ((after Model.step Model.init twoTables).tables.ip6FibTableLookup 0 documentation 31 =
        fibNodeIndexInvalid ↔ ∀ p, p.Covers (prefixOf documentation 128) →
          upTo ((after Model.step Model.init twoTables).entries 0) 31 p = none) := by
  have hrun : Along Model.step Allowed Model.init twoTables := by
    have hother : (Model.init.entries.set 0 (prefixOf documentation 32) (some 7)) 1
        (prefixOf documentation 48) = none := by
      rfl
    exact ⟨⟨by decide, rfl, by decide⟩, ⟨by decide, hother, by decide⟩, trivial⟩
  exact ⟨by decide +kernel, ((ip6_fib_lookups twoTables hrun _ rfl).1 0 documentation 31).2⟩

/-- Without a prefix the forwarding lookup returns 0, and the other one `~0`. -/
theorem fwding_lookup_without_match :
    (after Model.step Model.init []).tables.ip6FibTableFwdingLookup 0 documentation = 0 ∧
      (0 : BitVec 32) ≠ fibNodeIndexInvalid ∧
      (after Model.step Model.init []).tables.ip6FibTableLookup 0 documentation 128 =
        fibNodeIndexInvalid := by
  decide +kernel

/-- **Only its routes count.** They determine what a table answers, whatever was done before, to it or another. -/
theorem lookups_by_routes : ∃ answer : (Prefix → Option (BitVec 32)) → Ip6Address → Nat → BitVec 32,
    ∀ ops, Along Model.step Allowed Model.init ops → ∀ f a len,
      (after Model.step Model.init ops).tables.ip6FibTableLookup f a len =
        answer ((after Model.step Model.init ops).entries f) a len := by
  refine ⟨fun R a len => Classical.epsilon (Finds (upTo R len) a fibNodeIndexInvalid), fun _ h f a len => ?_⟩
  have hinv := (h.invariant Model.Inv (fun _ => True) (fun _ op hs hop => ⟨hs.step op hop, trivial⟩)
    Model.inv_init).1.entries
  have horder := hinv.pairwise_order
  have hfinds := hinv.search_finds f a (horder.sublist (dropWhile_sublist _))
    (Holds.mem_dropWhile_iff horder len) fibNodeIndexInvalid
  exact hfinds.unique (Classical.epsilon_spec ⟨_, hfinds⟩)

end Vpp.Fib
