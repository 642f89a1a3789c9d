import Vpp.Lib.OnesComplement
import Vpp.Lib.Stores
import Vpp.Lib.ByteOrder
import Vpp.Lib.Run

/-!
# Internet checksum over chunks

`vppinfra/vector/ip_csum.h`. One inline function, compiled in six variants, adds a chunk of memory to
a 64-bit sum and, as an option, copies it. Vectors are lists of lanes, memory is a function from
addresses to bytes, and the copy is the list of stores in the order they are made. Words are loaded
as a little endian processor does.
-/

namespace Vpp.Vector

open Lib List BitVec

/-- `clib_ip_csum_t`. -/
@[ext] structure ClibIpCsum where
  sum : BitVec 64
  odd : Bool
  deriving DecidableEq, Repr

/-- What the compiler finds defined: `CLIB_HAVE_VEC512`, `_VEC256` or `_VEC128`, and
`CLIB_HAVE_VEC256_MASK_LOAD_STORE` with the first two. -/
inductive Variant
  | vec512 (mask : Bool)
  | vec256 (mask : Bool)
  | vec128
  | scalar
  deriving DecidableEq, Repr

/-! ## Vectors -/

def bytesAt (mem : Nat → BitVec 8) (p n : Nat) : List (BitVec 8) :=
  (List.range n).map fun j => mem (p + j)

/-- A word of `k` bytes. -/
def loadWord (mem : Nat → BitVec 8) (p k w : Nat) : BitVec w :=
  BitVec.ofNat w (digitSum k 0 (bytesAt mem p k))

/-- A vector of `n` 32-bit lanes. -/
def loadLanes (mem : Nat → BitVec 8) (p n : Nat) : List (BitVec 32) :=
  (List.range n).map fun i => loadWord mem (p + 4 * i) 4 32

/-- `u32x4_interleave_lo`, in each 128-bit part of the vectors. -/
def interleaveLo : List (BitVec 32) → List (BitVec 32) → List (BitVec 32)
  | a0 :: a1 :: _ :: _ :: as, b0 :: b1 :: _ :: _ :: bs =>
    a0 :: b0 :: a1 :: b1 :: interleaveLo as bs
  | _, _ => []

/-- `u32x4_interleave_hi`, in each 128-bit part of the vectors. -/
def interleaveHi : List (BitVec 32) → List (BitVec 32) → List (BitVec 32)
  | _ :: _ :: a2 :: a3 :: as, _ :: _ :: b2 :: b3 :: bs =>
    a2 :: b2 :: a3 :: b3 :: interleaveHi as bs
  | _, _ => []

def castU64 : List (BitVec 32) → List (BitVec 64)
  | lo :: hi :: vs => (hi ++ lo : BitVec 64) :: castU64 vs
  | _ => []

def addLanes (v w : List (BitVec 64)) : List (BitVec 64) := List.zipWith (· + ·) v w

/-- `clib_ip_csum_cvt_and_add_4`, `_8` and `_16`, which differ in the number of lanes. -/
def clibIpCsumCvtAndAdd (v : List (BitVec 32)) : List (BitVec 64) :=
  addLanes (castU64 (interleaveLo v (List.replicate v.length 0)))
    (castU64 (interleaveHi v (List.replicate v.length 0)))

def clibIpCsumHadd2 : List (BitVec 64) → BitVec 64
  | v0 :: v1 :: _ => v0 + v1
  | _ => 0

def clibIpCsumHadd4 (v : List (BitVec 64)) : BitVec 64 :=
  clibIpCsumHadd2 (addLanes (v.take 2) (v.drop 2))

def clibIpCsumHadd8 (v : List (BitVec 64)) : BitVec 64 :=
  clibIpCsumHadd4 (addLanes (v.take 4) (v.drop 4))

/-! ### Sums of lanes -/

variable {v w : List (BitVec 64)} {n : Nat}

theorem sum_addLanes (h : v.length = w.length) : (addLanes v w).sum = v.sum + w.sum :=
  (sum_add_sum_eq_sum_zipWith_of_length_eq v w h).symm

theorem length_addLanes (h : v.length = w.length) : (addLanes v w).length = v.length := by
  rw [addLanes, length_zipWith, h, min_self]

theorem zero_append_eq_setWidth (a : BitVec 32) : (0#32 ++ a : BitVec 64) = a.setWidth 64 := by
  apply eq_of_toNat_eq
  rw [toNat_append, toNat_setWidth, Nat.mod_eq_of_lt (by omega)]
  simp

/-- **Converting and adding** loses nothing: a 64-bit lane takes the sum of two 32-bit lanes. -/
theorem cvtAndAdd_spec {v : List (BitVec 32)} (h : v.length = 4 * n) :
    (clibIpCsumCvtAndAdd v).length = 2 * n ∧
      (clibIpCsumCvtAndAdd v).sum = (v.map (BitVec.setWidth 64)).sum := by
  induction n generalizing v with
  | zero =>
    obtain rfl := eq_nil_of_length_eq_zero h
    exact ⟨rfl, rfl⟩
  | succ n ih =>
    match v, h with
    | a :: b :: c :: d :: v, h =>
      have hv : v.length = 4 * n := by
        simp only [length_cons] at h
        omega
      have hcons : clibIpCsumCvtAndAdd (a :: b :: c :: d :: v) =
          (a.setWidth 64 + c.setWidth 64) :: (b.setWidth 64 + d.setWidth 64) ::
            clibIpCsumCvtAndAdd v := by
        simp only [← zero_append_eq_setWidth]
        rfl
      obtain ⟨hlen, hsum⟩ := ih hv
      rw [hcons]
      refine ⟨by rw [length_cons, length_cons]; omega, ?_⟩
      simp only [sum_cons, hsum]
      ac_rfl

theorem hadd2_eq_sum (h : v.length = 2) : clibIpCsumHadd2 v = v.sum := by
  obtain ⟨a, b, rfl⟩ := length_eq_two.mp h
  simp [clibIpCsumHadd2]

theorem sum_halves {v : List (BitVec 64)} (h : v.length = 2 * n) :
    (addLanes (v.take n) (v.drop n)).length = n ∧
      (addLanes (v.take n) (v.drop n)).sum = v.sum := by
  have hlen : (v.take n).length = (v.drop n).length := by
    rw [length_take, length_drop]
    omega
  refine ⟨?_, ?_⟩
  · rw [length_addLanes hlen, length_take]
    omega
  · rw [sum_addLanes hlen, ← sum_append, take_append_drop]

theorem hadd4_eq_sum (h : v.length = 4) : clibIpCsumHadd4 v = v.sum := by
  obtain ⟨hlen, hsum⟩ := @sum_halves 2 v h
  rw [clibIpCsumHadd4, hadd2_eq_sum hlen, hsum]

theorem hadd8_eq_sum (h : v.length = 8) : clibIpCsumHadd8 v = v.sum := by
  obtain ⟨hlen, hsum⟩ := @sum_halves 4 v h
  rw [clibIpCsumHadd8, hadd4_eq_sum hlen, hsum]

theorem length_bytesAt (mem : Nat → BitVec 8) (p n : Nat) : (bytesAt mem p n).length = n := by
  simp [bytesAt]

theorem bytesAt_add (mem : Nat → BitVec 8) (p n k : Nat) :
    bytesAt mem p (n + k) = bytesAt mem p n ++ bytesAt mem (p + n) k := by
  simp only [bytesAt, range_add, map_append, map_map, Function.comp_def, add_assoc]

theorem digitSum_bytesAt_add {k : Nat} (hk : k ∣ n) (mem : Nat → BitVec 8) (p m : Nat) :
    digitSum k 0 (bytesAt mem p (n + m)) =
      digitSum k 0 (bytesAt mem p n) + digitSum k 0 (bytesAt mem (p + n) m) := by
  have halign : digitSum k (0 + n) (bytesAt mem (p + n) m) = digitSum k 0 (bytesAt mem (p + n) m) :=
    digitSum_of_mod_eq (by rw [zero_add, Nat.zero_mod, Nat.mod_eq_zero_of_dvd hk])
  rw [bytesAt_add, digitSum_append, length_bytesAt, halign]

variable {p : Nat}

theorem setWidth_loadWord (mem : Nat → BitVec 8) :
    (loadWord mem p 4 32).setWidth 64 = BitVec.ofNat 64 (digitSum 4 0 (bytesAt mem p 4)) := by
  have hlt : digitSum 4 0 (bytesAt mem p 4) < 2 ^ 32 := by
    show (mem (p + 0)).toNat * 1 + ((mem (p + 1)).toNat * 256 + ((mem (p + 2)).toNat * 65536 +
      ((mem (p + 3)).toNat * 16777216 + 0))) < 2 ^ 32
    omega
  apply eq_of_toNat_eq
  rw [loadWord, toNat_setWidth, toNat_ofNat, toNat_ofNat, Nat.mod_eq_of_lt hlt]

theorem length_loadLanes (mem : Nat → BitVec 8) : (loadLanes mem p n).length = n := by
  simp [loadLanes]

theorem sum_loadLanes (mem : Nat → BitVec 8) :
    ((loadLanes mem p n).map (BitVec.setWidth 64)).sum =
      BitVec.ofNat 64 (digitSum 4 0 (bytesAt mem p (4 * n))) := by
  induction n with
  | zero => rfl
  | succ n ih =>
    have hsucc : loadLanes mem p (n + 1) = loadLanes mem p n ++ [loadWord mem (p + 4 * n) 4 32] := by
      rw [loadLanes, range_succ, map_append]
      rfl
    rw [hsucc, map_append, sum_append, ih, map_singleton, sum_singleton,
      setWidth_loadWord, ← ofNat_add, Nat.mul_succ,
      digitSum_bytesAt_add (Dvd.intro n rfl)]

/-- **A vector added to the lanes** adds the words it was loaded from. -/
theorem sum_addLanes_load {sums : List (BitVec 64)} (h : sums.length = 2 * n)
    (mem : Nat → BitVec 8) (p : Nat) :
    (addLanes sums (clibIpCsumCvtAndAdd (loadLanes mem p (4 * n)))).length = 2 * n ∧
    (addLanes sums (clibIpCsumCvtAndAdd (loadLanes mem p (4 * n)))).sum =
      sums.sum + BitVec.ofNat 64 (digitSum 4 0 (bytesAt mem p (4 * (4 * n)))) := by
  obtain ⟨hlen, hsum⟩ := cvtAndAdd_spec (length_loadLanes mem)
  have heq := h.trans hlen.symm
  exact ⟨(length_addLanes heq).trans h, by rw [sum_addLanes heq, hsum, sum_loadLanes]⟩

/-! ## The inline function -/

/-- The variables of `clib_ip_csum_inline`; `lanes` is `sum8`, `sum4` or `sum2`. -/
structure Frame where
  c : ClibIpCsum
  count : Nat
  src : Nat
  dst : Nat
  lanes : List (BitVec 64)
  stores : List (Nat × BitVec 8)
  deriving Repr

/-- The loop `while (count >= w)`. -/
def whileGe (w : Nat) (turn : Frame → Frame) : Nat → Frame → Frame
  | 0, f => f
  | fuel + 1, f => if w ≤ f.count then whileGe w turn fuel (turn f) else f

/-- The numbers in a vector loop: the lanes, which vectors from `src` on are added and copied, and how far
`src` and `dst` move. -/
structure Stride where
  width : Nat
  adds : List Nat
  copies : List Nat
  step : Nat
  dstStep : Nat

def stride512 : Stride := ⟨16, [0, 1, 2, 3, 8, 5, 6, 7], [0, 1, 2, 3, 4, 5, 6, 7], 512, 512⟩
def stride64 : Stride := ⟨16, [0], [0], 64, 512⟩
def stride256 : Stride := ⟨8, [0, 1, 2, 3, 4, 5, 6, 7], [0, 1, 2, 3, 4, 5, 6, 7], 256, 256⟩
def stride32 : Stride := ⟨8, [0], [0], 32, 32⟩
def stride128 : Stride := ⟨4, [0, 1, 2, 3, 4, 5, 6, 7], [0, 1, 2, 3, 4, 5, 6, 7], 128, 128⟩
def stride16 : Stride := ⟨4, [0], [0], 16, 16⟩

section Inline

variable (mem : Nat → BitVec 8) (isCopy : Bool)

def Stride.turn (t : Stride) (f : Frame) : Frame where
  c := f.c
  count := f.count - t.step
  src := f.src + t.step
  dst := if isCopy then f.dst + t.dstStep else f.dst
  lanes := t.adds.foldl (fun sums i =>
    addLanes sums (clibIpCsumCvtAndAdd (loadLanes mem (f.src + 4 * t.width * i) t.width))) f.lanes
  stores := f.stores ++ if isCopy then
    t.copies.flatMap fun i => stretch (f.dst + 4 * t.width * i) (4 * t.width) fun j =>
      mem (f.src + 4 * t.width * i + j)
    else []

/-- One turn of the loops over words of `k` bytes. -/
def wordTurn (k : Nat) (f : Frame) : Frame where
  c := { f.c with sum := f.c.sum + loadWord mem f.src k 64 }
  count := f.count - k
  src := f.src + k
  dst := if isCopy then f.dst + k else f.dst
  lanes := f.lanes
  stores := f.stores ++ if isCopy then stretch f.dst k fun j => mem (f.src + j) else []

def vecLoop (t : Stride) (f : Frame) : Frame := whileGe t.step (t.turn mem isCopy) f.count f

def wordLoop (k : Nat) (f : Frame) : Frame := whileGe k (wordTurn mem isCopy k) f.count f

/-- The byte that completes the last word of the chunk before. The copy is made after `src++`. -/
def oddByte (f : Frame) : Frame :=
  if f.c.odd then
    { f with
      c := ⟨f.c.sum + BitVec.ofNat 64 ((mem f.src).toNat * 256), false⟩
      count := (f.count + 65535) % 65536
      src := f.src + 1
      dst := if isCopy then f.dst + 1 else f.dst
      stores := f.stores ++ if isCopy then [(f.dst, mem (f.src + 1))] else [] }
  else f

/-- `u8xN_mask_load_zero`: bytes whose bit of the mask is clear are zero. -/
def maskLoadZero (p mask : Nat) : Nat → BitVec 8 :=
  fun a => if mask.testBit (a - p) then mem a else 0

/-- `u32xN_mask_store`: the mask has one bit for each 32-bit lane. -/
def maskStore (v : Nat → BitVec 8) (p d mask width : Nat) : List (Nat × BitVec 8) :=
  (List.range width).flatMap fun i =>
    if mask.testBit i then stretch (d + 4 * i) 4 fun j => v (p + 4 * i + j) else []

/-- What is left of the chunk, as one masked vector of `width` lanes. -/
def maskedTail (width : Nat) (f : Frame) : Frame :=
  if f.count ≠ 0 then
    let mask := 2 ^ f.count - 1
    let v := maskLoadZero mem f.src mask
    { f with
      c := { f.c with odd := f.count % 2 == 1 }
      lanes := addLanes f.lanes (clibIpCsumCvtAndAdd (loadLanes v f.src width))
      stores := f.stores ++ if isCopy then maskStore v f.src f.dst mask width else [] }
  else f

/-- What is left of the chunk, word by word and the last byte. -/
def plainTail (f : Frame) : Frame :=
  let f := wordLoop mem isCopy 2 f
  if f.count ≠ 0 then
    { f with
      c := ⟨f.c.sum + BitVec.ofNat 64 (mem f.src).toNat, true⟩
      stores := f.stores ++ if isCopy then [(f.dst, mem f.src)] else [] }
  else f

/-- `c->sum += clib_ip_csum_hadd_N (sumN)`, the last use of `sumN`. -/
def addHadd (hadd : List (BitVec 64) → BitVec 64) (f : Frame) : Frame :=
  { f with
    c := { f.c with sum := f.c.sum + hadd f.lanes }
    lanes := [] }

/-- The lanes of `sum8`, `sum4` and `sum2`; the scalar variant has no such variable. -/
def Variant.lanes : Variant → Nat
  | .vec512 _ => 8
  | .vec256 _ => 4
  | .vec128 => 2
  | .scalar => 0

def afterOddByte (v : Variant) (f : Frame) : Frame :=
  match v with
  | .vec512 mask =>
    let f := vecLoop mem isCopy stride64 (vecLoop mem isCopy stride512 f)
    if mask then addHadd clibIpCsumHadd8 (maskedTail mem isCopy 16 f)
    else plainTail mem isCopy (addHadd clibIpCsumHadd8 f)
  | .vec256 mask =>
    let f := vecLoop mem isCopy stride32 (vecLoop mem isCopy stride256 f)
    if mask then addHadd clibIpCsumHadd4 (maskedTail mem isCopy 8 f)
    else plainTail mem isCopy (addHadd clibIpCsumHadd4 f)
  | .vec128 =>
    let f := vecLoop mem isCopy stride16 (vecLoop mem isCopy stride128 f)
    plainTail mem isCopy (addHadd clibIpCsumHadd2 f)
  | .scalar => plainTail mem isCopy (wordLoop mem isCopy 4 f)

/-- `clib_ip_csum_inline`, with the stores it makes. -/
def clibIpCsumInline (v : Variant) (c : ClibIpCsum) (dst src count : Nat) :
    ClibIpCsum × List (Nat × BitVec 8) :=
  let f := oddByte mem isCopy ⟨c, count, src, dst, List.replicate v.lanes 0, []⟩
  let f := afterOddByte mem isCopy v f
  (f.c, f.stores)

end Inline

def clibIpCsumChunk (v : Variant) (mem : Nat → BitVec 8) (c : ClibIpCsum) (src count : Nat) :
    ClibIpCsum × List (Nat × BitVec 8) :=
  clibIpCsumInline mem false v c 0 src count

def clibIpCsumAndCopyChunk (v : Variant) (mem : Nat → BitVec 8) (c : ClibIpCsum)
    (src dst count : Nat) : ClibIpCsum × List (Nat × BitVec 8) :=
  clibIpCsumInline mem true v c dst src count

/-! ## Folding -/

/-- The two ways `clib_ip_csum_fold` is compiled: with `__BMI2__` and without. -/
inductive Fold
  | bmi2
  | shifts
  deriving DecidableEq, Repr

/-- The sum and the carry flag after `adc`. -/
def adc {w : Nat} (x y : BitVec w) (cf : Bool) : BitVec w × Bool :=
  (x + y + BitVec.ofNat w cf.toNat, decide (2 ^ w ≤ x.toNat + y.toNat + cf.toNat))

def clibIpCsumFold (f : Fold) (c : ClibIpCsum) : BitVec 16 :=
  match f with
  | .bmi2 =>
    let tmp := c.sum
    let sum := c.sum >>> 32
    -- `mov` and `shrx` leave the carry of the 32-bit addition alone
    let r := adc (sum.setWidth 32) (tmp.setWidth 32) false
    let tmp := r.1 >>> 16
    let r := adc (r.1.setWidth 16) (tmp.setWidth 16) r.2
    let r := adc r.1 0 r.2
    ~~~ r.1
  | .shifts =>
    let sum := c.sum
    let sum := (sum.setWidth 32).setWidth 64 + sum >>> 32
    let sum := (sum.setWidth 16).setWidth 64 + sum >>> 16
    let sum := (sum.setWidth 16).setWidth 64 + sum >>> 16
    ~~~ sum.setWidth 16

def rfc1071 (bs : List (BitVec 8)) : BitVec 16 := ~~~ BitVec.ofNat 16 (onesSum (netWords bs))

end Vpp.Vector
