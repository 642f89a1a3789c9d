import Vpp.Vector.IpCsumChunks

/-!
# Chunks and RFC 1071

A string is fed to the checksum in chunks, each copied or not. Words of 4 bytes, words of 2 bytes and
the odd byte between two chunks all add the same modulo `2 ^ 16 - 1`. So the checksum that comes out is
the one of RFC 1071, and the copies are exact, just under a condition on the chunks: what the 512-byte
loop adds for one of its vectors must not matter, the sum of the words must not lose a carry, and each
copied chunk must be one that the loops of its variant copy.
-/

namespace Vpp.Vector

open Lib Nat
open List hiding after

/-! ## Folding -/

def CarryLost (s : Nat) : Prop := s % 65535 = 1 ∧ 2 ^ 32 + 65535 ≤ s % 2 ^ 32 + s / 2 ^ 32

instance (s : Nat) : Decidable (CarryLost s) := inferInstanceAs (Decidable (_ ∧ _))

def Fold.value (f : Fold) (s : Nat) : Nat := if f = .shifts ∧ CarryLost s then 0 else residue s

theorem Fold.value_le (f : Fold) (s : Nat) : f.value s ≤ 65535 := by
  unfold Fold.value
  split
  · exact Nat.zero_le _
  · exact residue_le s

variable {v : Variant} {c : ClibIpCsum} {s : Nat} {bs : List (BitVec 8)} {chs : List Chunk} {f : Fold}

theorem halves_modEq : s % 65535 = (s % 2 ^ 32 + s / 2 ^ 32) % 65535 := by omega

theorem residue_halves : residue s = residue (s % 2 ^ 32 + s / 2 ^ 32) :=
  residue_eq_residue_iff.mpr ⟨halves_modEq, by omega⟩

theorem residue_words : residue s = residue (s % 2 ^ 16 + s / 2 ^ 16) := by
  refine residue_eq_residue_iff.mpr ⟨?_, by omega⟩
  unfold Nat.ModEq
  omega

theorem residue_of_le (h : s ≤ 65535) : s = residue s := eq_residue h rfl Iff.rfl

theorem fold_shifts (hs : s < 2 ^ 64) : let a := s % 2 ^ 32 + s / 2 ^ 32
    let b := a % 2 ^ 16 + a / 2 ^ 16
    (b % 2 ^ 16 + b / 2 ^ 16) % 2 ^ 16 = Fold.value .shifts s := by
  intro a b
  have ha : a ≤ 2 ^ 33 - 2 := by omega
  have hlost : CarryLost s ↔ b = 131071 := by
    rw [CarryLost, halves_modEq]
    constructor
    · omega
    · omega
  by_cases h : b = 131071
  · rw [Fold.value, if_pos ⟨rfl, hlost.mpr h⟩, h]
    rfl
  · have hle : b % 2 ^ 16 + b / 2 ^ 16 ≤ 65535 := by
      omega
    rw [Fold.value, if_neg (fun hl => h (hlost.mp hl.2)), residue_halves, residue_words,
      residue_words, ← residue_of_le hle, mod_eq_of_lt (by omega)]

theorem fold_bmi2 (hs : s < 2 ^ 64) : let a := s % 2 ^ 32 + s / 2 ^ 32
    let r := a % 2 ^ 32
    let b := r % 2 ^ 16 + r / 2 ^ 16 + a / 2 ^ 32
    (b % 2 ^ 16 + b / 2 ^ 16) % 2 ^ 16 = Fold.value .bmi2 s := by
  intro a r b
  have hab : residue a = residue b := by
    refine residue_eq_residue_iff.mpr ⟨?_, by omega⟩
    unfold Nat.ModEq
    omega
  have hle : b % 2 ^ 16 + b / 2 ^ 16 ≤ 65535 := by
    omega
  rw [Fold.value, if_neg (fun h => nomatch h.1), residue_halves]
  rw [hab, residue_words, ← residue_of_le hle, mod_eq_of_lt (by omega)]

theorem adc_spec {w : Nat} {x y : BitVec w} {cf : Bool} :
    (adc x y cf).1.toNat = (x.toNat + y.toNat + cf.toNat) % 2 ^ w ∧
      (adc x y cf).2.toNat = (x.toNat + y.toNat + cf.toNat) / 2 ^ w := by
  have hc : cf.toNat ≤ 1 := Bool.toNat_le cf
  constructor
  · simp only [adc, BitVec.toNat_add, BitVec.toNat_ofNat, add_mod, mod_mod]
  by_cases h : 2 ^ w ≤ x.toNat + y.toNat + cf.toNat
  · simp only [adc, h, decide_true, Bool.toNat_true]
    exact (Nat.div_eq_of_lt_le (by omega) (by omega)).symm
  · simp only [adc, h]
    exact (div_eq_of_lt (by omega)).symm

theorem toNat_clibIpCsumFold : (clibIpCsumFold f c).toNat = 65535 - f.value c.sum.toNat := by
  have hs := c.sum.isLt
  cases f with
  | shifts =>
    rw [← fold_shifts hs]
    simp only [clibIpCsumFold, BitVec.toNat_not, BitVec.toNat_setWidth, BitVec.toNat_add,
      BitVec.toNat_ushiftRight, shiftRight_eq_div_pow]
    omega
  | bmi2 =>
    -- the three additions in turn
    obtain ⟨h1, hc1⟩ := adc_spec
    rw [← fold_bmi2 hs]
    simp only [clibIpCsumFold]
    generalize adc ((c.sum >>> 32).setWidth 32) (c.sum.setWidth 32) false = r1 at h1 hc1 ⊢
    obtain ⟨h2, hc2⟩ := adc_spec
    generalize adc (r1.1.setWidth 16) ((r1.1 >>> 16).setWidth 16) r1.2 = r2 at h2 hc2 ⊢
    obtain ⟨h3, -⟩ := adc_spec
    simp only [BitVec.toNat_setWidth, BitVec.toNat_ushiftRight, shiftRight_eq_div_pow,
      Bool.toNat_false, add_zero] at h1 hc1 h2 hc2 h3
    have hhigh : c.sum.toNat / 2 ^ 32 % 2 ^ 32 = c.sum.toNat / 2 ^ 32 := by omega
    rw [hhigh, add_comm] at h1 hc1
    rw [hc1, h1] at h2 hc2
    have hword : ∀ a, a % 2 ^ 32 / 2 ^ 16 % 2 ^ 16 = a % 2 ^ 32 / 2 ^ 16 := by omega
    rw [hword] at h2 hc2
    rw [BitVec.toNat_not, h3, h2, hc2, show (0 : BitVec 16).toNat = 0 from rfl, add_zero]

/-! ## One chunk after the other -/

/-- A chunk that is not empty, of at most 65535 bytes: the memory it lies in and its place there, and
where it is to be copied, if it is. -/
structure Chunk where
  mem : Nat → BitVec 8
  src : Nat
  count : Nat
  isCopy : Bool
  dst : Nat
  pos : 0 < count
  le : count ≤ 65535

def Chunk.bytes (ch : Chunk) : List (BitVec 8) := bytesAt ch.mem ch.src ch.count

/-- Feed a chunk through `clib_ip_csum_chunk` or `clib_ip_csum_and_copy_chunk`. -/
def feed (v : Variant) (c : ClibIpCsum) (ch : Chunk) : ClibIpCsum × List (Nat × BitVec 8) :=
  if ch.isCopy then clibIpCsumAndCopyChunk v ch.mem c ch.src ch.dst ch.count
  else clibIpCsumChunk v ch.mem c ch.src ch.count

def parity (odd : Bool) (ch : Chunk) : Bool × Unit := (odd ^^ (ch.count % 2 == 1), ())

def Variant.wordSum (v : Variant) : Bool → List Chunk → Nat
  | _, [] => 0
  | odd, ch :: chs => v.chunkSum odd ch.mem ch.src ch.count + v.wordSum (parity odd ch).1 chs

theorem feed_eq {ch : Chunk} :
    feed v c ch = (⟨c.sum + BitVec.ofNat 64 (v.chunkSum c.odd ch.mem ch.src ch.count),
      (parity c.odd ch).1⟩,
      if ch.isCopy then v.chunkStores c.odd ch.mem ch.src ch.count ch.dst else []) := by
  unfold feed clibIpCsumAndCopyChunk clibIpCsumChunk
  split <;> rw [clibIpCsumInline_eq _ _ v c _ _ ch.pos ch.le]
  · rfl
  · rfl

/-- **The sum after all chunks.** -/
theorem sum_after_feed : (after (feed v) c chs).sum = c.sum + BitVec.ofNat 64 (v.wordSum c.odd chs) := by
  induction chs generalizing c with
  | nil => exact (BitVec.add_zero _).symm
  | cons ch chs ih =>
    rw [after, ih, feed_eq, Variant.wordSum, BitVec.ofNat_add, BitVec.add_assoc]

theorem swap_residue :
    residue (digitSum 2 0 bs) % 256 * 256 + residue (digitSum 2 0 bs) / 256 =
      residue (digitSum 2 1 bs) := by
  have hle := residue_le (digitSum 2 0 bs)
  have hz := @residue_eq_zero (digitSum 2 0 bs)
  have hmul := ((residue_modEq (digitSum 2 0 bs)).mul_left 256).trans (mul_digitSum_modEq 0)
  apply eq_residue
  · omega
  · refine Nat.ModEq.trans ?_ hmul
    unfold Nat.ModEq
    omega
  · rw [digitSum_eq_zero] at hz ⊢
    rw [← hz]
    omega

theorem toNat_rfc1071 : (rfc1071 bs).toNat = 65535 - residue (digitSum 2 1 bs) := by
  have hle := residue_le (digitSum 2 1 bs)
  rw [rfc1071, BitVec.toNat_not, BitVec.toNat_ofNat, onesSum_eq_residue netWords_lt, sum_netWords,
    mod_eq_of_lt (by omega)]

theorem fold_eq_rfc1071_iff :
    swapBytes (clibIpCsumFold f c) = rfc1071 bs ↔
      f.value c.sum.toNat = residue (digitSum 2 0 bs) := by
  have hval := f.value_le c.sum.toNat
  have hres := residue_le (digitSum 2 0 bs)
  rw [← BitVec.toNat_inj, toNat_swapBytes_16, toNat_clibIpCsumFold, toNat_rfc1071, ← swap_residue]
  omega

/-! ## All words -/

/-- The words of the vector at `off` in each 512-byte step of `n` bytes at `s`; only the 512-bit variants take
such steps. -/
def Variant.vectorSum (v : Variant) (off : Nat) (mem : Nat → BitVec 8) (s n : Nat) : Nat :=
  match v with
  | .vec512 _ => ((List.range (n / 512)).map fun q =>
      digitSum 2 0 (bytesAt mem (s + q * 512 + off) 64)).sum
  | _ => 0

/-- The same for chunks: a word begins at the first byte of a chunk, or after an odd one at the second. -/
def Variant.vectorSums (v : Variant) (off : Nat) : Bool → List Chunk → Nat
  | _, [] => 0
  | odd, ch :: chs => v.vectorSum off ch.mem (ch.src + odd.toNat) (ch.count - odd.toNat) +
      v.vectorSums off (parity odd ch).1 chs

section Words

variable (mem : Nat → BitVec 8)

/-- **A 512-byte step** adds the vector behind it for the one at 256. -/
theorem adding_stride512 (s : Nat) :
    stride512.adding mem s + digitSum 2 0 (bytesAt mem (s + 256) 64) ≡
      digitSum 2 0 (bytesAt mem s 512) + digitSum 2 0 (bytesAt mem (s + 512) 64) [MOD 65535] := by
  have hwords := fun p n => @digitSum_modEq (bytesAt mem p n) 4 (by decide) 0
  have hsum := @Stride.adding_perm mem stride512 4 8 8 (by decide) s
  simp only [stride512, Nat.reduceMul] at hsum
  have h := (hwords s 512).add (hwords (s + 512) 64)
  rw [← hsum] at h
  exact ((hwords _ _).symm.add_left _).trans h

theorem steps_modEq (s c : Nat) :
    ((List.range c).map fun q => stride512.adding mem (s + q * 512)).sum +
        ((List.range c).map fun q => digitSum 2 0 (bytesAt mem (s + q * 512 + 256) 64)).sum ≡
      digitSum 2 0 (bytesAt mem s (c * 512)) +
        ((List.range c).map fun q => digitSum 2 0 (bytesAt mem (s + q * 512 + 512) 64)).sum
      [MOD 65535] := by
  induction c with
  | zero => simp [bytesAt, Nat.ModEq]
  | succ c ih =>
    have hstep := ih.add (adding_stride512 mem (s + c * 512))
    rw [Nat.add_one_mul, digitSum_bytesAt_add (Dvd.dvd.mul_left (by decide) c)]
    simp only [range_succ, map_append, List.sum_append, map_singleton, sum_singleton]
    rw [add_add_add_comm, add_add_add_comm (digitSum 2 0 (bytesAt mem s (c * 512)))]
    exact hstep

theorem wideSum_modEq (s n : Nat) :
    v.wideSum mem s n + v.vectorSum 256 mem s n ≡
      digitSum 2 0 (bytesAt mem s (n / v.step * v.step)) + v.vectorSum 512 mem s n [MOD 65535] := by
  have hwords := fun p n => @digitSum_modEq (bytesAt mem p n) 4 (by decide) 0
  match v with
  | .vec512 _ =>
    have hsplit : n / 64 * 64 = n / 512 * 512 + n % 512 / 64 * 64 := by omega
    have h := (steps_modEq mem s (n / 512)).add (hwords (s + n / 512 * 512) (n % 512 / 64 * 64))
    rw [Variant.step, hsplit, digitSum_bytesAt_add (Dvd.dvd.mul_left (by decide) _)]
    rw [add_right_comm, add_right_comm (digitSum 2 0 _)] at h
    exact h
  | .vec256 _ | .vec128 | .scalar => exact (hwords _ _).add_right _

/-- **The words of a chunk**, wide or not, add up to its 16-bit words but for these vectors. -/
theorem bodySum_modEq (s n : Nat) :
    v.bodySum mem s n + v.vectorSum 256 mem s n ≡
      digitSum 2 0 (bytesAt mem s n) + v.vectorSum 512 mem s n [MOD 65535] := by
  have htail : 2 ∣ v.tailWord ∧ 2 ∣ v.step := by
    match v with
    | .vec512 true | .vec512 false | .vec256 true | .vec256 false | .vec128 | .scalar => decide
  have h := (wideSum_modEq (v := v) mem s n).add (@digitSum_modEq
    (bytesAt mem (s + n / v.step * v.step) (n % v.step)) _ htail.1 0)
  have hsplit := digitSum_bytesAt_add (Dvd.dvd.mul_left htail.2 (n / v.step)) mem s (n % v.step)
  rw [div_add_mod'] at hsplit
  rw [hsplit, Variant.bodySum]
  rw [add_right_comm, add_right_comm (digitSum 2 0 _)] at h
  exact h

theorem chunkSum_modEq (odd : Bool) (src : Nat) {count : Nat} (hpos : 0 < count) :
    v.chunkSum odd mem src count + v.vectorSum 256 mem (src + odd.toNat) (count - odd.toNat) ≡
      digitSum 2 odd.toNat (bytesAt mem src count) +
        v.vectorSum 512 mem (src + odd.toNat) (count - odd.toNat) [MOD 65535] := by
  cases odd with
  | false => exact bodySum_modEq mem src count
  | true =>
    obtain ⟨n, rfl⟩ := exists_eq_succ_of_ne_zero hpos.ne'
    have hsplit : digitSum 2 1 (bytesAt mem src (n + 1)) =
        (mem src).toNat * 256 + digitSum 2 0 (bytesAt mem (src + 1) n) := by
      have hrest : digitSum 2 (1 + 1) (bytesAt mem (src + 1) n) =
          digitSum 2 0 (bytesAt mem (src + 1) n) := digitSum_of_mod_eq rfl
      rw [add_comm n, bytesAt_add, digitSum_append, length_bytesAt, hrest]
      simp [bytesAt]
    rw [Variant.chunkSum, if_pos rfl, Bool.toNat_true, hsplit, succ_eq_add_one, Nat.add_sub_cancel,
      add_assoc, add_assoc]
    exact (bodySum_modEq mem (src + 1) n).add_left _

end Words

/-! ## Copies -/

/-- The lengths that a variant copies: the 64-byte loop moves `dst` too far, and a masked store writes 32-bit
lanes for a mask of bytes. -/
def Variant.Fits (v : Variant) (n : Nat) : Prop :=
  match v with
  | .vec512 true => n % 512 = 0 ∨ n % 512 = 64
  | .vec512 false => n % 512 ≤ 64
  | .vec256 true => n % 32 = 0
  | _ => True

instance nontrivialByte : Nontrivial (BitVec 8) := ⟨0#8, 1#8, by decide⟩

section Copies

variable {mem : Nat → BitVec 8} {s n x : Nat}

theorem copies_wide_tail (w : Nat) :
    Copies ((stretch x (n / w * w) fun j => mem (s + j)) ++
      stretch (x + n / w * w) (n % w) fun j => mem (s + n / w * w + j)) x n
      fun j => mem (s + j) := by
  have hadd := stretch_add x (n / w * w) (n % w) fun j => mem (s + j)
  rw [div_add_mod'] at hadd
  simp only [add_assoc] at hadd ⊢
  rw [← hadd]
  exact copies_stretch _ _ _

theorem copies_vec256_true :
    Copies ((Variant.vec256 true).bodyStores mem s n x) x n (fun j => mem (s + j)) ↔ n % 32 = 0 := by
  have hbody : (Variant.vec256 true).bodyStores mem s n x =
      (stretch x (n / 32 * 32) fun j => mem (s + j)) ++ stretch (x + n / 32 * 32)
        (min (n % 32) 8 * 4) fun j =>
          maskLoadZero mem (s + n / 32 * 32) (2 ^ (n % 32) - 1) (s + n / 32 * 32 + j) := rfl
  rw [hbody]
  constructor
  · intro h
    by_contra hpos
    refine not_copies_of_stray (a := x + n) ?_ (by omega) h
    rw [map_append, mem_append, mem_stretch, mem_stretch]
    omega
  · intro h
    have := @copies_wide_tail mem s n x 32
    rw [h] at this ⊢
    exact this

theorem mem_strays {a b p : Nat} :
    a ∈ ((List.range b).flatMap fun q => stretch (p + q * 512) 64 fun j =>
      mem (s + q * 64 + j)).map Prod.fst ↔ ∃ q < b, p + q * 512 ≤ a ∧ a < p + q * 512 + 64 := by
  simp only [map_flatMap, mem_flatMap, mem_range, mem_stretch]

theorem mem_tailStores_vec512 {mask : Bool} {a p q t : Nat} :
    a ∈ ((Variant.vec512 mask).tailStores mem p t q).map Prod.fst ↔
      q ≤ a ∧ a < q + if mask then min t 16 * 4 else t := by
  cases mask <;> exact mem_stretch

theorem bodyStores_vec512_of_fits {mask : Bool} (h : (Variant.vec512 mask).Fits n) :
    (Variant.vec512 mask).bodyStores mem s n x = (stretch x (n / 512 * 512) fun j => mem (s + j)) ++
      stretch (x + n / 512 * 512) (n % 512) fun j => mem (s + n / 512 * 512 + j) := by
  by_cases hone : n % 512 = 64
  · have htail : n % 64 = 0 := by omega
    have hnil : ∀ p q, (Variant.vec512 mask).tailStores mem p 0 q = [] := fun p q => by
      cases mask <;> rfl
    simp only [Variant.bodyStores, Variant.wideStores, Variant.step, htail, hnil, hone,
      show 64 / 64 = 1 from rfl, append_nil, range_one, flatMap_singleton,
      Nat.zero_mul, add_zero]
  · have hturns : n % 512 / 64 = 0 := by
      cases mask <;> simp only [Variant.Fits] at h <;> omega
    have htail : n % 64 = n % 512 := by omega
    have hat : n / 64 * 64 = n / 512 * 512 := by omega
    have htails : ∀ p q, (Variant.vec512 mask).tailStores mem p (n % 512) q =
        stretch q (n % 512) fun j => mem (p + j) := fun p q => by
      cases mask with
      | true =>
        have hzero : n % 512 = 0 := h.resolve_right hone
        rw [hzero]
        rfl
      | false => rfl
    simp only [Variant.bodyStores, Variant.wideStores, Variant.step, Variant.tailAt, hturns, htail,
      hat, htails, range_zero, flatMap_nil, append_nil, Nat.zero_mul, add_zero]

theorem copies_vec512 {mask : Bool} :
    Copies ((Variant.vec512 mask).bodyStores mem s n x) x n (fun j => mem (s + j)) ↔
      (Variant.vec512 mask).Fits n := by
  constructor
  · intro h
    by_contra hfit
    have hstray : ∀ a ∈ ((Variant.vec512 mask).bodyStores mem s n x).map Prod.fst, a < x + n :=
      fun a ha => Nat.lt_of_not_le fun hge => not_copies_of_stray ha (by omega) h
    simp only [Variant.bodyStores, Variant.wideStores, Variant.tailAt, Variant.step,
      map_append, mem_append, mem_strays, mem_tailStores_vec512] at hstray
    by_cases htwo : 2 ≤ n % 512 / 64
    · have := hstray (x + n / 512 * 512 + 512) (.inl (.inr ⟨1, htwo, by omega, by omega⟩))
      omega
    -- the tail is not empty, and it is stored past the end or, as lanes, over more than it is
    cases mask with
    | true =>
      simp only [Variant.Fits, if_true] at hfit hstray
      by_cases hone : n % 512 / 64 = 1
      · have := hstray (x + (n / 512 * 512 + 512)) (.inr (by omega))
        omega
      · have := hstray (x + n) (.inr (by omega))
        omega
    | false =>
      simp only [Variant.Fits, if_false, Bool.false_eq_true] at hfit hstray
      have := hstray (x + (n / 512 * 512 + 512)) (.inr (by omega))
      omega
  · intro h
    rw [bodyStores_vec512_of_fits h]
    exact copies_wide_tail 512

theorem copies_bodyStores : Copies (v.bodyStores mem s n x) x n (fun j => mem (s + j)) ↔ v.Fits n := by
  match v with
  | .vec512 mask => exact copies_vec512
  | .vec256 true => exact copies_vec256_true
  | .vec256 false => exact iff_of_true (copies_wide_tail 32) trivial
  | .vec128 => exact iff_of_true (copies_wide_tail 16) trivial
  | .scalar => exact iff_of_true (copies_wide_tail 4) trivial

theorem le_of_mem_bodyStores {a : Nat} (h : a ∈ (v.bodyStores mem s n x).map Prod.fst) : x ≤ a := by
  have htail : ∀ {p t q}, a ∈ (v.tailStores mem p t q).map Prod.fst → q ≤ a := by
    intro p t q ha
    match v with
    | .vec512 true | .vec512 false | .vec256 true | .vec256 false | .vec128 | .scalar =>
      exact (mem_stretch.mp ha).1
  have hwide : a ∈ (v.wideStores mem s n x).map Prod.fst → x ≤ a := by
    intro ha
    match v with
    | .vec512 _ =>
      rw [Variant.wideStores, map_append, mem_append, mem_stretch, mem_strays] at ha
      rcases ha with ha | ⟨q, -, ha⟩ <;> omega
    | .vec256 _ | .vec128 | .scalar => exact (mem_stretch.mp ha).1
  have hat : x ≤ v.tailAt n x := by
    cases v <;> exact Nat.le_add_right _ _
  rw [Variant.bodyStores, map_append, mem_append] at h
  exact h.elim hwide fun ha => hat.trans (htail ha)

/-- **The copy of a chunk** is exact just if the loops copy its length and, after an odd number of
bytes, its first two bytes are equal. -/
theorem copies_chunkStores {odd : Bool} {src dst count : Nat} (hpos : 0 < count) :
    Copies (v.chunkStores odd mem src count dst) dst count (fun j => mem (src + j)) ↔
      (odd = true → mem (src + 1) = mem src) ∧ v.Fits (count - odd.toNat) := by
  cases odd with
  | false => simp [Variant.chunkStores, copies_bodyStores]
  | true =>
    obtain ⟨k, rfl⟩ := exists_eq_succ_of_ne_zero hpos.ne'
    have hnot : dst ∉ (v.bodyStores mem (src + 1) k (dst + 1)).map Prod.fst := fun h =>
      absurd (le_of_mem_bodyStores h) (by omega)
    have hshift : (fun j => mem (src + (j + 1))) = fun j => mem (src + 1 + j) :=
      funext fun j => congrArg mem (by omega)
    rw [Variant.chunkStores, if_pos rfl, succ_sub_one, copies_cons hnot, hshift, copies_bodyStores]
    simp

end Copies

/-! ## The whole string -/

/-- The checksum of the chunks is the one of the string they spell. -/
def SumRight (v : Variant) (f : Fold) (chs : List Chunk) : Prop :=
  swapBytes (clibIpCsumFold f (after (feed v) ⟨0, false⟩ chs)) = rfc1071 (chs.flatMap Chunk.bytes)

/-- A chunk that is copied is copied exactly, and nothing else is written. -/
def CopyRight (v : Variant) (c : ClibIpCsum) (ch : Chunk) : Prop :=
  ch.isCopy = true →
    Copies (feed v c ch).2 ch.dst ch.count fun j => ch.mem (ch.src + j)

/-- What the checksum needs: if the fold loses a carry, that the string is all zeros. If not, the vectors added
for others, and each time that the sum of the words wraps, make no difference to the words modulo `2 ^ 16 - 1`;
and the sum is 0 just for zeros. -/
def SumHolds (v : Variant) (f : Fold) (chs : List Chunk) : Prop :=
  let s := v.wordSum false chs
  let zeros := ∀ b ∈ chs.flatMap Chunk.bytes, b = 0#8
  if f = .shifts ∧ CarryLost (s % 2 ^ 64) then zeros
  else v.vectorSums 512 false chs ≡ v.vectorSums 256 false chs + s / 2 ^ 64 [MOD 65535] ∧
    (s % 2 ^ 64 = 0 ↔ zeros)

def CopyHolds (v : Variant) (odd : Bool) (ch : Chunk) : Prop :=
  ch.isCopy = true →
    (odd = true → ch.mem (ch.src + 1) = ch.mem ch.src) ∧ v.Fits (ch.count - odd.toNat)

/-- **The words of all chunks.** -/
theorem wordSum_modEq (odd : Bool) :
    v.wordSum odd chs + v.vectorSums 256 odd chs ≡
      digitSum 2 odd.toNat (chs.flatMap Chunk.bytes) + v.vectorSums 512 odd chs [MOD 65535] := by
  induction chs generalizing odd with
  | nil => rfl
  | cons ch chs ih =>
    have hnext : digitSum 2 (odd.toNat + ch.bytes.length) (chs.flatMap Chunk.bytes) =
        digitSum 2 (parity odd ch).1.toNat (chs.flatMap Chunk.bytes) := by
      refine digitSum_of_mod_eq ?_
      rw [Chunk.bytes, length_bytesAt, parity]
      rcases Nat.mod_two_eq_zero_or_one ch.count with h | h <;> cases odd <;> simp [h] <;> omega
    have h := (chunkSum_modEq (v := v) ch.mem odd ch.src ch.pos).add (ih (parity odd ch).1)
    rw [flatMap_cons, digitSum_append, hnext, Variant.wordSum, Variant.vectorSums, Variant.vectorSums,
      add_add_add_comm, add_add_add_comm (digitSum 2 _ ch.bytes)]
    exact h

theorem sumRight_iff : SumRight v f chs ↔ SumHolds v f chs := by
  have hsum : (after (feed v) ⟨0, false⟩ chs).sum.toNat = v.wordSum false chs % 2 ^ 64 := by
    rw [sum_after_feed]
    simp
  rw [SumRight, fold_eq_rfc1071_iff, hsum, Fold.value, SumHolds]
  have hall := @wordSum_modEq v chs false
  rw [Bool.toNat_false] at hall
  rw [← @digitSum_eq_zero _ 2 0]
  split
  · rw [eq_comm, residue_eq_zero]
  · rw [residue_eq_residue_iff]
    refine and_congr_left' ?_
    unfold Nat.ModEq at hall ⊢
    omega

theorem copyRight_iff {ch : Chunk} : CopyRight v c ch ↔ CopyHolds v c.odd ch := by
  refine forall_congr' fun hcopy => ?_
  rw [feed_eq, if_pos hcopy]
  exact copies_chunkStores ch.pos

theorem along_copyRight_iff : Along (feed v) (CopyRight v) c chs ↔ Along parity (CopyHolds v) c.odd chs := by
  induction chs generalizing c with
  | nil => exact Iff.rfl
  | cons ch chs ih =>
    have hodd : (feed v c ch).1.odd = (parity c.odd ch).1 := by rw [feed_eq]
    rw [Along, Along, copyRight_iff, ih, hodd]

/-- **Chunked checksum.** The checksum is the RFC 1071 checksum of the string and all copies are exact just if
the words keep their end-around sum and the loops copy each chunk. -/
theorem chunked_checksum_iff (v : Variant) (f : Fold) (chs : List Chunk) :
    SumRight v f chs ∧ Along (feed v) (CopyRight v) ⟨0, false⟩ chs ↔
      SumHolds v f chs ∧ Along parity (CopyHolds v) false chs :=
  and_congr sumRight_iff along_copyRight_iff

/-- Three bytes, then 65 that are copied: a vector behind a byte that completes a word. -/
def threeThenVector : List Chunk :=
  [⟨fun a => BitVec.ofNat 8 (a / 2), 0, 3, false, 0, succ_pos 2, by decide⟩,
    ⟨fun a => BitVec.ofNat 8 (a / 2), 4, 65, true, 100, succ_pos 64, by decide⟩]

theorem chunked_checksum_threeThenVector :
    SumRight (.vec512 true) .shifts threeThenVector ∧
      Along (feed (.vec512 true)) (CopyRight (.vec512 true)) ⟨0, false⟩ threeThenVector := by
  refine (chunked_checksum_iff _ _ _).mpr ⟨?_, fun h => absurd h Bool.false_ne_true, fun _ => ?_, trivial⟩
  · rw [SumHolds]
    decide +kernel
  · exact ⟨fun _ => rfl, .inr rfl⟩

def zeros : Chunk := ⟨fun a => if a = 512 then 1#8 else 0#8, 0, 512, false, 0, by decide, by decide⟩

def oneThenTwo : List Chunk :=
  [⟨fun a => BitVec.ofNat 8 (a + 1), 0, 1, false, 0, by decide, by decide⟩,
    ⟨fun a => BitVec.ofNat 8 (a + 1), 1, 2, true, 0, Nat.two_pos, by decide⟩]

/-- The 512-bit variant adds the byte behind the chunk; and after an odd number of bytes every variant copies
the second byte in the place of the first. -/
theorem checksum_of_zeros_and_copy_after_odd :
    ¬ SumRight (.vec512 true) .bmi2 [zeros] ∧
      ∀ v, ¬ Along (feed v) (CopyRight v) ⟨0, false⟩ oneThenTwo := by
  refine ⟨?_, fun v h => ?_⟩
  · rw [SumRight]
    decide +kernel
  · have := copyRight_iff.mp h.2.1 rfl
    rw [feed_eq] at this
    exact absurd (this.1 rfl) (by decide)

end Vpp.Vector
