import Mathlib.Data.List.Sort
import Vpp.Lib.Binary64

/-!
# Load-balance buckets

`ip_multipath_normalize_next_hops` and `load_balance_fill_buckets` of `vnet/dpo/load_balance.c`. The
weights of the paths are turned into numbers of buckets in blocks of growing power-of-two size,
until the rounding error is small or the block has `LB_MAX_BUCKETS` buckets. A path that rounds to no
bucket at all ends the block there: the paths from it on are dropped, and when it is the first path,
nothing is left.
-/

namespace Vpp.Dpo

open Vpp.Lib List BitVec

variable {D : Type*}

/-! ## Normalisation -/

/-- `load_balance_path_t`, with what the path stacks on. -/
structure Path (D : Type*) where
  dpo : D
  weight : BitVec 32
deriving DecidableEq, Repr

def lbMaxBuckets : Nat := 8192

/-- `multipath_next_hop_error_tolerance`, the double nearest to 0.1. -/
def errorTolerance : ℚ := fl (1 / 10)

/-- `next_hop_sort_by_weight`: the weights are cast to `int`. -/
def nextHopSortByWeight (n1 n2 : Path D) : Int := (n1.weight - n2.weight).toInt

def fltRoundNearest (x : ℚ) : Int := F64.toInt (F64.add x (1 / 2))

def maxPow2 (x : Nat) : Nat :=
  let y := 2 ^ Nat.log2 x
  if y < x then 2 * y else y

/-- The buckets of a block of `nAdj`, path by path: `left` are not given out yet. Stops before the first path
that gets none. Returns the numbers of buckets, what is left, and the error. -/
def assign (nAdj : Nat) (norm : ℚ) : List Nat → Nat → ℚ → List Nat × Nat × ℚ
  | [], left, error => ([], left, error)
  | w :: ws, left, error =>
    let nf := F64.mul (F64.ofNat w) norm
    let n := min (fltRoundNearest nf).toNat left
    let left := left - n
    if n = 0 then ([], left, F64.ofNat nAdj)
    else
      let r := assign nAdj norm ws left (F64.add error |F64.sub nf n|)
      (n :: r.1, r.2)

/-- `nhs[0].path_weight += n_adj_left`, in what remains of the vector. -/
def addToFirst (left : Nat) : List Nat → List Nat
  | [] => []
  | n :: ns => (n + left) :: ns

/-- The pass over the weights for a block of `nAdj`. -/
def pass (ws : List Nat) (sumWeight nAdj : Nat) : List Nat × Nat × ℚ :=
  assign nAdj (F64.div (F64.ofNat nAdj) (F64.ofNat sumWeight)) ws nAdj 0

/-- One block size: the normalised weights and whether the block is taken. -/
def block (ws : List Nat) (sumWeight nAdj : Nat) : List Nat × Bool :=
  let r := pass ws sumWeight nAdj
  (addToFirst r.2.1 r.1,
    decide (r.2.2 ≤ F64.mul errorTolerance (F64.ofNat nAdj)) || decide (lbMaxBuckets ≤ nAdj))

/-- Larger and larger blocks, doubled at most as often as the first argument says; the block of
`LB_MAX_BUCKETS` is always taken. -/
def growBlock (ws : List Nat) (sumWeight : Nat) : Nat → Nat → List Nat × Nat
  | 0, nAdj => ((block ws sumWeight nAdj).1, nAdj)
  | k + 1, nAdj =>
    let r := block ws sumWeight nAdj
    if r.2 then (r.1, nAdj) else growBlock ws sumWeight k (2 * nAdj)

structure Normal (D : Type*) where
  nhs : List (Path D)
  nAdj : Nat

def total (nhs : List (Path D)) : Nat := (nhs.map fun p => p.weight.toNat).sum

/-- The sorted paths with the weights of the block found for them. -/
def normalizeSorted (nhs : List (Path D)) : Normal D :=
  -- all weights zero counts as all weights one
  let ws := if total nhs = 0 then nhs.map fun _ => 1 else nhs.map fun p => p.weight.toNat
  let sumWeight := if total nhs = 0 then nhs.length else total nhs
  let r := growBlock ws sumWeight 13 (min (maxPow2 nhs.length) lbMaxBuckets)
  ⟨List.zipWith (fun p n => { p with weight := BitVec.ofNat 32 n }) nhs r.1, r.2⟩

def normalizePair (p q : Path D) : Normal D :=
  if p.weight = q.weight then ⟨[{ p with weight := 1#32 }, { q with weight := 1#32 }], 2⟩
  else normalizeSorted [p, q]

def normalizeNextHops : List (Path D) → Normal D
  | [] => ⟨[], 0⟩
  | [p] => ⟨[{ p with weight := 1#32 }], 1⟩
  | [p, q] => if nextHopSortByWeight p q < 0 then normalizePair q p else normalizePair p q
  | raw => normalizeSorted (raw.mergeSort fun a b => nextHopSortByWeight a b ≤ 0)

/-! ## Filling the buckets -/

/-- The bucket index, the buckets and the next forwarding path to stand in. -/
structure Fill (D : Type*) where
  bucket : BitVec 16
  buckets : Nat → Option D
  fpath : BitVec 16

/-- `load_balance_set_bucket_i` at the next bucket. -/
def Fill.put (f : Fill D) (dpo : D) : Fill D :=
  { f with bucket := f.bucket + 1#16, buckets := Function.update f.buckets f.bucket.toNat (some dpo) }

/-- The inner loop of both fill functions: `n` buckets for one path. -/
def Fill.repeat (turn : Fill D → Fill D) : Nat → Fill D → Fill D
  | 0, f => f
  | n + 1, f => Fill.repeat turn n (turn f)

def fillBucketsNorm (nhs : List (Path D)) (f : Fill D) : Fill D :=
  nhs.foldl (fun f nh => f.repeat (fun f => f.put nh.dpo) nh.weight.toNat) f

def fwdingPaths (isDrop : D → Bool) (nhs : List (Path D)) : List (Path D) :=
  if nhs.filter (fun nh => !isDrop nh.dpo) = [] then nhs else nhs.filter fun nh => !isDrop nh.dpo

/-- One bucket of `load_balance_fill_buckets_sticky`. -/
def stickyTurn (isDrop : D → Bool) (fwding : List (Path D)) (nh : Path D) (f : Fill D) : Fill D :=
  if isDrop nh.dpo then
    { f.put (fwding.getD f.fpath.toNat nh).dpo with
      fpath := BitVec.ofNat 16 ((f.fpath.toNat + 1) % fwding.length) }
  else f.put nh.dpo

def fillBucketsSticky (isDrop : D → Bool) (nhs : List (Path D)) (f : Fill D) : Fill D :=
  nhs.foldl (fun f nh => f.repeat (stickyTurn isDrop (fwdingPaths isDrop nhs) nh) nh.weight.toNat) f

/-- `load_balance_fill_buckets` into buckets that hold nothing yet. -/
def fillBuckets (isDrop : D → Bool) (sticky : Bool) (nhs : List (Path D)) : Fill D :=
  let f : Fill D := ⟨0#16, fun _ => none, 0#16⟩
  if sticky then fillBucketsSticky isDrop nhs f else fillBucketsNorm nhs f

/-! ## Blocks -/

/-- The number of buckets that weight `w` of `sumWeight` rounds to in a block of `nAdj`. -/
def share (sumWeight nAdj w : Nat) : Int :=
  fltRoundNearest (F64.mul (F64.ofNat w) (F64.div (F64.ofNat nAdj) (F64.ofNat sumWeight)))

variable {sumWeight nAdj n : Nat} {error : ℚ}

theorem assign_spec (norm : ℚ) (ws : List Nat) (left : Nat) (error : ℚ) :
    (assign nAdj norm ws left error).1.sum + (assign nAdj norm ws left error).2.1 = left ∧
      (∀ n ∈ (assign nAdj norm ws left error).1, 0 < n) ∧
      (assign nAdj norm ws left error).1.length ≤ ws.length := by
  induction ws generalizing left error with
  | nil => exact ⟨zero_add _, (fun _ h => nomatch h), le_refl _⟩
  | cons w ws ih =>
    simp only [assign]
    have hle : min (fltRoundNearest (F64.mul (F64.ofNat w) norm)).toNat left ≤ left :=
      min_le_right ..
    generalize min (fltRoundNearest (F64.mul (F64.ofNat w) norm)).toNat left = n at hle
    split
    · rename_i h0
      subst h0
      exact ⟨zero_add _, (fun _ h => nomatch h), Nat.zero_le _⟩
    obtain ⟨hsum, hpos, hlen⟩ :=
      ih (left - n) (F64.add error |F64.sub (F64.mul (F64.ofNat w) norm) n|)
    refine ⟨?_, ?_, Nat.succ_le_succ hlen⟩
    · rw [sum_cons, add_assoc, hsum]
      omega
    · exact forall_mem_cons.mpr ⟨by omega, hpos⟩

variable {w left : Nat} {ws ns : List Nat} {nhs : List (Path D)} {p q : Path D} {f : Fill D}
  {ds : List D} {inv : Fill D → Prop} {good : Path D → D → Prop} {isDrop : D → Bool}

theorem assign_eq_nil {norm : ℚ} (hleft : 0 < left) (h : (assign nAdj norm (w :: ws) left error).1 = []) :
    fltRoundNearest (F64.mul (F64.ofNat w) norm) ≤ 0 ∧
      (assign nAdj norm (w :: ws) left error).2.2 = F64.ofNat nAdj := by
  simp only [assign] at h ⊢
  split at h
  · rename_i h0
    rw [if_pos h0]
    exact ⟨by omega, rfl⟩
  · cases h

theorem sum_addToFirst (h : ns ≠ []) : (addToFirst left ns).sum = ns.sum + left := by
  cases ns with
  | nil => exact absurd rfl h
  | cons n ns =>
    simp only [addToFirst, sum_cons]
    omega

theorem errorTolerance_small {x : ℚ} (hx : 0 < x) : F64.mul errorTolerance x < x := by
  have htol : errorTolerance ≤ 2 * (1 / 10) := (fl_bounds (by norm_num)).2
  have hpos : 0 < errorTolerance := fl_pos (by norm_num)
  have hmul : F64.mul errorTolerance x ≤ 2 * (errorTolerance * x) := (fl_bounds (by positivity)).2
  nlinarith

theorem ofNat_pos (h : 0 < n) : 0 < F64.ofNat n := fl_pos (by exact_mod_cast h)

/-- The weights of a block of `nAdj`: each path has some, and together they fill it. -/
structure Fills (ns : List Nat) (nAdj : Nat) : Prop where
  ne_nil : ns ≠ []
  sum_eq : ns.sum = nAdj
  pos : ∀ n ∈ ns, 0 < n

/-- A block is filled unless its first path gets no bucket; such a block is only taken at the maximum size. -/
theorem block_spec (hpos : 0 < nAdj) :
    Fills (block (w :: ws) sumWeight nAdj).1 nAdj ∨
      share sumWeight nAdj w ≤ 0 ∧
        ((block (w :: ws) sumWeight nAdj).2 = true → lbMaxBuckets ≤ nAdj) := by
  have hspec : (pass (w :: ws) sumWeight nAdj).1.sum + (pass (w :: ws) sumWeight nAdj).2.1 = nAdj ∧
      ∀ n ∈ (pass (w :: ws) sumWeight nAdj).1, 0 < n :=
    (assign_spec ..).imp_right And.left
  have hempty : (pass (w :: ws) sumWeight nAdj).1 = [] → share sumWeight nAdj w ≤ 0 ∧
      (pass (w :: ws) sumWeight nAdj).2.2 = F64.ofNat nAdj := assign_eq_nil hpos
  unfold block
  dsimp only
  generalize pass (w :: ws) sumWeight nAdj = r at hspec hempty
  obtain ⟨hsum, hall⟩ := hspec
  cases hr : r.1 with
  | nil =>
    -- the error is the whole block, far above the tolerance
    obtain ⟨hshare, herr⟩ := hempty hr
    refine .inr ⟨hshare, fun htaken => ?_⟩
    rw [Bool.or_eq_true, decide_eq_true_eq, decide_eq_true_eq, herr] at htaken
    rcases htaken with hle | hmax
    · exact absurd (errorTolerance_small (ofNat_pos hpos)) (not_lt.mpr hle)
    · exact hmax
  | cons n ns =>
    rw [hr] at hsum hall
    rw [forall_mem_cons] at hall
    refine .inl ⟨cons_ne_nil _ _, by rw [sum_addToFirst (cons_ne_nil _ _), hsum], ?_⟩
    exact forall_mem_cons.mpr ⟨lt_of_lt_of_le hall.1 (Nat.le_add_right ..), hall.2⟩

theorem length_block_le : (block ws sumWeight nAdj).1.length ≤ ws.length := by
  have hlen : (pass ws sumWeight nAdj).1.length ≤ ws.length := (assign_spec ..).2.2
  unfold block
  dsimp only
  cases h : (pass ws sumWeight nAdj).1 with
  | nil => exact Nat.zero_le _
  | cons n ns =>
    rw [h] at hlen
    exact hlen

/-- **The search ends in a filled block** of a power of two of buckets, unless the first path gets
none of `LB_MAX_BUCKETS`. -/
theorem growBlock_spec (hshare : 1 ≤ share sumWeight lbMaxBuckets w) (k j : Nat) (hj : j + k ≥ 13)
    (hj' : j ≤ 13) : let r := growBlock (w :: ws) sumWeight k (2 ^ j)
    Fills r.1 r.2 ∧ r.1.length ≤ (w :: ws).length ∧ ∃ i ≤ 13, r.2 = 2 ^ i := by
  -- a block that is taken is filled
  have htaken : ∀ j ≤ 13, (block (w :: ws) sumWeight (2 ^ j)).2 = true →
      Fills (block (w :: ws) sumWeight (2 ^ j)).1 (2 ^ j) := by
    intro j hj' ht
    rcases block_spec (Nat.two_pow_pos j) with h | ⟨h0, hmax⟩
    · exact h
    have hle := hmax ht
    have hpow : 2 ^ j = lbMaxBuckets :=
      le_antisymm (Nat.pow_le_pow_right (by decide) hj') hle
    rw [hpow] at h0
    omega
  have hlast : (block (w :: ws) sumWeight (2 ^ 13)).2 = true := by
    unfold block
    rw [Bool.or_eq_true]
    exact .inr (by decide)
  induction k generalizing j with
  | zero =>
    obtain rfl : j = 13 := by omega
    exact ⟨htaken 13 hj' hlast, length_block_le .., 13, hj', rfl⟩
  | succ k ih =>
    rw [growBlock]
    split
    · rename_i ht
      exact ⟨htaken j hj' ht, length_block_le .., j, hj', rfl⟩
    rename_i ht
    have hlt : j ≠ 13 := by
      rintro rfl
      exact ht hlast
    rw [← Nat.pow_succ']
    exact ih (j + 1) (by omega) (by omega)

/-! ## Normalised paths -/

/-- What the paths returned with a bucket count have to satisfy. -/
structure Normalized (r : Normal D) : Prop where
  ne_nil : r.nhs ≠ []
  sum_eq : (r.nhs.map fun p => p.weight.toNat).sum = r.nAdj
  pow2 : ∃ k, r.nAdj = 2 ^ k
  le_max : r.nAdj ≤ lbMaxBuckets
  pos : ∀ p ∈ r.nhs, 1 ≤ p.weight.toNat

theorem exists_pow2_start (n : Nat) : ∃ j ≤ 13, min (maxPow2 n) lbMaxBuckets = 2 ^ j := by
  have hpow : ∃ j, maxPow2 n = 2 ^ j := by
    unfold maxPow2
    dsimp only
    split
    · exact ⟨Nat.log2 n + 1, by rw [Nat.pow_succ']⟩
    · exact ⟨Nat.log2 n, rfl⟩
  obtain ⟨j, hj⟩ := hpow
  have hmax : lbMaxBuckets = 2 ^ 13 := rfl
  rw [hj]
  rcases lt_or_ge 13 j with hgt | hle
  · exact ⟨13, le_refl _, min_eq_right (Nat.pow_le_pow_right two_pos (le_of_lt hgt))⟩
  · exact ⟨j, hle, min_eq_left (Nat.pow_le_pow_right two_pos hle)⟩

theorem map_weight_zipWith (hlen : ns.length ≤ nhs.length) (hlt : ∀ n ∈ ns, n < 2 ^ 32) :
    (List.zipWith (fun p n => { p with weight := BitVec.ofNat 32 n }) nhs ns).map
      (fun p : Path D => p.weight.toNat) = ns := by
  induction ns generalizing nhs with
  | nil => rw [zipWith_nil_right, map_nil]
  | cons n ns ih =>
    cases nhs with
    | nil => cases hlen
    | cons p nhs =>
      rw [zipWith_cons_cons, map_cons,
        ih (Nat.le_of_succ_le_succ hlen) fun m hm => hlt m (mem_cons_of_mem _ hm)]
      congr 1
      exact Nat.mod_eq_of_lt (hlt n mem_cons_self)

theorem normalizeSorted_spec (hp : p.weight ≠ 0#32)
    (hshare : 1 ≤ share (total (p :: nhs)) lbMaxBuckets p.weight.toNat) :
    Normalized (normalizeSorted (p :: nhs)) := by
  have htotal : total (p :: nhs) ≠ 0 := by
    have : 0 < p.weight.toNat := pos_of_ne_zero fun h => hp (eq_of_toNat_eq h)
    unfold total
    rw [map_cons, sum_cons]
    omega
  obtain ⟨j, hj, hstart⟩ := exists_pow2_start (p :: nhs).length
  have heq : normalizeSorted (p :: nhs) =
      ⟨List.zipWith (fun p n => { p with weight := BitVec.ofNat 32 n }) (p :: nhs)
        (growBlock ((p :: nhs).map fun p => p.weight.toNat) (total (p :: nhs)) 13 (2 ^ j)).1,
        (growBlock ((p :: nhs).map fun p => p.weight.toNat) (total (p :: nhs)) 13 (2 ^ j)).2⟩ := by
    simp only [normalizeSorted, if_neg htotal, hstart]
  obtain ⟨hfills, hlen, i, hi, hpow⟩ :=
    growBlock_spec hshare 13 j (by omega) hj
  rw [heq]
  rw [map_cons]
  generalize growBlock (p.weight.toNat :: nhs.map fun p => p.weight.toNat) (total (p :: nhs)) 13
    (2 ^ j) = r at hfills hlen hpow
  have hmax : r.2 ≤ lbMaxBuckets := by
    rw [hpow]
    exact Nat.pow_le_pow_right two_pos hi
  have hlt : ∀ n ∈ r.1, n < 2 ^ 32 := by
    intro n hn
    have := single_le_sum (fun _ _ => Nat.zero_le _) n hn
    rw [hfills.sum_eq] at this
    exact lt_of_le_of_lt (le_trans this hmax) (by decide)
  have hlen' : r.1.length ≤ (p :: nhs).length := by simpa using hlen
  have hmap := map_weight_zipWith hlen' hlt
  refine ⟨?_, by rw [hmap]; exact hfills.sum_eq, ⟨i, hpow⟩, hmax, ?_⟩
  · intro hnil
    change List.zipWith _ _ _ = [] at hnil
    rw [hnil] at hmap
    exact hfills.ne_nil hmap.symm
  · intro q hq
    exact hfills.pos _ (hmap ▸ mem_map_of_mem hq)

/-! ## All cases -/

/-- Three or more paths: each share of `LB_MAX_BUCKETS` rounds to at least one. Up to two: weights positive as
`int`. -/
def Balanced (raw : List (Path D)) : Prop :=
  (raw.length ≤ 2 ∧ ∀ p ∈ raw, p.weight.toNat < 2 ^ 31) ∨
    ∀ p ∈ raw, 1 ≤ share (total raw) lbMaxBuckets p.weight.toNat

theorem half_le_fl {x y : ℚ} (hy : 0 < y) (h : 2 * y ≤ x) : y ≤ fl x := by
  have := (fl_bounds (by linarith)).1
  linarith

theorem one_le_share_larger {v : Nat} (hw : 0 < w) (hle : v ≤ w) : 1 ≤ share (w + v) lbMaxBuckets w := by
  have hw' : (0 : ℚ) < w := by exact_mod_cast hw
  have hsum : (0 : ℚ) < ((w + v : Nat) : ℚ) := by exact_mod_cast Nat.add_pos_left hw v
  have hle' : ((w + v : Nat) : ℚ) ≤ 2 * w := by exact_mod_cast (by omega)
  have hmax : ((lbMaxBuckets : Nat) : ℚ) = 8192 := rfl
  -- every operation loses at most a factor of two
  have hden : F64.ofNat (w + v) ≤ 4 * w := le_trans (fl_bounds hsum).2 (by linarith)
  have hnum : 4096 ≤ F64.ofNat lbMaxBuckets := half_le_fl (by norm_num) (by rw [hmax]; norm_num)
  have hquot : 1024 / (w : ℚ) ≤ F64.ofNat lbMaxBuckets / F64.ofNat (w + v) := by
    rw [div_le_div_iff₀ hw' (ofNat_pos (Nat.add_pos_left hw v))]
    nlinarith
  have hnorm : 512 / (w : ℚ) ≤ F64.div (F64.ofNat lbMaxBuckets) (F64.ofNat (w + v)) :=
    half_le_fl (by positivity) (le_trans (by rw [mul_div_assoc']; norm_num) hquot)
  unfold share fltRoundNearest F64.toInt
  generalize F64.div (F64.ofNat lbMaxBuckets) (F64.ofNat (w + v)) = norm at hnorm
  have hfirst : (w : ℚ) / 2 ≤ F64.ofNat w := half_le_fl (by positivity) (by linarith)
  have hprod : 256 ≤ F64.ofNat w * norm := by
    calc (256 : ℚ) = (w : ℚ) / 2 * (512 / w) := by field_simp; norm_num
      _ ≤ _ := mul_le_mul hfirst hnorm (by positivity) (le_trans (by positivity) hfirst)
  have hnf : 128 ≤ F64.mul (F64.ofNat w) norm := half_le_fl (by norm_num) (by linarith)
  have hround : 64 ≤ F64.add (F64.mul (F64.ofNat w) norm) (1 / 2) :=
    half_le_fl (by norm_num) (by linarith)
  rw [if_pos (by linarith)]
  exact Int.le_floor.mpr (by linarith)

theorem total_swap : total [p, q] = total [q, p] := by
  simp only [total, map_cons, sum_cons]
  omega

theorem normalizePair_spec (hp : p.weight ≠ 0#32) (hb : q.weight.toNat ≤ p.weight.toNat ∨
      1 ≤ share (total [p, q]) lbMaxBuckets p.weight.toNat) : Normalized (normalizePair p q) := by
  unfold normalizePair
  split
  · refine ⟨cons_ne_nil _ _, rfl, ⟨1, rfl⟩, (by decide : 2 ≤ lbMaxBuckets), ?_⟩
    intro r hr
    rcases mem_pair.mp hr with rfl | rfl
    · exact le_refl 1
    · exact le_refl 1
  · refine normalizeSorted_spec hp ?_
    rcases hb with hle | hshare
    · exact one_le_share_larger (toNat_pos_of_ne_zero hp) hle
    · exact hshare

theorem nextHopSortByWeight_neg_iff (hp : p.weight.toNat < 2 ^ 31) (hq : q.weight.toNat < 2 ^ 31) :
    nextHopSortByWeight p q < 0 ↔ p.weight.toNat < q.weight.toNat := by
  unfold nextHopSortByWeight
  rw [toInt_eq_toNat_cond, toNat_sub]
  split <;> omega

/-- **Normalisation.** Balanced paths with positive weights come back with weights that fill a power of two of
buckets. -/
theorem normalizeNextHops_spec {raw : List (Path D)} (hne : raw ≠ [])
    (hpos : ∀ p ∈ raw, p.weight ≠ 0#32) (hb : Balanced raw) : Normalized (normalizeNextHops raw) := by
  match raw with
  | [] => exact absurd rfl hne
  | [p] =>
    refine ⟨cons_ne_nil _ _, rfl, ⟨0, rfl⟩, (by decide : 1 ≤ lbMaxBuckets), fun q hq => ?_⟩
    rw [mem_singleton.mp hq]
    exact le_refl 1
  | [p, q] =>
    have hp := hpos p (by simp)
    have hq := hpos q (by simp)
    show Normalized (if nextHopSortByWeight p q < 0 then normalizePair q p else normalizePair p q)
    rcases hb with ⟨-, hlt⟩ | hshare
    · have hcmp := nextHopSortByWeight_neg_iff (hlt p (by simp)) (hlt q (by simp))
      split
      · exact normalizePair_spec hq (.inl (le_of_lt (hcmp.mp ‹_›)))
      · exact normalizePair_spec hp (.inl (Nat.le_of_not_lt fun h => ‹¬ _› (hcmp.mpr h)))
    · split
      · exact normalizePair_spec hq (.inr (total_swap ▸ hshare q (by simp)))
      · exact normalizePair_spec hp (.inr (hshare p (by simp)))
  | p :: q :: r :: raw =>
    have hshare : ∀ s ∈ p :: q :: r :: raw,
        1 ≤ share (total (p :: q :: r :: raw)) lbMaxBuckets s.weight.toNat := by
      rcases hb with ⟨hlen, -⟩ | hshare
      · simp at hlen
      · exact hshare
    show Normalized (normalizeSorted
      ((p :: q :: r :: raw).mergeSort fun a b => nextHopSortByWeight a b ≤ 0))
    -- whatever path comes first after sorting, it has its share
    have hperm := mergeSort_perm (p :: q :: r :: raw)
      fun a b => decide (nextHopSortByWeight a b ≤ 0)
    generalize (p :: q :: r :: raw).mergeSort (fun a b => decide (nextHopSortByWeight a b ≤ 0)) = nhs
      at hperm
    cases nhs with
    | nil => exact absurd hperm.symm.eq_nil (cons_ne_nil _ _)
    | cons s nhs =>
      have hs := hperm.mem_iff.mp mem_cons_self
      have htotal : total (s :: nhs) = total (p :: q :: r :: raw) := (hperm.map _).sum_eq
      exact normalizeSorted_spec (hpos s hs) (htotal ▸ hshare s hs)

/-! ## Filling -/

theorem total_cons (p : Path D) (nhs : List (Path D)) :
    total (p :: nhs) = p.weight.toNat + total nhs := by
  simp only [total, map_cons, sum_cons]

/-- The buckets hold `ds`, in order, and nothing else. -/
structure Holds (f : Fill D) (ds : List D) : Prop where
  bucket : f.bucket.toNat = ds.length
  buckets : ∀ b, f.buckets b = ds[b]?

theorem Holds.put (h : Holds f ds) (hlt : ds.length + 1 < 2 ^ 16)
    (d : D) : Holds (f.put d) (ds ++ [d]) := by
  refine ⟨?_, fun b => ?_⟩
  · show (f.bucket + 1#16).toNat = _
    rw [toNat_add, h.bucket, length_append]
    exact Nat.mod_eq_of_lt hlt
  show Function.update f.buckets f.bucket.toNat (some d) b = _
  rw [h.bucket]
  by_cases hb : b = ds.length
  · rw [hb, Function.update_self, getElem?_concat_length]
  · rw [Function.update_of_ne hb, h.buckets]
    rcases lt_or_gt_of_ne hb with hlt | hgt
    · rw [getElem?_append_left hlt]
    · rw [List.getElem?_eq_none (by omega), List.getElem?_eq_none (by simp; omega)]

/-- One turn of an inner loop puts one good thing in the next bucket. -/
def Puts (inv : Fill D → Prop) (good : D → Prop) (turn : Fill D → Fill D) : Prop :=
  ∀ f, inv f → inv (turn f) ∧
    ∃ d, good d ∧ (turn f).bucket = (f.put d).bucket ∧ (turn f).buckets = (f.put d).buckets

theorem Puts.repeat {good : D → Prop} {turn : Fill D → Fill D}
    (hturn : Puts inv good turn) (n : Nat) (h : Holds f ds) (hi : inv f)
    (hlt : ds.length + n < 2 ^ 16) :
    ∃ c : List D, c.length = n ∧ (∀ d ∈ c, good d) ∧ inv (f.repeat turn n) ∧
      Holds (f.repeat turn n) (ds ++ c) := by
  induction n generalizing f ds with
  | zero => exact ⟨[], rfl, (fun _ h => nomatch h), hi, by rw [append_nil]; exact h⟩
  | succ n ih =>
    obtain ⟨hi', d, hd, hbucket, hbuckets⟩ := hturn f hi
    have hput := h.put (by omega) d
    have hf : Holds (turn f) (ds ++ [d]) :=
      ⟨hbucket ▸ hput.bucket, fun b => hbuckets ▸ hput.buckets b⟩
    obtain ⟨c, hc, hgood, hinv, hholds⟩ := ih hf hi' (by simp; omega)
    rw [List.append_assoc] at hholds
    exact ⟨d :: c, by rw [length_cons, hc], forall_mem_cons.mpr ⟨hd, hgood⟩, hinv, hholds⟩

def Chunks (good : Path D → D → Prop) (nhs : List (Path D)) (cs : List (List D)) : Prop :=
  List.Forall₂ (fun p c => c.length = p.weight.toNat ∧ ∀ d ∈ c, good p d) nhs cs

theorem foldl_chunks {turn : Path D → Fill D → Fill D}
    (hturn : ∀ p ∈ nhs, Puts inv (good p) (turn p)) (h : Holds f ds)
    (hi : inv f) (hlt : ds.length + total nhs < 2 ^ 16) :
    ∃ cs, Chunks good nhs cs ∧
      Holds (nhs.foldl (fun f nh => f.repeat (turn nh) nh.weight.toNat) f) (ds ++ cs.flatten) := by
  induction nhs generalizing f ds with
  | nil => exact ⟨[], .nil, by rw [flatten_nil, append_nil]; exact h⟩
  | cons p nhs ih =>
    rw [total_cons] at hlt
    obtain ⟨c, hc, hgood, hinv, hholds⟩ :=
      (hturn p mem_cons_self).repeat p.weight.toNat h hi (by omega)
    obtain ⟨cs, hcs, hrest⟩ := ih (fun q hq => hturn q (mem_cons_of_mem _ hq)) hholds hinv
      (by rw [length_append]; omega)
    rw [List.append_assoc] at hrest
    exact ⟨c :: cs, .cons ⟨hc, hgood⟩ hcs, by exact hrest⟩

/-- What may stand in a bucket of path `p`: the path, or, when it drops and buckets are sticky, a forwarding
path. -/
def MayHold (isDrop : D → Bool) (sticky : Bool) (nhs : List (Path D)) (p : Path D) (d : D) : Prop :=
  if sticky && isDrop p.dpo then ∃ q ∈ fwdingPaths isDrop nhs, d = q.dpo else d = p.dpo

theorem fwdingPaths_ne_nil (h : nhs ≠ []) : fwdingPaths isDrop nhs ≠ [] := by
  unfold fwdingPaths
  split
  · exact h
  · assumption

theorem length_fwdingPaths_le (isDrop : D → Bool) (nhs : List (Path D)) :
    (fwdingPaths isDrop nhs).length ≤ nhs.length := by
  unfold fwdingPaths
  split
  · exact le_refl _
  · exact length_filter_le ..

theorem stickyTurn_puts (hne : nhs ≠ []) (hlen : nhs.length < 2 ^ 16) :
    Puts (fun f => f.fpath.toNat < (fwdingPaths isDrop nhs).length) (MayHold isDrop true nhs p)
      (stickyTurn isDrop (fwdingPaths isDrop nhs) p) := by
  intro f hf
  unfold stickyTurn MayHold
  rw [Bool.true_and]
  split
  · have hle := length_fwdingPaths_le isDrop nhs
    have hpos : 0 < (fwdingPaths isDrop nhs).length :=
      length_pos_iff.mpr (fwdingPaths_ne_nil hne)
    refine ⟨?_, _, ?_, rfl, rfl⟩
    · show (BitVec.ofNat 16 _).toNat < _
      have hmod := Nat.mod_lt (f.fpath.toNat + 1) hpos
      rw [toNat_ofNat, Nat.mod_eq_of_lt (by omega)]
      exact hmod
    · refine ⟨_, getElem_mem hf, ?_⟩
      rw [getD_eq_getElem?_getD, List.getElem?_eq_getElem hf, Option.getD_some]
  · exact ⟨hf, p.dpo, rfl, rfl, rfl⟩

/-- The buckets hold a chunk for each path, as many consecutive buckets as its weight. The first `nBuckets`
are all assigned. -/
def Filled (isDrop : D → Bool) (sticky : Bool) (nhs : List (Path D)) (nBuckets : Nat)
    (buckets : Nat → Option D) : Prop :=
  ∃ cs, Chunks (MayHold isDrop sticky nhs) nhs cs ∧ cs.flatten.length = nBuckets ∧
    ∀ b, buckets b = cs.flatten[b]?

theorem Chunks.length_flatten {cs : List (List D)}
    (h : Chunks good nhs cs) : cs.flatten.length = total nhs := by
  induction h with
  | nil => rfl
  | cons hc _ ih => rw [flatten_cons, length_append, hc.1, ih, total_cons]

theorem length_le_total (h : ∀ p ∈ nhs, 1 ≤ p.weight.toNat) : nhs.length ≤ total nhs := by
  induction nhs with
  | nil => exact le_refl _
  | cons p nhs ih =>
    rw [forall_mem_cons] at h
    have hnhs := ih h.2
    rw [total_cons, length_cons]
    omega

theorem fillBuckets_filled (sticky : Bool) {r : Normal D} (h : Normalized r) :
    Filled isDrop sticky r.nhs r.nAdj (fillBuckets isDrop sticky r.nhs).buckets := by
  have hsum : total r.nhs = r.nAdj := h.sum_eq
  have hmax : r.nAdj < 2 ^ 16 := lt_of_le_of_lt h.le_max (by decide)
  have hlen : r.nhs.length < 2 ^ 16 := lt_of_le_of_lt (hsum ▸ length_le_total h.pos) hmax
  have h0 : Holds (⟨0#16, fun _ => none, 0#16⟩ : Fill D) [] := ⟨rfl, fun _ => rfl⟩
  have hlt : ([] : List D).length + total r.nhs < 2 ^ 16 := by
    rw [length_nil, zero_add, hsum]
    exact hmax
  have hfill : ∃ cs, Chunks (MayHold isDrop sticky r.nhs) r.nhs cs ∧
      Holds (fillBuckets isDrop sticky r.nhs) ([] ++ cs.flatten) := by
    cases sticky with
    | false =>
      have hput : ∀ p ∈ r.nhs, Puts (fun _ => True) (MayHold isDrop false r.nhs p)
          fun f => f.put p.dpo :=
        fun p _ f _ => ⟨trivial, p.dpo, rfl, rfl, rfl⟩
      exact foldl_chunks hput h0 trivial hlt
    | true =>
      exact foldl_chunks (fun p _ => stickyTurn_puts h.ne_nil hlen) h0
        (length_pos_iff.mpr (fwdingPaths_ne_nil h.ne_nil)) hlt
  obtain ⟨cs, hcs, hholds⟩ := hfill
  exact ⟨cs, hcs, hcs.length_flatten.trans hsum, hholds.buckets⟩

/-! ## The load balance of a set of paths -/

end Vpp.Dpo
