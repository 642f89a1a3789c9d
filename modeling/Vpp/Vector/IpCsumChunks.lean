import Vpp.Vector.IpCsum

/-!
# What a chunk adds and stores

Each part of `clib_ip_csum_inline` takes bytes off the front of the chunk, adds a number to the sum
and makes some stores (`Stage`). The parts compose, so the whole function is known by the number that
its variant adds for a chunk (`chunkSum`) and by the stores it makes (`chunkStores`).
-/

namespace Vpp.Vector

open Lib List Nat

def Frame.total (f : Frame) : BitVec 64 := f.c.sum + f.lanes.sum

/-- From `f` to `f'` the function takes `n` bytes, adds `s` and makes the stores `stores x` if `dst`
is `x` before; `dst` moves by `d`. -/
structure Stage (isCopy : Bool) (f f' : Frame) (n d s : Nat)
    (stores : Nat → List (Nat × BitVec 8)) : Prop where
  le : n ≤ f.count
  count : f'.count = f.count - n
  src : f'.src = f.src + n
  dst : f'.dst = if isCopy then f.dst + d else f.dst
  total : f'.total = f.total + BitVec.ofNat 64 s
  odd : f'.c.odd = f.c.odd
  lanes : f'.lanes.length = f.lanes.length
  stored : f'.stores = f.stores ++ if isCopy then stores f.dst else []

section Stages

variable {isCopy : Bool} {f f' f'' : Frame} {n n' d d' s s' : Nat}
  {stores stores' : Nat → List (Nat × BitVec 8)}

theorem Stage.refl : Stage isCopy f f 0 0 0 fun _ => [] where
  le := Nat.zero_le _
  count := rfl
  src := rfl
  dst := by cases isCopy <;> rfl
  total := (BitVec.add_zero _).symm
  odd := rfl
  lanes := rfl
  stored := by cases isCopy <;> exact (append_nil _).symm

theorem Stage.trans (h : Stage isCopy f f' n d s stores)
    (h' : Stage isCopy f' f'' n' d' s' stores') :
    Stage isCopy f f'' (n + n') (d + d') (s + s') fun x => stores x ++ stores' (x + d) where
  le := by
    have := h.le
    have := h'.le
    rw [h.count] at this
    omega
  count := by rw [h'.count, h.count, Nat.sub_sub]
  src := by rw [h'.src, h.src, add_assoc]
  dst := by
    rw [h'.dst, h.dst]
    cases isCopy
    · rfl
    · exact add_assoc _ _ _
  total := by rw [h'.total, h.total, BitVec.ofNat_add, BitVec.add_assoc]
  odd := h'.odd.trans h.odd
  lanes := h'.lanes.trans h.lanes
  stored := by
    rw [h'.stored, h.stored, h.dst]
    cases isCopy
    · exact append_nil _
    · exact append_assoc _ _ _

theorem Stage.congr (h : Stage isCopy f f' n d s stores) (hn : n = n') (hd : d = d') (hs : s = s')
    (hst : ∀ x, stores x = stores' x) : Stage isCopy f f' n' d' s' stores' := by
  obtain rfl : stores = stores' := funext hst
  subst hn hd hs
  exact h

/-- **Loop rule.** A loop whose turns are stages of the same length is a stage. -/
theorem whileGe_stage {w e L : Nat} {turn : Frame → Frame} (add : Nat → Nat)
    (put : Nat → Nat → List (Nat × BitVec 8)) (hw : 0 < w)
    (hturn : ∀ f : Frame, w ≤ f.count → f.lanes.length = L →
      Stage isCopy f (turn f) w e (add f.src) (put f.src)) :
    ∀ (fuel : Nat) (f : Frame), f.count ≤ fuel → f.lanes.length = L →
      Stage isCopy f (whileGe w turn fuel f) (f.count / w * w) (f.count / w * e)
        ((List.range (f.count / w)).map fun q => add (f.src + q * w)).sum
        fun x => (List.range (f.count / w)).flatMap fun q => put (f.src + q * w) (x + q * e) := by
  intro fuel
  induction fuel with
  | zero =>
    intro f hf hL
    have h0 : f.count / w = 0 := by rw [Nat.le_zero.mp hf, Nat.zero_div]
    rw [h0]
    exact Stage.refl.congr (Nat.zero_mul w).symm (Nat.zero_mul e).symm rfl fun _ => rfl
  | succ fuel ih =>
    intro f hf hL
    unfold whileGe
    split
    · rename_i hle
      have h1 := hturn f hle hL
      have hcount := h1.count
      have h2 := ih (turn f) (by omega) (h1.lanes.trans hL)
      have hq : f.count / w = (turn f).count / w + 1 := by
        rw [hcount, div_eq f.count w, if_pos ⟨hw, hle⟩]
      rw [hq]
      refine (h1.trans h2).congr (by ring) (by ring) ?_ fun x => ?_
      · rw [range_succ_eq_map, map_cons, map_map, Nat.zero_mul, h1.src]
        simp only [Function.comp_def, succ_eq_add_one, add_mul, one_mul, add_assoc, add_comm w]
        rfl
      · rw [range_succ_eq_map, flatMap_cons, flatMap_map, Nat.zero_mul, Nat.zero_mul, h1.src]
        simp only [succ_eq_add_one, add_mul, one_mul, add_assoc, add_comm w, add_comm e]
        rfl
    · have h0 : f.count / w = 0 := div_eq_of_lt (by omega)
      rw [h0]
      exact Stage.refl.congr (Nat.zero_mul w).symm (Nat.zero_mul e).symm rfl fun _ => rfl

end Stages

/-! ## The loops -/

section Loops

variable (mem : Nat → BitVec 8) (isCopy : Bool)

theorem bytesAt_congr {mem mem' : Nat → BitVec 8} {p p' n : Nat}
    (h : ∀ j < n, mem (p + j) = mem' (p' + j)) : bytesAt mem p n = bytesAt mem' p' n :=
  map_congr_left fun j hj => h j (mem_range.mp hj)

theorem sum_turns {k w : Nat} (hk : k ∣ w) (s c : Nat) :
    ((List.range c).map fun q => digitSum k 0 (bytesAt mem (s + q * w) w)).sum =
      digitSum k 0 (bytesAt mem s (c * w)) := by
  induction c with
  | zero => rw [Nat.zero_mul]; rfl
  | succ c ih =>
    rw [range_succ, map_append, List.sum_append, ih, map_singleton,
      sum_singleton, succ_mul, digitSum_bytesAt_add (Dvd.dvd.mul_left hk c)]

theorem stores_turns (s x c w : Nat) :
    ((List.range c).flatMap fun q => stretch (x + q * w) w fun j => mem (s + q * w + j)) =
      stretch x (c * w) fun j => mem (s + j) := by
  induction c with
  | zero => rw [Nat.zero_mul]; rfl
  | succ c ih =>
    rw [range_succ, flatMap_append, ih, flatMap_singleton, succ_mul, stretch_add]
    simp only [add_assoc]

variable {k n : Nat}

theorem wordTurn_stage (f : Frame) (hle : k ≤ f.count) :
    Stage isCopy f (wordTurn mem isCopy k f) k k (digitSum k 0 (bytesAt mem f.src k))
      fun x => stretch x k fun j => mem (f.src + j) where
  le := hle
  count := rfl
  src := rfl
  dst := rfl
  total := add_right_comm _ _ _
  odd := rfl
  lanes := rfl
  stored := rfl

/-- **The loops over words** add and copy all whole words. -/
theorem wordLoop_stage (hk : 0 < k) (f : Frame) :
    Stage isCopy f (wordLoop mem isCopy k f) (f.count / k * k) (f.count / k * k)
      (digitSum k 0 (bytesAt mem f.src (f.count / k * k)))
      fun x => stretch x (f.count / k * k) fun j => mem (f.src + j) :=
  (whileGe_stage (fun s => digitSum k 0 (bytesAt mem s k))
    (fun s x => stretch x k fun j => mem (s + j)) hk
    (fun f hle _ => wordTurn_stage mem isCopy f hle) f.count f le_rfl rfl).congr
    rfl rfl (sum_turns mem dvd_rfl _ _) fun _ => stores_turns mem _ _ _ _

def Stride.adding (t : Stride) (s : Nat) : Nat :=
  (t.adds.map fun i => digitSum 4 0 (bytesAt mem (s + 4 * t.width * i) (4 * t.width))).sum

theorem foldl_addLanes (s : Nat) (is : List Nat) {sums : List (BitVec 64)}
    (h : sums.length = 2 * n) :
    let sums' := is.foldl (fun sums i => addLanes sums
      (clibIpCsumCvtAndAdd (loadLanes mem (s + 4 * (4 * n) * i) (4 * n)))) sums
    sums'.length = 2 * n ∧ sums'.sum = sums.sum + BitVec.ofNat 64
      (is.map fun i => digitSum 4 0 (bytesAt mem (s + 4 * (4 * n) * i) (4 * (4 * n)))).sum := by
  induction is generalizing sums with
  | nil => exact ⟨h, (BitVec.add_zero _).symm⟩
  | cons i is ih =>
    obtain ⟨hlen, hsum⟩ := sum_addLanes_load h mem (s + 4 * (4 * n) * i)
    obtain ⟨hlen', hsum'⟩ := ih hlen
    refine ⟨hlen', ?_⟩
    rw [foldl_cons, hsum', hsum, map_cons, sum_cons, BitVec.ofNat_add, BitVec.add_assoc]

theorem Stride.turn_stage {t : Stride} (hw : t.width = 4 * n) (f : Frame)
    (hle : t.step ≤ f.count) (hlanes : f.lanes.length = 2 * n) :
    Stage isCopy f (t.turn mem isCopy f) t.step t.dstStep (t.adding mem f.src) fun x =>
      t.copies.flatMap fun i => stretch (x + 4 * t.width * i) (4 * t.width) fun j =>
        mem (f.src + 4 * t.width * i + j) := by
  have hfold := foldl_addLanes mem f.src t.adds hlanes
  rw [← hw] at hfold
  exact {
    le := hle
    count := rfl
    src := rfl
    dst := rfl
    total := by
      show f.c.sum + _ = f.c.sum + f.lanes.sum + _
      rw [BitVec.add_assoc]
      exact congrArg (f.c.sum + ·) hfold.2
    odd := rfl
    lanes := hfold.1.trans hlanes.symm
    stored := rfl }

theorem vecLoop_stage {t : Stride} (hw : t.width = 4 * n) (hstep : 0 < t.step) (f : Frame)
    (hlanes : f.lanes.length = 2 * n) :
    Stage isCopy f (vecLoop mem isCopy t f) (f.count / t.step * t.step)
      (f.count / t.step * t.dstStep)
      ((List.range (f.count / t.step)).map fun q => t.adding mem (f.src + q * t.step)).sum
      fun x => (List.range (f.count / t.step)).flatMap fun q => t.copies.flatMap fun i =>
        stretch (x + q * t.dstStep + 4 * t.width * i) (4 * t.width) fun j =>
          mem (f.src + q * t.step + 4 * t.width * i + j) :=
  whileGe_stage (t.adding mem)
    (fun s x => t.copies.flatMap fun i => stretch (x + 4 * t.width * i) (4 * t.width) fun j =>
      mem (s + 4 * t.width * i + j)) hstep
    (fun f hle hlanes => t.turn_stage mem isCopy hw f hle hlanes) f.count f le_rfl hlanes

/-- The copies of a loop are the vectors from `src` on, one after the other. -/
structure Stride.Copies (t : Stride) : Prop where
  copies : t.copies = List.range (t.step / (4 * t.width))
  step : t.step = t.step / (4 * t.width) * (4 * t.width)

/-- So are the vectors that are added, and `dst` keeps up with `src`. -/
structure Stride.Plain (t : Stride) : Prop extends t.Copies where
  adds : t.adds = List.range (t.step / (4 * t.width))
  dstStep : t.dstStep = t.step

variable {t : Stride}

theorem Stride.Copies.stores (h : t.Copies) (s x : Nat) :
    (t.copies.flatMap fun i => stretch (x + 4 * t.width * i) (4 * t.width) fun j =>
      mem (s + 4 * t.width * i + j)) = stretch x t.step fun j => mem (s + j) := by
  simp only [mul_comm (4 * t.width)]
  rw [h.copies, stores_turns, ← h.step]

theorem Stride.Plain.adding_eq (h : t.Plain) (s : Nat) :
    t.adding mem s = digitSum 4 0 (bytesAt mem s t.step) := by
  unfold Stride.adding
  simp only [mul_comm (4 * t.width)]
  rw [h.adds, sum_turns mem (Dvd.intro t.width rfl), ← h.step]

theorem Stride.adding_perm {i j c : Nat} (h : (i :: t.adds) ~ (j :: List.range c)) (s : Nat) :
    t.adding mem s + digitSum 4 0 (bytesAt mem (s + i * (4 * t.width)) (4 * t.width)) =
      digitSum 4 0 (bytesAt mem s (c * (4 * t.width))) +
        digitSum 4 0 (bytesAt mem (s + j * (4 * t.width)) (4 * t.width)) := by
  have hsum := (h.map fun i =>
    digitSum 4 0 (bytesAt mem (s + i * (4 * t.width)) (4 * t.width))).sum_eq
  rw [map_cons, map_cons, sum_cons, sum_cons, sum_turns mem (Dvd.intro t.width rfl)] at hsum
  unfold Stride.adding
  simp only [mul_comm (4 * t.width)]
  omega

theorem Stride.Plain.four_dvd (h : t.Plain) : 4 ∣ t.step := by
  rw [h.step]
  exact Dvd.dvd.mul_left (Dvd.intro _ rfl) _

/-- **A plain vector loop** adds and copies all whole steps. -/
theorem Stride.Plain.loop_stage (h : t.Plain) (hw : t.width = 4 * n) (hstep : 0 < t.step)
    (f : Frame) (hlanes : f.lanes.length = 2 * n) :
    Stage isCopy f (vecLoop mem isCopy t f) (f.count / t.step * t.step) (f.count / t.step * t.step)
      (digitSum 4 0 (bytesAt mem f.src (f.count / t.step * t.step)))
      fun x => stretch x (f.count / t.step * t.step) fun j => mem (f.src + j) := by
  refine (vecLoop_stage mem isCopy hw hstep f hlanes).congr rfl ?_ ?_ fun x => ?_
  · rw [h.dstStep]
  · simp only [h.adding_eq]
    exact sum_turns mem h.four_dvd _ _
  · simp only [h.toCopies.stores, h.dstStep]
    exact stores_turns mem _ _ _ _

theorem stride256_plain : stride256.Plain := ⟨⟨rfl, rfl⟩, rfl, rfl⟩
theorem stride32_plain : stride32.Plain := ⟨⟨rfl, rfl⟩, rfl, rfl⟩
theorem stride128_plain : stride128.Plain := ⟨⟨rfl, rfl⟩, rfl, rfl⟩
theorem stride16_plain : stride16.Plain := ⟨⟨rfl, rfl⟩, rfl, rfl⟩

theorem steps_of_dvd {u w : Nat} (hu : 0 < u) (h : u ∣ w) (n : Nat) :
    n / w * w + (n - n / w * w) / u * u = n / u * u := by
  obtain ⟨k, rfl⟩ := h
  have hn : n / (u * k) * (u * k) + (n - n / (u * k) * (u * k)) = n := by
    have := div_mul_le_self n (u * k)
    omega
  generalize n - n / (u * k) * (u * k) = r at *
  have hq : n / u = n / (u * k) * k + r / u := by
    conv_lhs => rw [← hn]
    rw [show n / (u * k) * (u * k) = u * (n / (u * k) * k) by ring, mul_add_div hu]
  rw [hq]
  ring

theorem Stride.Plain.loops_stage {u : Stride} (h : t.Plain) (h' : u.Plain)
    (hw : t.width = 4 * n) (hw' : u.width = 4 * n) (hstep : 0 < t.step) (hstep' : 0 < u.step)
    (hdvd : u.step ∣ t.step) (f : Frame) (hlanes : f.lanes.length = 2 * n) :
    Stage isCopy f (vecLoop mem isCopy u (vecLoop mem isCopy t f)) (f.count / u.step * u.step)
      (f.count / u.step * u.step) (digitSum 4 0 (bytesAt mem f.src (f.count / u.step * u.step)))
      fun x => stretch x (f.count / u.step * u.step) fun j => mem (f.src + j) := by
  have h1 := h.loop_stage mem isCopy hw hstep f hlanes
  have h2 := h'.loop_stage mem isCopy hw' hstep' _ (h1.lanes.trans hlanes)
  have hn := steps_of_dvd hstep' hdvd f.count
  rw [h1.count, h1.src] at h2
  refine (h1.trans h2).congr hn hn ?_ fun x => ?_
  · rw [← hn, digitSum_bytesAt_add (Dvd.dvd.mul_left h.four_dvd _)]
  · rw [← hn, stretch_add]
    simp only [add_assoc]

/-! ### The loops over 64-byte vectors -/

theorem loop512_stage (f : Frame) (hlanes : f.lanes.length = 8) :
    Stage isCopy f (vecLoop mem isCopy stride512 f) (f.count / 512 * 512) (f.count / 512 * 512)
      ((List.range (f.count / 512)).map fun q => stride512.adding mem (f.src + q * 512)).sum
      fun x => stretch x (f.count / 512 * 512) fun j => mem (f.src + j) := by
  have hcopies : stride512.Copies := ⟨rfl, rfl⟩
  refine (vecLoop_stage mem isCopy (n := 4) rfl (by decide) f hlanes).congr rfl rfl rfl fun x => ?_
  simp only [hcopies.stores]
  exact stores_turns mem _ _ _ _

theorem loop64_stage (f : Frame) (hlanes : f.lanes.length = 8) :
    Stage isCopy f (vecLoop mem isCopy stride64 f) (f.count / 64 * 64) (f.count / 64 * 512)
      (digitSum 4 0 (bytesAt mem f.src (f.count / 64 * 64)))
      fun x => (List.range (f.count / 64)).flatMap fun q =>
        stretch (x + q * 512) 64 fun j => mem (f.src + q * 64 + j) := by
  have hadding : ∀ s, stride64.adding mem s = digitSum 4 0 (bytesAt mem s 64) := fun s => by
    simp only [Stride.adding, stride64, map_singleton, sum_singleton]
    rfl
  refine (vecLoop_stage mem isCopy (n := 4) rfl (by decide) f hlanes).congr
    rfl rfl ?_ fun x => ?_
  · simp only [hadding]
    exact sum_turns mem (show 4 ∣ 64 by decide) _ _
  · rfl

end Loops

/-! ## The ends of a chunk -/

/-- From `f` on the function adds `s`, makes the stores `stores x` if `dst` is `x`, and returns. -/
structure Ends (isCopy : Bool) (f f' : Frame) (s : Nat)
    (stores : Nat → List (Nat × BitVec 8)) : Prop where
  sum : f'.c.sum = f.total + BitVec.ofNat 64 s
  odd : f'.c.odd = (f.count % 2 == 1)
  stored : f'.stores = f.stores ++ if isCopy then stores f.dst else []

section Tails

variable {mem : Nat → BitVec 8} {isCopy : Bool} {f f' f'' : Frame} {n d s s' : Nat}
  {stores stores' : Nat → List (Nat × BitVec 8)}

theorem Stage.ends (h : Stage isCopy f f' n d s stores) (h' : Ends isCopy f' f'' s' stores')
    (heven : 2 ∣ n) : Ends isCopy f f'' (s + s') fun x => stores x ++ stores' (x + d) where
  sum := by rw [h'.sum, h.total, BitVec.ofNat_add, BitVec.add_assoc]
  odd := by
    have := h.le
    rw [h'.odd, h.count, show (f.count - n) % 2 = f.count % 2 by omega]
  stored := by
    rw [h'.stored, h.stored, h.dst]
    cases isCopy
    · exact append_nil _
    · exact append_assoc _ _ _

theorem maskLoadZero_apply (p c j : Nat) :
    maskLoadZero mem p (2 ^ c - 1) (p + j) = if j < c then mem (p + j) else 0 := by
  simp [maskLoadZero]

theorem digitSum_maskLoadZero {p c m : Nat} (hc : c ≤ m) :
    digitSum 4 0 (bytesAt (maskLoadZero mem p (2 ^ c - 1)) p m) =
      digitSum 4 0 (bytesAt mem p c) := by
  obtain ⟨k, rfl⟩ := Nat.exists_eq_add_of_le hc
  have hin : bytesAt (maskLoadZero mem p (2 ^ c - 1)) p c = bytesAt mem p c :=
    bytesAt_congr fun j hj => by rw [maskLoadZero_apply, if_pos hj]
  have hout : digitSum 4 (0 + c) (bytesAt (maskLoadZero mem p (2 ^ c - 1)) (p + c) k) = 0 := by
    rw [digitSum_eq_zero]
    intro b hb
    obtain ⟨j, -, rfl⟩ := mem_map.mp hb
    rw [add_assoc, maskLoadZero_apply, if_neg (by omega)]
    rfl
  rw [bytesAt_add, digitSum_append, length_bytesAt, hin, hout, add_zero]

theorem maskStore_eq (v : Nat → BitVec 8) (p x c width : Nat) :
    maskStore v p x (2 ^ c - 1) width = stretch x (min c width * 4) fun j => v (p + j) := by
  obtain ⟨k, hk⟩ := Nat.exists_eq_add_of_le (min_le_right c width)
  have hin : ∀ i ∈ List.range (min c width),
      (if (2 ^ c - 1).testBit i then stretch (x + 4 * i) 4 fun j => v (p + 4 * i + j) else []) =
        stretch (x + i * 4) 4 fun j => v (p + i * 4 + j) := by
    intro i hi
    have := mem_range.mp hi
    rw [if_pos (by simp; omega), mul_comm]
  have hout : ∀ i ∈ List.range k, (if (2 ^ c - 1).testBit (min c width + i) then
      stretch (x + 4 * (min c width + i)) 4 fun j => v (p + 4 * (min c width + i) + j) else []) =
        [] := by
    intro i hi
    have := mem_range.mp hi
    rw [if_neg (by simp; omega)]
  rw [maskStore, hk, range_add, flatMap_append, flatMap_congr hin, stores_turns,
    flatMap_map, flatMap_congr hout]
  simp [← hk]

variable {hadd : List (BitVec 64) → BitVec 64} {width k : Nat}

theorem addHadd_maskedTail_ends
    (hw : width = 4 * k) (hlanes : f.lanes.length = 2 * k) (hcount : f.count ≤ 4 * width)
    (hodd : f.c.odd = false) (hadd_eq : ∀ v, v.length = 2 * k → hadd v = v.sum) :
    Ends isCopy f (addHadd hadd (maskedTail mem isCopy width f))
      (digitSum 4 0 (bytesAt mem f.src f.count)) fun x =>
        stretch x (min f.count width * 4) fun j =>
          maskLoadZero mem f.src (2 ^ f.count - 1) (f.src + j) := by
  by_cases h0 : f.count = 0
  · have hsame : maskedTail mem isCopy width f = f := if_neg (not_not.mpr h0)
    rw [hsame, h0]
    refine ⟨?_, hodd.trans (by rw [h0]; rfl), ?_⟩
    · show f.c.sum + hadd f.lanes = _
      rw [hadd_eq _ hlanes]
      exact (BitVec.add_zero _).symm
    · cases isCopy <;> exact (append_nil _).symm
  · have htail : maskedTail mem isCopy width f = _ := if_pos h0
    have hload := sum_addLanes_load hlanes (maskLoadZero mem f.src (2 ^ f.count - 1)) f.src
    rw [← hw] at hload
    rw [htail]
    refine ⟨?_, rfl, ?_⟩
    · show f.c.sum + hadd _ = f.c.sum + f.lanes.sum + _
      rw [hadd_eq _ hload.1, hload.2, digitSum_maskLoadZero hcount, BitVec.add_assoc]
    · show f.stores ++ _ = f.stores ++ _
      rw [maskStore_eq]

theorem plainTail_ends (hlanes : f.lanes = []) (hodd : f.c.odd = false) :
    Ends isCopy f (plainTail mem isCopy f) (digitSum 2 0 (bytesAt mem f.src f.count)) fun x =>
      stretch x f.count fun j => mem (f.src + j) := by
  have hloop := wordLoop_stage mem isCopy (show 0 < 2 by decide) f
  have hnil : (wordLoop mem isCopy 2 f).lanes = [] :=
    eq_nil_of_length_eq_zero (by rw [hloop.lanes, hlanes]; rfl)
  have htotal : (wordLoop mem isCopy 2 f).total = (wordLoop mem isCopy 2 f).c.sum := by
    rw [Frame.total, hnil]
    exact BitVec.add_zero _
  by_cases h0 : (wordLoop mem isCopy 2 f).count = 0
  · have hall : f.count / 2 * 2 = f.count := by
      have := hloop.count
      omega
    have hsame : plainTail mem isCopy f = wordLoop mem isCopy 2 f := if_neg (not_not.mpr h0)
    rw [hall] at hloop
    rw [hsame]
    exact ⟨htotal.symm.trans hloop.total, by rw [hloop.odd, hodd]; simp; omega, hloop.stored⟩
  · have hlast : f.count = f.count / 2 * 2 + 1 := by
      have := hloop.count
      omega
    have htail : plainTail mem isCopy f = _ := if_pos h0
    rw [htail]
    refine ⟨?_, by simp; omega, ?_⟩
    · rw [← htotal, hloop.total, hloop.src, hlast, digitSum_bytesAt_add (Dvd.intro_left _ rfl),
        ← hlast, BitVec.ofNat_add, BitVec.add_assoc]
      simp [bytesAt]
    · rw [hloop.stored, hloop.dst, hloop.src, hlast, stretch_add, ← hlast]
      cases isCopy
      · exact append_nil _
      · simp [stretch]

theorem addHadd_ends (hadd_eq : hadd f.lanes = f.lanes.sum)
    (h : Ends isCopy (addHadd hadd f) f' s stores) : Ends isCopy f f' s stores where
  sum := by
    rw [h.sum]
    show f.c.sum + hadd f.lanes + 0#64 + _ = f.c.sum + f.lanes.sum + _
    rw [BitVec.add_zero, hadd_eq]
  odd := h.odd
  stored := h.stored

variable (mem)

theorem Stage.masked (h : Stage isCopy f f' n d s stores) (heven : 2 ∣ n) (hw : width = 4 * k)
    (hlanes : f.lanes.length = 2 * k) (hcount : f.count - n ≤ 4 * width) (hodd : f.c.odd = false)
    (hadd_eq : ∀ v, v.length = 2 * k → hadd v = v.sum) :
    Ends isCopy f (addHadd hadd (maskedTail mem isCopy width f'))
      (s + digitSum 4 0 (bytesAt mem (f.src + n) (f.count - n))) fun x =>
        stores x ++ stretch (x + d) (min (f.count - n) width * 4) fun j =>
          maskLoadZero mem (f.src + n) (2 ^ (f.count - n) - 1) (f.src + n + j) := by
  rw [← h.count, ← h.src]
  rw [← h.count] at hcount
  exact h.ends (addHadd_maskedTail_ends hw (h.lanes.trans hlanes) hcount (h.odd.trans hodd) hadd_eq)
    heven

theorem Stage.plain (h : Stage isCopy f f' n d s stores)
    (heven : 2 ∣ n) (hodd : f.c.odd = false) (hadd_eq : hadd f'.lanes = f'.lanes.sum) :
    Ends isCopy f (plainTail mem isCopy (addHadd hadd f'))
      (s + digitSum 2 0 (bytesAt mem (f.src + n) (f.count - n))) fun x =>
        stores x ++ stretch (x + d) (f.count - n) fun j => mem (f.src + n + j) := by
  rw [← h.count, ← h.src]
  have htail := @plainTail_ends mem isCopy (addHadd hadd f') rfl (h.odd.trans hodd)
  exact h.ends (addHadd_ends hadd_eq htail) heven

end Tails

/-! ## A whole chunk -/

def Variant.step : Variant → Nat
  | .vec512 _ => 64
  | .vec256 _ => 32
  | .vec128 => 16
  | .scalar => 4

def Variant.tailWord : Variant → Nat
  | .vec512 true | .vec256 true => 4
  | _ => 2

def Variant.wideSum (v : Variant) (mem : Nat → BitVec 8) (s n : Nat) : Nat :=
  match v with
  | .vec512 _ => ((List.range (n / 512)).map fun q => stride512.adding mem (s + q * 512)).sum +
      digitSum 4 0 (bytesAt mem (s + n / 512 * 512) (n % 512 / 64 * 64))
  | v => digitSum 4 0 (bytesAt mem s (n / v.step * v.step))

/-- What the variant adds for `n` bytes at `s`, where a word begins. -/
def Variant.bodySum (v : Variant) (mem : Nat → BitVec 8) (s n : Nat) : Nat :=
  v.wideSum mem s n + digitSum v.tailWord 0 (bytesAt mem (s + n / v.step * v.step) (n % v.step))

/-- The stores of the tail: `t` bytes at `s`, to be copied to `x`. -/
def Variant.tailStores (v : Variant) (mem : Nat → BitVec 8) (s t x : Nat) : List (Nat × BitVec 8) :=
  match v with
  | .vec512 true => stretch x (min t 16 * 4) fun j => maskLoadZero mem s (2 ^ t - 1) (s + j)
  | .vec256 true => stretch x (min t 8 * 4) fun j => maskLoadZero mem s (2 ^ t - 1) (s + j)
  | _ => stretch x t fun j => mem (s + j)

def Variant.tailAt (v : Variant) (n x : Nat) : Nat :=
  match v with
  | .vec512 _ => x + (n / 512 * 512 + n % 512 / 64 * 512)
  | v => x + n / v.step * v.step

def Variant.wideStores (v : Variant) (mem : Nat → BitVec 8) (s n x : Nat) :
    List (Nat × BitVec 8) :=
  match v with
  | .vec512 _ => (stretch x (n / 512 * 512) fun j => mem (s + j)) ++
      (List.range (n % 512 / 64)).flatMap fun q =>
        stretch (x + n / 512 * 512 + q * 512) 64 fun j => mem (s + n / 512 * 512 + q * 64 + j)
  | v => stretch x (n / v.step * v.step) fun j => mem (s + j)

/-- The stores that copy `n` bytes at `s` to `x`. -/
def Variant.bodyStores (v : Variant) (mem : Nat → BitVec 8) (s n x : Nat) : List (Nat × BitVec 8) :=
  v.wideStores mem s n x ++ v.tailStores mem (s + n / v.step * v.step) (n % v.step) (v.tailAt n x)

section Chunk

variable (mem : Nat → BitVec 8) (isCopy : Bool) {f : Frame}

theorem loops_stage_vec512 (hlanes : f.lanes.length = 8) (mask : Bool) :
    Stage isCopy f (vecLoop mem isCopy stride64 (vecLoop mem isCopy stride512 f))
      (f.count / 64 * 64) (f.count / 512 * 512 + f.count % 512 / 64 * 512)
      ((Variant.vec512 mask).wideSum mem f.src f.count) ((Variant.vec512 mask).wideStores mem f.src f.count) := by
  have h1 := loop512_stage mem isCopy f hlanes
  have h2 := loop64_stage mem isCopy _ (h1.lanes.trans hlanes)
  have hrest : f.count - f.count / 512 * 512 = f.count % 512 := by omega
  rw [h1.count, h1.src, hrest] at h2
  have hn : f.count / 512 * 512 + f.count % 512 / 64 * 64 = f.count / 64 * 64 := by omega
  exact (h1.trans h2).congr hn rfl rfl fun _ => rfl

/-- **After the odd byte** the variant adds its words and makes its stores. -/
theorem afterOddByte_ends (v : Variant) (hlanes : f.lanes.length = v.lanes)
    (hodd : f.c.odd = false) :
    Ends isCopy f (afterOddByte mem isCopy v f) (v.bodySum mem f.src f.count)
      (v.bodyStores mem f.src f.count) := by
  have hrest : ∀ w, f.count - f.count / w * w = f.count % w := fun w => by
    have := div_add_mod' f.count w
    omega
  cases v with
  | vec512 mask =>
    have h := loops_stage_vec512 mem isCopy hlanes mask
    cases mask with
    | true =>
      have hend := h.masked mem (by omega) (show 16 = 4 * 4 from rfl) hlanes (by omega) hodd
        fun v hv => hadd8_eq_sum hv
      rw [hrest] at hend
      exact hend
    | false =>
      have hend := h.plain mem (by omega) hodd (hadd8_eq_sum (h.lanes.trans hlanes))
      rw [hrest] at hend
      exact hend
  | vec256 mask =>
    have h := stride256_plain.loops_stage mem isCopy stride32_plain (n := 2) rfl rfl (by decide)
      (by decide) (by decide) f hlanes
    rw [show stride32.step = 32 from rfl] at h
    cases mask with
    | true =>
      have hend := h.masked mem (by omega) (show 8 = 4 * 2 from rfl) hlanes (by omega) hodd
        fun v hv => hadd4_eq_sum hv
      rw [hrest] at hend
      exact hend
    | false =>
      have hend := h.plain mem (by omega) hodd (hadd4_eq_sum (h.lanes.trans hlanes))
      rw [hrest] at hend
      exact hend
  | vec128 =>
    have h := stride128_plain.loops_stage mem isCopy stride16_plain (n := 1) rfl rfl (by decide)
      (by decide) (by decide) f hlanes
    rw [show stride16.step = 16 from rfl] at h
    have hend := h.plain mem (by omega) hodd (hadd2_eq_sum (h.lanes.trans hlanes))
    rw [hrest] at hend
    exact hend
  | scalar =>
    have h := wordLoop_stage mem isCopy (show 0 < 4 by decide) f
    have hnil := eq_nil_of_length_eq_zero (h.lanes.trans hlanes)
    have htail := @plainTail_ends mem isCopy _ hnil (h.odd.trans hodd)
    rw [h.count, h.src, hrest] at htail
    exact h.ends htail (by omega)

/-- What a chunk of `count` bytes at `src` adds. -/
def Variant.chunkSum (v : Variant) (odd : Bool) (mem : Nat → BitVec 8) (src count : Nat) : Nat :=
  if odd then (mem src).toNat * 256 + v.bodySum mem (src + 1) (count - 1)
  else v.bodySum mem src count

/-- The stores that copy a chunk to `dst`. -/
def Variant.chunkStores (v : Variant) (odd : Bool) (mem : Nat → BitVec 8) (src count dst : Nat) :
    List (Nat × BitVec 8) :=
  if odd then (dst, mem (src + 1)) :: v.bodyStores mem (src + 1) (count - 1) (dst + 1)
  else v.bodyStores mem src count dst

/-- **`clib_ip_csum_inline`** on a chunk that is not empty. -/
theorem clibIpCsumInline_eq (v : Variant) (c : ClibIpCsum) (dst src : Nat) {count : Nat}
    (hpos : 0 < count) (hle : count ≤ 65535) :
    clibIpCsumInline mem isCopy v c dst src count =
      (⟨c.sum + BitVec.ofNat 64 (v.chunkSum c.odd mem src count), c.odd ^^ (count % 2 == 1)⟩,
        if isCopy then v.chunkStores c.odd mem src count dst else []) := by
  obtain ⟨sum, odd⟩ := c
  have hzero : (List.replicate v.lanes (0 : BitVec 64)).sum = 0 := by simp
  cases odd with
  | false =>
    have h := @afterOddByte_ends mem isCopy ⟨⟨sum, false⟩, count, src, dst,
      List.replicate v.lanes 0, []⟩ v length_replicate rfl
    refine Prod.ext (ClibIpCsum.ext ?_ ?_) h.stored
    · refine h.sum.trans ?_
      rw [Frame.total, hzero]
      exact congrArg (· + _) (BitVec.add_zero sum)
    · exact h.odd.trans (Bool.false_xor _).symm
  | true =>
    have hcount : (count + 65535) % 65536 = count - 1 := by omega
    have h := @afterOddByte_ends mem isCopy (oddByte mem isCopy ⟨⟨sum, true⟩, count, src, dst,
      List.replicate v.lanes 0, []⟩) v length_replicate rfl
    have hc : (oddByte mem isCopy ⟨⟨sum, true⟩, count, src, dst,
      List.replicate v.lanes 0, []⟩).count = count - 1 := hcount
    rw [hc] at h
    refine Prod.ext (ClibIpCsum.ext ?_ ?_) ?_
    · refine h.sum.trans ?_
      have htotal : (oddByte mem isCopy ⟨⟨sum, true⟩, count, src, dst,
          List.replicate v.lanes 0, []⟩).total =
            sum + BitVec.ofNat 64 ((mem src).toNat * 256) + (List.replicate v.lanes 0).sum := rfl
      rw [htotal, hzero, Variant.chunkSum, if_pos rfl, BitVec.ofNat_add, ← BitVec.add_assoc]
      exact congrArg (· + _) (BitVec.add_zero _)
    · refine h.odd.trans ?_
      rw [hc]
      by_cases hp : count % 2 = 1
      · rw [show (count - 1) % 2 = 0 by omega, hp]
        rfl
      · rw [show (count - 1) % 2 = 1 by omega, show count % 2 = 0 by omega]
        rfl
    · refine h.stored.trans ?_
      cases isCopy <;> rfl

end Chunk

end Vpp.Vector
