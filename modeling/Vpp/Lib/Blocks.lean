import Mathlib.Data.BitVec

/-!
# Blocks laid end to end

A list of blocks, each with a length and a name, laid out from a base position on, and a memory
that holds the cells of each block under its name. `seek` is the part of the list from the block
that holds a position; `read` is what the memory holds at a position. Copying into a block writes a
stretch of positions and nothing else (`wrote_fill`); stretches written one after the other add up
(`Wrote.trans`). Blocks may be appended at the end or dropped at the front without a change to what
is read.
-/

namespace Vpp.Lib.Blocks

open List

section Layout

variable {β : Type*} (len : β → Nat)

def total (bs : List β) : Nat := (bs.map len).sum

@[simp] theorem total_nil : total len [] = 0 := rfl

@[simp] theorem total_cons (b : β) (bs : List β) : total len (b :: bs) = len b + total len bs :=
  sum_cons

@[simp] theorem total_append (bs cs : List β) :
    total len (bs ++ cs) = total len bs + total len cs := by
  simp [total]

theorem total_split {bs pre post : List β} {b : β} (h : bs = pre ++ b :: post) :
    total len bs = total len pre + (len b + total len post) := by
  rw [h, total_append, total_cons]

theorem total_concat (bs : List β) (b : β) : total len (bs ++ [b]) = total len bs + len b := by
  rw [total_append, total_cons, total_nil, add_zero]

/-- The blocks from the one that holds position `p` on; none if `p` is past the end. -/
def seek : Nat → List β → Nat → List β
  | _, [], _ => []
  | base, b :: bs, p => if p < base + len b then b :: bs else seek (base + len b) bs p

/-- The block that holds position `p`, and where in the block. -/
def place : Nat → List β → Nat → Option (β × Nat)
  | _, [], _ => none
  | base, b :: bs, p => if p < base + len b then some (b, p - base) else place (base + len b) bs p

variable {len} {base p : Nat} {b : β} {bs pre post : List β}

theorem seek_suffix : seek len base bs p <:+ bs := by
  induction bs generalizing base with
  | nil => exact suffix_rfl
  | cons b bs ih =>
    unfold seek
    split
    · exact suffix_rfl
    · exact ih.trans (suffix_cons b bs)

theorem seek_append_right (h : base + total len pre ≤ p) :
    seek len base (pre ++ post) p = seek len (base + total len pre) post p := by
  induction pre generalizing base with
  | nil => rfl
  | cons b pre ih =>
    rw [total_cons] at h
    rw [cons_append, seek, if_neg (by omega), ih (by omega), total_cons, add_assoc]

theorem seek_append_left (h : p < base + total len pre) :
    seek len base (pre ++ post) p = seek len base pre p ++ post := by
  induction pre generalizing base with
  | nil =>
    cases post with
    | nil => rfl
    | cons b post =>
      rw [total_nil] at h
      exact if_pos (by omega)
  | cons b pre ih =>
    rw [total_cons] at h
    rw [cons_append, seek, seek]
    split
    · rfl
    · exact ih (by omega)

/-- The blocks up to the one that holds position `p`, with it. -/
def through (len : β → Nat) : Nat → List β → Nat → List β
  | _, [], _ => []
  | base, b :: bs, p => if p < base + len b then [b] else b :: through len (base + len b) bs p

theorem through_prefix : through len base bs p <+: bs := by
  induction bs generalizing base with
  | nil => exact prefix_rfl
  | cons b bs ih =>
    unfold through
    split
    · exact ⟨bs, rfl⟩
    · exact (prefix_cons_inj b).mpr ih

theorem through_split (h₁ : base + total len pre ≤ p) (h₂ : p < base + total len pre + len b) :
    through len base (pre ++ b :: post) p = pre ++ [b] := by
  induction pre generalizing base with
  | nil =>
    rw [total_nil] at h₂
    exact if_pos (by omega)
  | cons c pre ih =>
    rw [total_cons] at h₁ h₂
    rw [cons_append, through, if_neg (by omega), ih (by omega) (by omega)]
    rfl

theorem through_append_right (h : base + total len pre ≤ p) :
    through len base (pre ++ post) p = pre ++ through len (base + total len pre) post p := by
  induction pre generalizing base with
  | nil => rfl
  | cons b pre ih =>
    rw [total_cons] at h
    rw [cons_append, through, if_neg (by omega), ih (by omega), add_assoc]
    rfl

theorem le_of_through_eq (hb : base ≤ p) (h : through len base bs p = pre ++ b :: post) :
    base + total len pre ≤ p := by
  induction bs generalizing base pre with
  | nil =>
    exact absurd h.symm (append_ne_nil_of_right_ne_nil _ (cons_ne_nil _ _))
  | cons c bs ih =>
    cases pre with
    | nil => simpa using hb
    | cons d pre =>
      rw [through] at h
      split at h
      · exact absurd (List.cons.inj h).2.symm (append_ne_nil_of_right_ne_nil _ (cons_ne_nil _ _))
      · obtain ⟨rfl, hrest⟩ := List.cons.inj h
        rw [total_cons, ← add_assoc]
        exact ih (by omega) hrest

theorem place_append_right (h : base + total len pre ≤ p) :
    place len base (pre ++ post) p = place len (base + total len pre) post p := by
  induction pre generalizing base with
  | nil => rfl
  | cons b pre ih =>
    rw [total_cons] at h
    rw [cons_append, place, if_neg (by omega), ih (by omega), total_cons, add_assoc]

theorem place_append_left (hb : base ≤ p) (h : p < base + total len pre) :
    place len base (pre ++ post) p = place len base pre p := by
  induction pre generalizing base with
  | nil =>
    rw [total_nil] at h
    omega
  | cons b pre ih =>
    rw [total_cons] at h
    rw [cons_append, place, place]
    split
    · rfl
    · exact ih (by omega) (by omega)

theorem exists_split (hb : base ≤ p) (h : p < base + total len bs) :
    ∃ pre b post, bs = pre ++ b :: post ∧ base + total len pre ≤ p ∧
      p < base + total len pre + len b := by
  induction bs generalizing base with
  | nil =>
    rw [total_nil] at h
    omega
  | cons b bs ih =>
    rw [total_cons] at h
    by_cases hp : p < base + len b
    · exact ⟨[], b, bs, rfl, by simpa using hb, by simpa using hp⟩
    · obtain ⟨pre, c, post, rfl, h₁, h₂⟩ := @ih (base + len b) (by omega) (by omega)
      exact ⟨b :: pre, c, post, rfl, by rw [total_cons]; omega, by rw [total_cons]; omega⟩

theorem seek_split (h₁ : base + total len pre ≤ p) (h₂ : p < base + total len pre + len b) :
    seek len base (pre ++ b :: post) p = b :: post := by
  rw [seek_append_right h₁, seek, if_pos h₂]

theorem place_split (h₁ : base + total len pre ≤ p) (h₂ : p < base + total len pre + len b) :
    place len base (pre ++ b :: post) p = some (b, p - (base + total len pre)) := by
  rw [place_append_right h₁, place, if_pos h₂]

theorem seek_eq_nil (h : base + total len bs ≤ p) : seek len base bs p = [] := by
  rw [← append_nil bs, seek_append_right h]
  rfl

theorem exists_append_seek (len : β → Nat) (bs : List β) (hb : base ≤ p) :
    ∃ pre, bs = pre ++ seek len base bs p ∧ base + total len pre ≤ p := by
  by_cases h : p < base + total len bs
  · obtain ⟨pre, b, post, rfl, h₁, h₂⟩ := exists_split hb h
    exact ⟨pre, by rw [seek_split h₁ h₂], h₁⟩
  · exact ⟨bs, by rw [seek_eq_nil (Nat.le_of_not_lt h), append_nil], Nat.le_of_not_lt h⟩

theorem exists_of_seek_eq_cons (hb : base ≤ p) (h : seek len base bs p = b :: post) :
    ∃ pre, bs = pre ++ b :: post ∧ base + total len pre ≤ p ∧
      p < base + total len pre + len b := by
  have hp : p < base + total len bs := by
    by_contra hp
    rw [seek_eq_nil (Nat.le_of_not_lt hp)] at h
    cases h
  obtain ⟨pre, c, post', rfl, h₁, h₂⟩ := exists_split hb hp
  rw [seek_split h₁ h₂] at h
  cases h
  exact ⟨pre, rfl, h₁, h₂⟩

theorem seek_prefix {cs : List β} (h : cs <+: bs) : seek len base cs p <+: seek len base bs p := by
  obtain ⟨rest, rfl⟩ := h
  by_cases hp : p < base + total len cs
  · rw [seek_append_left hp]
    exact prefix_append _ _
  · rw [seek_eq_nil (Nat.le_of_not_lt hp)]
    exact nil_prefix

theorem place_mem {c : β} {j : Nat} (h : place len base bs p = some (c, j)) : c ∈ bs := by
  induction bs generalizing base with
  | nil => cases h
  | cons b bs ih =>
    unfold place at h
    split at h
    · cases h
      exact mem_cons_self
    · exact mem_cons_of_mem _ (ih h)

end Layout

/-! ## A memory of named blocks -/

section Memory

variable {β κ δ : Type*} {len : β → Nat} {name : β → κ}

def read (len : β → Nat) (name : β → κ) (m : κ → Nat → δ) (base : Nat) (bs : List β) (p : Nat) :
    Option δ :=
  (place len base bs p).map fun x => m (name x.1) x.2

/-- The step from `m` to `m'` puts `n` cells of `src` at position `p` and leaves the rest. -/
structure Wrote (len : β → Nat) (name : β → κ) (m m' : κ → Nat → δ) (base : Nat) (bs : List β)
    (p n : Nat) (src : Nat → δ) : Prop where
  inside : ∀ q, p ≤ q → q < p + n → read len name m' base bs q = some (src (q - p))
  outside : ∀ q, base ≤ q → q < p ∨ p + n ≤ q →
    read len name m' base bs q = read len name m base bs q

variable {m m' m'' : κ → Nat → δ} {base p q n k i off : Nat} {b : β} {bs pre post : List β}
  {src src' : Nat → δ}

theorem Wrote.refl : Wrote len name m m base bs p 0 src :=
  ⟨fun q h₁ h₂ => absurd h₂ (by omega), fun _ _ _ => rfl⟩

theorem Wrote.trans (h : Wrote len name m m' base bs p n src)
    (h' : Wrote len name m' m'' base bs (p + n) k src') (hb : base ≤ p) (src'' : Nat → δ)
    (hsrc : ∀ j < n + k, src'' j = if j < n then src j else src' (j - n)) :
    Wrote len name m m'' base bs p (n + k) src'' := by
  refine ⟨fun q h₁ h₂ => ?_, fun q h₁ h₂ => ?_⟩
  · by_cases hq : q < p + n
    · rw [h'.outside q (by omega) (.inl hq), h.inside q h₁ hq, hsrc _ (by omega), if_pos (by omega)]
    · rw [h'.inside q (by omega) (by omega), hsrc _ (by omega), if_neg (by omega), Nat.sub_sub]
  · rw [h'.outside q h₁ (by omega), h.outside q h₁ (by omega)]

theorem read_append_right (h : base + total len pre ≤ q) :
    read len name m base (pre ++ post) q = read len name m (base + total len pre) post q := by
  unfold read
  rw [place_append_right h]

theorem read_append_left (hb : base ≤ q) (h : q < base + total len pre) :
    read len name m base (pre ++ post) q = read len name m base pre q := by
  unfold read
  rw [place_append_left hb h]

def reads (len : β → Nat) (name : β → κ) (m : κ → Nat → δ) (base : Nat) (bs : List β) (p n : Nat) :
    List (Option δ) :=
  (List.range n).map fun j => read len name m base bs (p + j)

theorem reads_add (a b : Nat) : reads len name m base bs p (a + b) =
    reads len name m base bs p a ++ reads len name m base bs (p + a) b := by
  simp only [reads, range_add, map_append, map_map, Function.comp_def, add_assoc]

theorem reads_block (hi : i + n ≤ len b) :
    reads len name m base (pre ++ b :: post) (base + total len pre + i) n =
      ((List.range n).map fun j => m (name b) (i + j)).map some := by
  rw [map_map]
  refine map_congr_left fun j hj => ?_
  have := mem_range.mp hj
  rw [read, place_split (by omega) (by omega), Option.map_some]
  congr 2
  omega

variable [DecidableEq κ]

/-- Copy `n` cells of `src` from `off` on into block `k` at `i`. -/
def fill (m : κ → Nat → δ) (k : κ) (i : Nat) (src : Nat → δ) (off n : Nat) : κ → Nat → δ :=
  fun k' j => if k' = k ∧ i ≤ j ∧ j < i + n then src (off + (j - i)) else m k' j

theorem read_fill_of_notMem {k : κ} (hn : k ∉ bs.map name) :
    read len name (fill m k i src off n) base bs q = read len name m base bs q := by
  unfold read
  cases h : place len base bs q with
  | none => rfl
  | some x =>
    have hne : name x.1 ≠ k := fun he => hn (he ▸ mem_map_of_mem (place_mem h))
    simp only [Option.map_some, fill, hne, false_and, if_false]

/-- **Filling a part of a block** writes the positions it stands for. -/
theorem wrote_fill (hnd : ((pre ++ b :: post).map name).Nodup) (hi : i + n ≤ len b) :
    Wrote len name m (fill m (name b) i src off n) base (pre ++ b :: post)
      (base + total len pre + i) n fun j => src (off + j) := by
  rw [map_append, map_cons, nodup_append, nodup_cons] at hnd
  obtain ⟨-, ⟨hpost, -⟩, hpre⟩ := hnd
  have hpre : name b ∉ pre.map name := fun h => hpre _ h _ mem_cons_self rfl
  have hin : ∀ q, base + total len pre ≤ q → q < base + total len pre + len b →
      ∀ m : κ → Nat → δ, read len name m base (pre ++ b :: post) q =
        some (m (name b) (q - (base + total len pre))) := by
    intro q h₁ h₂ m
    rw [read, place_split h₁ h₂, Option.map_some]
  refine ⟨fun q h₁ h₂ => ?_, fun q h₁ h₂ => ?_⟩
  · rw [hin q (by omega) (by omega), fill, if_pos ⟨rfl, by omega, by omega⟩]
    congr 2
    omega
  by_cases hq : q < base + total len pre
  · rw [read_append_left h₁ hq, read_append_left h₁ hq, read_fill_of_notMem hpre]
  by_cases hq' : q < base + total len pre + len b
  · rw [hin q (by omega) hq', hin q (by omega) hq', fill, if_neg (by omega)]
  · have hcons : pre ++ b :: post = (pre ++ [b]) ++ post := by simp
    have htot : total len (pre ++ [b]) = total len pre + len b := by simp
    rw [hcons, read_append_right (by omega), read_append_right (by omega),
      read_fill_of_notMem hpost]

end Memory

end Vpp.Lib.Blocks
