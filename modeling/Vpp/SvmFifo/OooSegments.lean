import Vpp.Lib.Apart
import Vpp.Lib.Chain
import Vpp.Lib.Serial

/-!
# Out-of-order segments of a fifo

`ooo_segment_t` and the functions of `svm_fifo.c` that keep the list of data written past the tail:
a doubly linked list in a pool, ordered by start, merged on insertion and collected once the tail
reaches it. Positions are 32 bits wide and compared by the sign of their difference.

A function answers `none` where the C would follow an index that holds no segment, or would not
come back.
-/

namespace Vpp.SvmFifo

open Lib
open List hiding after
open Function (update_self update_of_ne)
open Option (bind_eq_bind bind_some map_some)

/-- `ooo_segment_t`; the links are in the pool's nodes. -/
structure OooSegment where
  start : BitVec 32
  length : BitVec 32
deriving DecidableEq, Repr

/-- `ooo_segment_end_pos` -/
def OooSegment.endPos (s : OooSegment) : BitVec 32 := s.start + s.length

/-- `ooo_segments`, `ooos_list_head` and `ooos_newest`; `OOO_SEGMENT_INVALID_INDEX` is `none`. -/
structure OooList where
  pool : Pool (Node OooSegment)
  head : Option Nat
  newest : Option Nat

namespace OooList

def empty : OooList := ⟨Pool.empty, none, none⟩

/-- `ooo_segment_free` -/
def oooSegmentFree (o : OooList) (i : Nat) : OooList :=
  match o.pool.elts i with
  | none => o
  | some cur =>
    let pool := o.pool.modifyAt cur.next fun n => { n with prev := cur.prev }
    let pool := pool.modifyAt cur.prev fun n => { n with next := cur.next }
    { o with
      pool := pool.put i
      head := if cur.prev = none then cur.next else o.head }

/-- The search loop of `ooo_segment_add`: the first segment that does not start before
`offset_pos`, or the last one. -/
def findFirst (o : OooList) (offsetPos : BitVec 32) : Nat → Nat → Option Nat
  | 0, _ => none
  | fuel + 1, i => do
    let s ← o.pool.elts i
    match s.next with
    | none => some i
    | some j => if seqLt s.val.start offsetPos then o.findFirst offsetPos fuel j else some i

/-- The loop of `ooo_segment_add` that frees the segments `[.., offset_end_pos)` covers; the
segment it stops at. -/
def freeCovered (offsetEndPos : BitVec 32) : Nat → OooList → Option Nat →
    Option (OooList × Option Nat)
  | _, o, none => some (o, none)
  | 0, _, some _ => none
  | fuel + 1, o, some k => do
    let it ← o.pool.elts k
    if seqLeq it.val.endPos offsetEndPos then
      freeCovered offsetEndPos fuel (o.oooSegmentFree k) it.next
    else some (o, some k)

/-- Set the length of a segment so that it ends at `endPos`. -/
def extend (o : OooList) (i : Nat) (endPos : BitVec 32) : OooList :=
  { o with
    pool := o.pool.modify i fun n => { n with val := ⟨n.val.start, endPos - n.val.start⟩ } }

/-- Merge with the segment the new data partly overlaps, if it overlaps one. -/
def mergeLast (o : OooList) (i : Nat) (offsetEndPos : BitVec 32) : Option Nat → Option OooList
  | none => some o
  | some k => do
    let it ← o.pool.elts k
    if seqLeq it.val.start offsetEndPos then
      some ((o.extend i it.val.endPos).oooSegmentFree k)
    else some o

/-- `ooo_segment_add` from `check_tail` on -/
def checkTail (o : OooList) (i : Nat) (sEndPos offsetEndPos : BitVec 32) : Option OooList := do
  if seqGt offsetEndPos sEndPos then
    let o := o.extend i offsetEndPos
    let s ← o.pool.elts i
    let (o, it) ← freeCovered offsetEndPos o.pool.len o s.next
    let o ← o.mergeLast i offsetEndPos it
    some { o with newest := some i }
  else some o

/-- Link a new segment in before segment `i`. -/
def addBefore (o : OooList) (i : Nat) (s : Node OooSegment) (new : OooSegment) : OooList :=
  let n := o.pool.next
  let pool := o.pool.get ⟨none, none, new⟩
  let pool := pool.modify n fun m => { m with prev := s.prev }
  let pool := pool.modifyAt s.prev fun m => { m with next := some n }
  let pool := pool.modify n fun m => { m with next := some i }
  let pool := pool.modify i fun m => { m with prev := some n }
  { pool, head := if s.prev = none then some n else o.head, newest := some n }

/-- Link a new segment in after segment `i`, the last one. -/
def addAfter (o : OooList) (i : Nat) (new : OooSegment) : OooList :=
  let n := o.pool.next
  let pool := o.pool.get ⟨none, none, new⟩
  let pool := pool.modify n fun m => { m with prev := some i }
  let pool := pool.modify i fun m => { m with next := some n }
  { o with pool, newest := some n }

/-- `ooo_segment_add` once `s` is found and no previous segment overlaps. -/
def addAt (o : OooList) (i : Nat) (s : Node OooSegment) (offsetPos offsetEndPos length : BitVec 32) :
    Option OooList :=
  let sEndPos := s.val.endPos
  if seqLt offsetEndPos s.val.start then some (o.addBefore i s ⟨offsetPos, length⟩)
  else if seqGt offsetPos sEndPos then some (o.addAfter i ⟨offsetPos, length⟩)
  else if seqLt offsetPos s.val.start then
    let pool := o.pool.modify i fun n => { n with val := ⟨offsetPos, sEndPos - offsetPos⟩ }
    checkTail { o with pool, newest := some i } i sEndPos offsetEndPos
  else o.checkTail i sEndPos offsetEndPos

/-- `ooo_segment_add` -/
def oooSegmentAdd (o : OooList) (offset tail length : BitVec 32) : Option OooList :=
  let offsetPos := tail + offset
  let offsetEndPos := tail + offset + length
  let o := { o with newest := none }
  match o.head with
  | none =>
    let n := o.pool.next
    some { pool := o.pool.get ⟨none, none, ⟨offsetPos, length⟩⟩, head := some n, newest := some n }
  | some h => do
    let i ← o.findFirst offsetPos o.pool.len h
    let s ← o.pool.elts i
    match s.prev with
    | none => o.addAt i s offsetPos offsetEndPos length
    | some j =>
      let prev ← o.pool.elts j
      if seqLeq offsetPos prev.val.endPos then o.checkTail j prev.val.endPos offsetEndPos
      else o.addAt i s offsetPos offsetEndPos length

/-- The loop of `ooo_segment_try_collect`. The sign test is on the 32-bit signed `diff`; the other two tests
are unsigned. -/
def collectLoop (nBytesEnqueued tail : BitVec 32) : Nat → OooList → Nat →
    Option (OooList × BitVec 32)
  | 0, _, _ => none
  | fuel + 1, o, i => do
    let s ← o.pool.elts i
    let diff := tail - s.val.start
    if 0 ≤ diff.toInt ∧ diff < nBytesEnqueued then
      if diff < s.val.length then some (o.oooSegmentFree i, s.val.length - diff)
      else
        match s.next with
        | some j => collectLoop nBytesEnqueued tail fuel (o.oooSegmentFree i) j
        | none => some (o.oooSegmentFree i, 0)
    else some (o, 0)

/-- `ooo_segment_try_collect`: the bytes by which the tail is to advance further -/
def oooSegmentTryCollect (o : OooList) (nBytesEnqueued tail : BitVec 32) :
    Option (OooList × BitVec 32) := do
  let h ← o.head
  let s ← o.pool.elts h
  let diff := tail - s.val.start
  if diff > nBytesEnqueued then some (o, 0)
  else collectLoop nBytesEnqueued tail o.pool.len o h

end OooList

/-! ## The list as spans of stream positions -/

def seg (s : Span) : OooSegment := ⟨wrap32 s.lo, wrap32 (s.hi - s.lo)⟩

theorem endPos_seg {s : Span} (h : s.lo ≤ s.hi) : (seg s).endPos = wrap32 s.hi := by
  show wrap32 s.lo + wrap32 (s.hi - s.lo) = _
  rw [wrap32_add, Nat.add_sub_cancel' h]

def segs (l : List (Nat × Span)) : List (Nat × OooSegment) := l.map fun x => (x.1, seg x.2)

variable {fuel : Nat} {l : List (Nat × Span)} {new : OooSegment} {x : Nat × Span}

@[simp] theorem segs_cons (x : Nat × Span) : segs (x :: l) = (x.1, seg x.2) :: segs l := rfl

@[simp] theorem segs_append (l₁ l₂ : List (Nat × Span)) :
    segs (l₁ ++ l₂) = segs l₁ ++ segs l₂ := map_append

@[simp] theorem length_segs (l : List (Nat × Span)) : (segs l).length = l.length := length_map ..

/-- The pool holds exactly the spans `l`, which lie apart, after `tail` and up to `bound`. -/
structure Pending (o : OooList) (tail bound : Nat) (l : List (Nat × Span)) : Prop where
  chained : Chained o.pool o.head (segs l)
  apart : Apart l
  after : ∀ x ∈ l, tail < x.2.lo
  within : ∀ x ∈ l, x.2.hi ≤ bound

theorem Pending.empty (tail bound : Nat) : Pending OooList.empty tail bound [] :=
  ⟨Chained.empty, apart_nil, (fun _ h => nomatch h), fun _ h => nomatch h⟩

namespace OooList

variable {o : OooList} {l₁ l₂ : List (Nat × OooSegment)} {i : Nat} {a : OooSegment}

section

variable (h : Chained o.pool o.head (l₁ ++ (i, a) :: l₂))
include h

theorem chained_free : Chained (o.oooSegmentFree i).pool (o.oooSegmentFree i).head (l₁ ++ l₂) := by
  unfold oooSegmentFree
  rw [h.elts_eq]
  exact h.unlink

theorem chained_modify {g : Node OooSegment → Node OooSegment} {b : OooSegment}
    (hg : ∀ next prev, g ⟨next, prev, a⟩ = ⟨next, prev, b⟩) :
    Chained (o.pool.modify i g) o.head (l₁ ++ (i, b) :: l₂) := by
  refine h.update ?_ fun j hj => ?_
  · rw [Pool.elts_modify, update_self, h.elts_eq, map_some, map_some, hg]
  · rw [Pool.elts_modify, update_of_ne hj]

theorem chained_addBefore :
    Chained (o.addBefore i ⟨firstIdx none l₂, lastIdx none l₁, a⟩ new).pool
      (o.addBefore i ⟨firstIdx none l₂, lastIdx none l₁, a⟩ new).head
      (l₁ ++ (o.pool.next, new) :: (i, a) :: l₂) := by
  obtain ⟨-, -, hi₁, -, -⟩ := h.nodup_iff
  have hfresh := o.pool.elts_next
  have hne := h.ne_of_fresh hfresh
  have hin : i ≠ o.pool.next := hne i (by simp)
  have hmem : ∀ j ∈ l₁.map Prod.fst, j ≠ o.pool.next := fun j hj =>
    hne j (by rw [map_append]; exact mem_append_left _ hj)
  have hlast : lastIdx none l₁ ≠ some o.pool.next := fun he => hmem _ (mem_of_lastIdx he) rfl
  have hlast' : lastIdx none l₁ ≠ some i := fun he => hi₁ (mem_of_lastIdx he)
  have hhead : (o.addBefore i ⟨firstIdx none l₂, lastIdx none l₁, a⟩ new).head =
      firstIdx (some o.pool.next) l₁ := by
    show (if lastIdx none l₁ = none then some o.pool.next else o.head) = _
    rw [h.head_eq]
    cases l₁ with
    | nil => rfl
    | cons x l => rw [if_neg (by simp)]; rfl
  rw [hhead]
  refine h.insert hfresh ?_ ?_ ?_ ?_
  · show (Pool.modify _ i _).elts _ = _
    simp only [Pool.elts_modify, Pool.elts_modifyAt, Pool.elts_get, update_self,
      update_of_ne hin.symm, if_neg hlast]
    rfl
  · intro j hj
    have hjn : j ≠ o.pool.next := hmem j (mem_of_lastIdx hj)
    have hji : j ≠ i := fun he => hi₁ (he ▸ mem_of_lastIdx hj)
    show (Pool.modify _ i _).elts j = _
    simp only [Pool.elts_modify, Pool.elts_modifyAt, Pool.elts_get, update_of_ne hji,
      update_of_ne hjn, if_pos hj]
  · intro j hj
    obtain rfl := Option.some.inj hj
    show (Pool.modify _ i _).elts i = _
    simp only [Pool.elts_modify, Pool.elts_modifyAt, Pool.elts_get, update_self,
      update_of_ne hin, if_neg hlast']
  · intro j hjn hl hf
    have hji : j ≠ i := fun he => hf (by rw [he]; rfl)
    show (Pool.modify _ i _).elts j = _
    simp only [Pool.elts_modify, Pool.elts_modifyAt, Pool.elts_get, update_of_ne hji,
      update_of_ne hjn, if_neg hl]

end

theorem chained_addAfter (h : Chained o.pool o.head (l₁ ++ [(i, a)])) :
    Chained (o.addAfter i new).pool (o.addAfter i new).head
      (l₁ ++ [(i, a), (o.pool.next, new)]) := by
  have hfresh := o.pool.elts_next
  have hin : i ≠ o.pool.next := h.ne_of_fresh hfresh i (by simp)
  have hlast : lastIdx none (l₁ ++ [(i, a)]) = some i := lastIdx_append
  have h' : Chained o.pool o.head ((l₁ ++ [(i, a)]) ++ []) := by rwa [append_nil]
  have hhead : (o.addAfter i new).head = firstIdx (some o.pool.next) (l₁ ++ [(i, a)]) := by
    show o.head = _
    rw [h.head_eq, firstIdx_append, firstIdx_append]
    rfl
  have happ : l₁ ++ [(i, a), (o.pool.next, new)] = (l₁ ++ [(i, a)]) ++ [(o.pool.next, new)] := by
    simp
  rw [hhead, happ]
  refine h'.insert hfresh ?_ ?_ (fun j hj => nomatch hj) ?_
  · show (Pool.modify _ i _).elts _ = _
    simp only [Pool.elts_modify, Pool.elts_get, update_self, update_of_ne hin.symm, hlast]
    rfl
  · intro j hj
    obtain rfl := Option.some.inj (hlast.symm.trans hj)
    show (Pool.modify _ i _).elts i = _
    simp only [Pool.elts_modify, Pool.elts_get, update_self, update_of_ne hin]
  · intro j hjn hl hf
    have hji : j ≠ i := fun he => hl (by rw [hlast, he])
    show (Pool.modify _ i _).elts j = _
    simp only [Pool.elts_modify, Pool.elts_get, update_of_ne hji, update_of_ne hjn]

end OooList

section Spec

variable {o : OooList} {tail bound b : Nat} {l l₁ l₂ : List (Nat × Span)} {i : Nat} {s : Span}

/-- Positions of one window, whose 32-bit names compare as the positions do. -/
structure Window (tail bound : Nat) (l : List (Nat × Span)) : Prop where
  lt : bound < tail + 2 ^ 31
  mem : ∀ i s, (i, s) ∈ l → tail ≤ s.lo ∧ s.lo < s.hi ∧ s.hi ≤ bound

theorem Window.of_subset (h : Window tail bound l) (hl : l₁ ⊆ l) : Window tail bound l₁ :=
  ⟨h.lt, fun i s hx => h.mem i s (hl hx)⟩

theorem Pending.window (h : Pending o tail bound l) (hlt : bound < tail + 2 ^ 31) :
    Window tail bound l :=
  ⟨hlt, fun _ _ hx => ⟨(h.after _ hx).le, h.apart.pos _ hx, h.within _ hx⟩⟩

variable {a tail' tail'' : Nat} {o' : OooList} {l' : List (Nat × Span)}

theorem findFirst_spec (l₁ : List (Nat × Span)) (fuel : Nat)
    (h : Chained o.pool o.head (segs (l₁ ++ (i, s) :: l₂)))
    (hw : Window tail bound ((i, s) :: l₂)) (ha : tail ≤ a) (hab : a ≤ bound)
    (hfuel : l₂.length < fuel) :
    ∃ m₁ j t m₂, (i, s) :: l₂ = m₁ ++ (j, t) :: m₂ ∧
      o.findFirst (wrap32 a) fuel i = some j ∧
      (∀ x ∈ m₁, x.2.lo < a) ∧ (m₂ = [] ∨ a ≤ t.lo) := by
  induction l₂ generalizing l₁ i s fuel with
  | nil =>
    obtain ⟨fuel, rfl⟩ : ∃ k, fuel = k + 1 := ⟨fuel - 1, by omega⟩
    refine ⟨[], i, s, [], rfl, ?_, (fun _ h => nomatch h), .inl rfl⟩
    rw [segs_append] at h
    simp only [OooList.findFirst, h.elts_eq]
    rfl
  | cons x l₂ ih =>
    obtain ⟨fuel, rfl⟩ : ∃ k, fuel = k + 1 := ⟨fuel - 1, by omega⟩
    have h' := h
    rw [segs_append] at h'
    obtain ⟨hlo, hpos, hhi⟩ := hw.mem i s mem_cons_self
    have hlt := hw.lt
    have hcmp : seqLt (seg s).start (wrap32 a) = decide (s.lo < a) :=
      seqLt_wrap32 (by omega) (by omega)
    have hstep : o.findFirst (wrap32 a) (fuel + 1) i =
        if s.lo < a then o.findFirst (wrap32 a) fuel x.1 else some i := by
      simp only [OooList.findFirst, h'.elts_eq]
      show (if seqLt (seg s).start (wrap32 a) = true then _ else _) = _
      rw [hcmp]
      simp only [decide_eq_true_eq]
    by_cases hsa : s.lo < a
    · have hc : Chained o.pool o.head (segs ((l₁ ++ [(i, s)]) ++ x :: l₂)) := by
        rwa [append_assoc]
      obtain ⟨m₁, j, t, m₂, heq, hfind, hlt', hend⟩ := ih
        (l₁ ++ [(i, s)]) fuel hc (hw.of_subset (subset_cons_self _ _)) (by simp at hfuel; omega)
      refine ⟨(i, s) :: m₁, j, t, m₂, by rw [heq]; rfl, ?_, ?_, hend⟩
      · rw [hstep, if_pos hsa]
        exact hfind
      · intro y hy
        rcases mem_cons.mp hy with rfl | hy
        · exact hsa
        · exact hlt' y hy
    · exact ⟨[], i, s, x :: l₂, rfl, by rw [hstep, if_neg hsa], (fun _ h => nomatch h),
        .inr (Nat.le_of_not_lt hsa)⟩

theorem freeCovered_spec (l₁ : List (Nat × Span)) (fuel : Nat) (h : Chained o.pool o.head (segs (l₁ ++ l₂)))
    (hw : Window tail bound l₂) (hb : tail ≤ b) (hbb : b ≤ bound) (hfuel : l₂.length ≤ fuel) :
    ∃ o', OooList.freeCovered (wrap32 b) fuel o (firstIdx none (segs l₂)) =
        some (o', firstIdx none (segs (l₂.dropWhile fun x => decide (x.2.hi ≤ b)))) ∧
      Chained o'.pool o'.head (segs (l₁ ++ l₂.dropWhile fun x => decide (x.2.hi ≤ b))) := by
  induction l₂ generalizing o fuel with
  | nil => exact ⟨o, by cases fuel <;> rfl, h⟩
  | cons x l₂ ih =>
    obtain ⟨fuel, rfl⟩ : ∃ k, fuel = k + 1 := ⟨fuel - 1, by simp at hfuel; omega⟩
    obtain ⟨i, s⟩ := x
    have h' := h
    rw [segs_append] at h'
    obtain ⟨hlo, hpos, hhi⟩ := hw.mem i s mem_cons_self
    have hlt := hw.lt
    have hcmp : seqLeq (seg s).endPos (wrap32 b) = decide (s.hi ≤ b) := by
      rw [endPos_seg hpos.le]
      exact seqLeq_wrap32 (by omega) (by omega)
    have hstep : OooList.freeCovered (wrap32 b) (fuel + 1) o (some i) =
        if s.hi ≤ b then OooList.freeCovered (wrap32 b) fuel (o.oooSegmentFree i)
          (firstIdx none (segs l₂)) else some (o, some i) := by
      simp only [OooList.freeCovered, h'.elts_eq, bind_eq_bind, bind_some]
      rw [hcmp]
      simp only [decide_eq_true_eq]
      rfl
    by_cases hsb : s.hi ≤ b
    · obtain ⟨o', ho', hc'⟩ := ih fuel (by rw [segs_append]; exact OooList.chained_free h')
        (hw.of_subset (subset_cons_self _ _)) (by simp at hfuel; omega)
      rw [dropWhile_cons_of_pos (by simpa using hsb)]
      refine ⟨o', ?_, hc'⟩
      show OooList.freeCovered (wrap32 b) (fuel + 1) o (some i) = _
      rw [hstep, if_pos hsb]
      exact ho'
    · rw [dropWhile_cons_of_neg (by simpa using hsb)]
      refine ⟨o, ?_, h⟩
      show OooList.freeCovered (wrap32 b) (fuel + 1) o (some i) = _
      rw [hstep, if_neg hsb]
      rfl

theorem chained_extend {e : Nat} (h : Chained o.pool o.head (segs (l₁ ++ (i, s) :: l₂)))
    (hle : s.lo ≤ e) :
    Chained (o.extend i (wrap32 e)).pool (o.extend i (wrap32 e)).head
      (segs (l₁ ++ (i, ⟨s.lo, e⟩) :: l₂)) := by
  rw [segs_append] at h ⊢
  refine OooList.chained_modify h fun next prev => ?_
  show Node.mk next prev (OooSegment.mk (wrap32 s.lo) (wrap32 e - wrap32 s.lo)) = _
  rw [wrap32_sub hle]
  rfl

/-- **From `check_tail` on**, a segment grows over everything up to `b` and what that reaches. -/
theorem checkTail_spec (h : Chained o.pool o.head (segs (l₁ ++ (i, s) :: l₂)))
    (hap : Apart ((i, s) :: l₂)) (hw : Window tail bound ((i, s) :: l₂)) (hb : tail ≤ b)
    (hbb : b ≤ bound) :
    ∃ o', o.checkTail i (wrap32 s.hi) (wrap32 b) = some o' ∧
      Chained o'.pool o'.head
        (segs (l₁ ++ (i, (absorb s.lo b s l₂).1) :: (absorb s.lo b s l₂).2)) := by
  obtain ⟨hlo, hpos, hhi⟩ := hw.mem i s mem_cons_self
  have hlt := hw.lt
  have hcmp : seqGt (wrap32 b) (wrap32 s.hi) = decide (s.hi < b) :=
    seqGt_wrap32 (by omega) (by omega)
  unfold OooList.checkTail absorb
  rw [hcmp, min_self]
  by_cases hsb : s.hi < b
  · have hext := chained_extend (e := b) h (by omega)
    have hext' := hext
    rw [segs_append] at hext'
    obtain ⟨o₁, hfree, hc₁⟩ := freeCovered_spec
      (l₁ ++ [(i, ⟨s.lo, b⟩)]) (o.extend i (wrap32 b)).pool.len
      (by rwa [append_assoc])
      (hw.of_subset (subset_cons_self _ _)) hb hbb
      (by have := hext.length_le; simp at this; omega)
    rw [if_pos (by simpa using hsb), if_pos hsb]
    simp only [hext'.elts_eq]
    show ∃ o', ((OooList.freeCovered (wrap32 b) (o.extend i (wrap32 b)).pool.len
      (o.extend i (wrap32 b)) (firstIdx none (segs l₂))).bind _) = some o' ∧ _
    rw [hfree]
    simp only [bind_some, swallow_eq]
    -- the segment the loop stops at ends after `b`; it is merged if it starts by `b`
    cases hr : l₂.dropWhile fun x => decide (x.2.hi ≤ b) with
    | nil =>
      rw [hr, append_nil] at hc₁
      exact ⟨_, rfl, hc₁⟩
    | cons x r =>
      obtain ⟨k, t⟩ := x
      have hsub : (k, t) :: r ⊆ l₂ := hr ▸ (dropWhile_suffix _).subset
      obtain ⟨htlo, htpos, hthi⟩ := hw.mem k t (mem_cons_of_mem _ (hsub mem_cons_self))
      have hst : s.hi < t.lo := (apart_cons.mp hap).2.1 _ (hsub mem_cons_self)
      have hcmp' : seqLeq (seg t).start (wrap32 b) = decide (t.lo ≤ b) :=
        seqLeq_wrap32 (by omega) (by omega)
      rw [hr] at hc₁
      have hc₁' := hc₁
      rw [segs_append] at hc₁'
      show ∃ o', ((o₁.mergeLast i (wrap32 b) (some k)).bind _) = some o' ∧ _
      simp only [OooList.mergeLast, hc₁'.elts_eq, bind_eq_bind, bind_some, hcmp',
        decide_eq_true_eq]
      by_cases htb : t.lo ≤ b
      · rw [if_pos htb, if_pos htb, endPos_seg htpos.le]
        refine ⟨_, rfl, ?_⟩
        rw [append_assoc] at hc₁
        have hext₁ := chained_extend hc₁ (by show s.lo ≤ t.hi; omega)
        have hc₂ : Chained (o₁.extend i (wrap32 t.hi)).pool (o₁.extend i (wrap32 t.hi)).head
            (segs (l₁ ++ [(i, ⟨s.lo, t.hi⟩)]) ++ (k, seg t) :: segs r) := by
          rw [← segs_cons (k, t), ← segs_append, append_assoc]
          exact hext₁
        have hfree' := OooList.chained_free hc₂
        rw [← segs_append, append_assoc] at hfree'
        exact hfree'
      · rw [if_neg htb, if_neg htb]
        refine ⟨_, rfl, ?_⟩
        rw [append_assoc] at hc₁
        exact hc₁
  · rw [if_neg (by simpa using hsb), if_neg hsb]
    exact ⟨o, rfl, h⟩

theorem Pending.link {n : Nat} (h : Pending o tail bound (l₁ ++ l₂))
    (hc : Chained o'.pool o'.head (segs (l₁ ++ (n, ⟨a, b⟩) :: l₂))) (ha : tail < a) (hab : a < b)
    (hb : b ≤ bound) (hpre : ∀ x ∈ l₁, x.2.hi < a) (hpost : ∀ y ∈ l₂, b < y.2.lo) :
    Pending o' tail bound (l₁ ++ (n, ⟨a, b⟩) :: l₂) := by
  obtain ⟨hap₁, hap₂, hapart⟩ := apart_append.mp h.apart
  have hmem : ∀ x ∈ l₁ ++ (n, ⟨a, b⟩) :: l₂, x ∈ l₁ ++ l₂ ∨ x = (n, ⟨a, b⟩) := by
    intro x hx
    rw [mem_append, mem_cons] at hx
    rw [mem_append]
    rcases hx with hx | hx | hx
    · exact .inl (.inl hx)
    · exact .inr hx
    · exact .inl (.inr hx)
  refine ⟨hc, apart_append.mpr ⟨hap₁, apart_cons.mpr ⟨hab, hpost, hap₂⟩, fun x hx y hy => ?_⟩,
    fun x hx => ?_, fun x hx => ?_⟩
  · rcases mem_cons.mp hy with rfl | hy
    · exact hpre x hx
    · exact hapart x hx y hy
  · rcases hmem x hx with hx | rfl
    · exact h.after x hx
    · exact ha
  · rcases hmem x hx with hx | rfl
    · exact h.within x hx
    · exact hb

section

variable (h : Pending o tail bound (l₁ ++ (i, s) :: l₂))
include h

theorem Pending.merge (hc : Chained o'.pool o'.head
      (segs (l₁ ++ (i, (absorb a b s l₂).1) :: (absorb a b s l₂).2)))
    (ha : tail < a) (hb : b ≤ bound) (hpre : ∀ x ∈ l₁, x.2.hi < a) :
    Pending o' tail bound (l₁ ++ (i, (absorb a b s l₂).1) :: (absorb a b s l₂).2) := by
  have hs : (i, s) ∈ l₁ ++ (i, s) :: l₂ := by simp
  have hsub : ∀ x ∈ l₁ ++ (i, (absorb a b s l₂).1) :: (absorb a b s l₂).2,
      x ∈ l₁ ++ (i, s) :: l₂ ∨ x = (i, (absorb a b s l₂).1) := by
    intro x hx
    rw [mem_append, mem_cons] at hx
    rw [mem_append, mem_cons]
    rcases hx with hx | hx | hx
    · exact .inl (.inl hx)
    · exact .inr hx
    · exact .inl (.inr (.inr ((absorb_sublist a b s l₂).subset hx)))
  refine ⟨hc, h.apart.absorb hpre, fun x hx => ?_, fun x hx => ?_⟩
  · rcases hsub x hx with hx | rfl
    · exact h.after x hx
    · rw [absorb_lo]
      exact lt_min ha (h.after _ hs)
  · rcases hsub x hx with hx | rfl
    · exact h.within x hx
    · exact absorb_hi_le hb (h.within _ hs) fun x hx => h.within x (by simp [hx])

/-- **From `check_tail` on**, for data that meets the segment from the right. -/
theorem checkTail_merge
    (hlt : bound < tail + 2 ^ 31) (ha : tail < a) (hab : a < b) (hb : b ≤ bound) (hlo : s.lo ≤ a)
    (hhi : a ≤ s.hi) (hpre : ∀ x ∈ l₁, x.2.hi < a) :
    ∃ o' l', o.checkTail i (wrap32 s.hi) (wrap32 b) = some o' ∧ Pending o' tail bound l' ∧
      ∀ p, Occupied l' p ↔ Occupied (l₁ ++ (i, s) :: l₂) p ∨ (a ≤ p ∧ p < b) := by
  have hap := (apart_append.mp h.apart).2.1
  obtain ⟨o', ho', hc⟩ := checkTail_spec h.chained hap
    ((h.window hlt).of_subset (subset_append_right _ _)) (by omega) hb
  have habs : absorb s.lo b s l₂ = absorb a b s l₂ := by
    unfold absorb
    rw [min_self, min_eq_right hlo]
  rw [habs] at hc
  refine ⟨o', _, ho', h.merge hc ha hb hpre, fun p => ?_⟩
  rw [occupied_append, occupied_absorb hap hhi (by omega), occupied_append, or_assoc]

/-- **`ooo_segment_add` once the place is found.** The new span goes between its neighbours, or is
merged into the segment it meets. -/
theorem addAt_spec (hlt : bound < tail + 2 ^ 31) (ha : tail < a) (hab : a < b) (hb : b ≤ bound)
    (hpre : ∀ x ∈ l₁, x.2.hi < a) (hend : l₂ = [] ∨ a ≤ s.lo) :
    ∃ o' l', o.addAt i ⟨firstIdx none (segs l₂), lastIdx none (segs l₁), seg s⟩ (wrap32 a) (wrap32 b)
        (wrap32 (b - a)) = some o' ∧
      Pending o' tail bound l' ∧
      ∀ p, Occupied l' p ↔ Occupied (l₁ ++ (i, s) :: l₂) p ∨ (a ≤ p ∧ p < b) := by
  obtain ⟨hlo, hpos, hhi⟩ := (h.window hlt).mem i s (by simp)
  obtain ⟨-, hap, hapart⟩ := apart_append.mp h.apart
  have hgap : ∀ y ∈ l₂, s.hi < y.2.lo := (apart_cons.mp hap).2.1
  have hc := h.chained
  rw [segs_append] at hc
  have hcmp₁ : seqLt (wrap32 b) (seg s).start = decide (b < s.lo) :=
    seqLt_wrap32 (by omega) (by omega)
  have hcmp₂ : seqGt (wrap32 a) (seg s).endPos = decide (s.hi < a) := by
    rw [endPos_seg hpos.le]
    exact seqGt_wrap32 (by omega) (by omega)
  have hcmp₃ : seqLt (wrap32 a) (seg s).start = decide (a < s.lo) :=
    seqLt_wrap32 (by omega) (by omega)
  unfold OooList.addAt
  simp only [hcmp₁, hcmp₂, hcmp₃, decide_eq_true_eq]
  by_cases h₁ : b < s.lo
  · rw [if_pos h₁]
    refine ⟨_, l₁ ++ (o.pool.next, ⟨a, b⟩) :: (i, s) :: l₂, rfl,
      h.link ?_ ha hab hb hpre fun y hy => ?_, fun p => occupied_insert⟩
    · rw [segs_append]
      exact OooList.chained_addBefore hc
    · rcases mem_cons.mp hy with rfl | hy
      · exact h₁
      · have := hgap y hy
        omega
  by_cases h₂ : s.hi < a
  · -- only the last segment may end before the new data
    obtain rfl : l₂ = [] := hend.resolve_right (by omega)
    rw [if_neg h₁, if_pos h₂]
    have h' : Pending o tail bound ((l₁ ++ [(i, s)]) ++ []) := by rwa [append_nil]
    refine ⟨_, (l₁ ++ [(i, s)]) ++ [(o.pool.next, ⟨a, b⟩)], rfl,
      h'.link ?_ ha hab hb (fun x hx => ?_) (fun _ h => nomatch h), fun p => ?_⟩
    · rw [append_assoc, segs_append]
      exact OooList.chained_addAfter hc
    · rcases mem_append.mp hx with hx | hx
      · exact hpre x hx
      · rw [mem_singleton.mp hx]
        exact h₂
    · rw [occupied_insert, append_nil]
  rw [if_neg h₁, if_neg h₂, endPos_seg hpos.le]
  by_cases h₃ : a < s.lo
  · rw [if_pos h₃]
    -- the segment starts at the new data from now on
    have hmod : Chained (o.pool.modify i fun n =>
          { n with val := ⟨wrap32 a, wrap32 s.hi - wrap32 a⟩ }) o.head
        (segs (l₁ ++ (i, ⟨a, s.hi⟩) :: l₂)) := by
      rw [segs_append]
      refine OooList.chained_modify hc fun next prev => ?_
      rw [wrap32_sub (by omega)]
      rfl
    have hap' : Apart ((i, ⟨a, s.hi⟩) :: l₂) :=
      apart_cons.mpr ⟨by show a < s.hi; omega, hgap, (apart_cons.mp hap).2.2⟩
    have hw' : Window tail bound ((i, ⟨a, s.hi⟩) :: l₂) := by
      refine ⟨hlt, fun j t hj => ?_⟩
      rcases mem_cons.mp hj with he | hj
      · cases he
        exact ⟨ha.le, by show a < s.hi; omega, hhi⟩
      · exact (h.window hlt).mem j t (by simp [hj])
    obtain ⟨o', ho', hc'⟩ := checkTail_spec
      (o := ⟨o.pool.modify i fun n => { n with val := ⟨wrap32 a, wrap32 s.hi - wrap32 a⟩ }, o.head,
        some i⟩) hmod hap' hw' (by omega) hb
    have habs : absorb a b ⟨a, s.hi⟩ l₂ = absorb a b s l₂ := by
      simp only [absorb, min_self, min_eq_left h₃.le]
    rw [habs] at hc'
    refine ⟨o', _, ho', h.merge hc' ha hb hpre, fun p => ?_⟩
    rw [occupied_append, occupied_absorb hap (by omega) (by omega), occupied_append, or_assoc]
  · rw [if_neg h₃]
    exact checkTail_merge h hlt ha hab hb (by omega) (by omega) hpre

end

/-- **Adding out-of-order data** occupies the old positions and the new ones, and keeps the segments
sorted and apart. -/
theorem oooSegmentAdd_spec (h : Pending o tail bound l) (hlt : bound < tail + 2 ^ 31)
    (ha : tail < a) (hab : a < b) (hb : b ≤ bound) :
    ∃ o' l', o.oooSegmentAdd (wrap32 (a - tail)) (wrap32 tail) (wrap32 (b - a)) = some o' ∧
      Pending o' tail bound l' ∧ ∀ p, Occupied l' p ↔ Occupied l p ∨ (a ≤ p ∧ p < b) := by
  have hpos : wrap32 tail + wrap32 (a - tail) = wrap32 a := by
    rw [wrap32_add, Nat.add_sub_cancel' ha.le]
  have hend : wrap32 a + wrap32 (b - a) = wrap32 b := by
    rw [wrap32_add, Nat.add_sub_cancel' hab.le]
  obtain ⟨pool, head, newest⟩ := o
  unfold OooList.oooSegmentAdd
  simp only [hpos, hend]
  have h₀ : Pending ⟨pool, head, none⟩ tail bound l := ⟨h.chained, h.apart, h.after, h.within⟩
  cases l with
  | nil =>
    obtain rfl : head = none := h.chained.head_eq
    have hc : Chained (pool.get ⟨none, none, seg ⟨a, b⟩⟩) (some pool.next)
        (segs ([] ++ (pool.next, ⟨a, b⟩) :: [])) := by
      have hnil : Chained pool none (segs [] ++ segs []) := h.chained
      refine hnil.insert pool.elts_next ?_ (fun _ h => nomatch h) (fun _ h => nomatch h)
        fun j hj _ _ => ?_
      · rw [Pool.elts_get, update_self]
        rfl
      · rw [Pool.elts_get, update_of_ne hj]
    have hnil : Pending ⟨pool, none, newest⟩ tail bound ([] ++ []) := h
    exact ⟨_, _, rfl, hnil.link hc ha hab hb (fun _ h => nomatch h) (fun _ h => nomatch h),
      fun p => occupied_insert⟩
  | cons x l =>
    obtain rfl : head = some x.1 := h.chained.head_eq
    obtain ⟨m₁, i, s, m₂, heq, hfind, hpre, hstop⟩ := findFirst_spec
      (o := ⟨pool, some x.1, none⟩) [] pool.len
      h.chained (h.window hlt) ha.le (by omega) (by
        have := h.chained.length_le
        rw [length_segs] at this
        exact this)
    have hl : x :: l = m₁ ++ (i, s) :: m₂ := heq
    rw [hl] at h₀ ⊢
    have hc := h₀.chained
    rw [segs_append] at hc
    have helt : pool.elts i = some ⟨firstIdx none (segs m₂), lastIdx none (segs m₁), seg s⟩ :=
      hc.elts_eq
    simp only [hfind, helt, bind_eq_bind, bind_some]
    rcases eq_nil_or_concat m₁ with rfl | ⟨m, ⟨j, t⟩, rfl⟩
    · exact addAt_spec h₀ hlt ha hab hb (fun _ h => nomatch h) hstop
    rw [concat_eq_append] at *
    have hlast : lastIdx none (segs (m ++ [(j, t)])) = some j := by
      rw [segs_append]
      exact lastIdx_append
    have hj : Pending ⟨pool, some x.1, none⟩ tail bound (m ++ (j, t) :: (i, s) :: m₂) := by
      rwa [append_assoc] at h₀
    have hcj := hj.chained
    rw [segs_append] at hcj
    have heltj : pool.elts j = some ⟨some i, lastIdx none (segs m), seg t⟩ := hcj.elts_eq
    obtain ⟨htlo, htpos, hthi⟩ := (hj.window hlt).mem j t (by simp)
    have hta : t.lo < a := hpre (j, t) (by simp)
    have hpre' : ∀ y ∈ m, y.2.hi < t.lo := fun y hy =>
      (apart_append.mp hj.apart).2.2 y hy (j, t) mem_cons_self
    have hcmp : seqLeq (wrap32 a) (seg t).endPos = decide (a ≤ t.hi) := by
      rw [endPos_seg htpos.le]
      exact seqLeq_wrap32 (by omega) (by omega)
    simp only [hlast, heltj, bind_some, hcmp, decide_eq_true_eq]
    by_cases hat : a ≤ t.hi
    · rw [if_pos hat, endPos_seg htpos.le]
      have := checkTail_merge hj hlt ha hab hb hta.le hat fun y hy => (hpre' y hy).trans hta
      rwa [append_assoc]
    rw [if_neg hat, ← hlast]
    refine addAt_spec h₀ hlt ha hab hb (fun y hy => ?_) hstop
    rcases mem_append.mp hy with hy | hy
    · have := hpre' y hy
      omega
    · rw [mem_singleton.mp hy]
      show t.hi < a
      omega

/-- What collecting at `tail'` leaves: the tail goes on over occupied positions to `tail''`, and
the segments after it stay. -/
structure Collected (o : OooList) (l : List (Nat × Span)) (tail' tail'' bound : Nat)
    (l' : List (Nat × Span)) : Prop where
  le : tail' ≤ tail''
  le_bound : tail'' ≤ bound
  pending : Pending o tail'' bound l'
  occupied : ∀ p, tail' ≤ p → p < tail'' → Occupied l p
  rest : ∀ p, tail'' ≤ p → (Occupied l' p ↔ Occupied l p)

theorem Collected.tail_le {e : Nat} (h : Collected o l tail' tail'' bound l') (hl : ∀ x ∈ l, x.2.hi ≤ e)
    (he : tail' ≤ e) : tail'' ≤ e := by
  by_cases heq : tail'' = tail'
  · exact heq ▸ he
  · have hle := h.le
    obtain ⟨x, hx, -, hlt⟩ := occupied_iff.mp (h.occupied (tail'' - 1) (by omega) (by omega))
    have := hl x hx
    omega

theorem Collected.exists_hi_le
    (h : Collected o l tail' tail'' bound l') : ∀ x ∈ l', ∃ y ∈ l, x.2.hi ≤ y.2.hi := by
  intro x hx
  have h₁ := h.pending.after x hx
  have h₂ := h.pending.apart.pos x hx
  have hocc := (h.rest (x.2.hi - 1) (by omega)).mp (h.pending.apart.occupied_hi hx)
  obtain ⟨y, hy, -, hlt⟩ := occupied_iff.mp hocc
  exact ⟨y, hy, by omega⟩

theorem Collected.exists_le_hi (h : Collected o l tail' tail'' bound l') (hap : Apart l) (hx : x ∈ l)
    (hlt : tail'' < x.2.hi) : ∃ y ∈ l', x.2.hi ≤ y.2.hi := by
  have hocc := (h.rest (x.2.hi - 1) (by omega)).mpr (hap.occupied_hi hx)
  obtain ⟨y, hy, -, hlt⟩ := occupied_iff.mp hocc
  exact ⟨y, hy, by omega⟩

theorem Pending.elts_first (h : Pending o tail bound ((i, s) :: l)) :
    o.pool.elts i = some ⟨firstIdx none (segs l), none, seg s⟩ := by
  have hc : Chained o.pool o.head ([] ++ (i, seg s) :: segs l) := h.chained
  exact hc.elts_eq

theorem Collected.none (h : Pending o tail bound l) (hle : tail' ≤ bound) (hlt : ∀ x ∈ l, tail' < x.2.lo) :
    Collected o l tail' tail' bound l :=
  ⟨le_rfl, hle, ⟨h.chained, h.apart, hlt, h.within⟩, fun _ h₁ h₂ => absurd h₂ (by omega),
    fun _ _ => Iff.rfl⟩

theorem Pending.freeFirst (h : Pending o tail bound ((i, s) :: l)) :
    Pending (o.oooSegmentFree i) tail bound l := by
  have hc : Chained o.pool o.head ([] ++ (i, seg s) :: segs l) := h.chained
  exact ⟨OooList.chained_free hc, (apart_cons.mp h.apart).2.2,
    fun x hx => h.after x (mem_cons_of_mem _ hx),
    fun x hx => h.within x (mem_cons_of_mem _ hx)⟩

theorem Collected.cons (h : Collected o l tail' tail'' bound l') (hs : s.hi ≤ tail') :
    Collected o ((i, s) :: l) tail' tail'' bound l' := by
  refine ⟨h.le, h.le_bound, h.pending, fun p h₁ h₂ => ?_, fun p hp => ?_⟩
  · exact occupied_cons.mpr (.inr (h.occupied p h₁ h₂))
  · rw [h.rest p hp, occupied_cons]
    have := h.le
    exact ⟨.inr, fun hp' => hp'.resolve_left fun ⟨_, h₂⟩ => by simp only at h₂; omega⟩

theorem Pending.skip (h : Pending o tail bound ((i, s) :: l)) (hb : tail' ≤ bound) (hs : tail' < s.lo) :
    Collected o ((i, s) :: l) tail' tail' bound ((i, s) :: l) := by
  obtain ⟨hpos, hgap, -⟩ := apart_cons.mp h.apart
  refine Collected.none h hb fun x hx => ?_
  rcases mem_cons.mp hx with rfl | hx
  · exact hs
  · exact hs.trans (hpos.trans (hgap x hx))

theorem Pending.collect (h : Pending o tail bound ((i, s) :: l)) (hs : s.lo ≤ tail') (ht : tail' < s.hi) :
    Collected (o.oooSegmentFree i) ((i, s) :: l) tail' s.hi bound l := by
  have hfree := h.freeFirst
  refine ⟨ht.le, h.within _ mem_cons_self, ⟨hfree.chained, hfree.apart,
    (apart_cons.mp h.apart).2.1, hfree.within⟩, fun p h₁ h₂ => ?_, fun p hp => ?_⟩
  · exact occupied_cons.mpr (.inl ⟨hs.trans h₁, h₂⟩)
  · rw [occupied_cons]
    exact ⟨.inr, fun hp' => hp'.resolve_left fun ⟨_, h₂⟩ => absurd h₂ (not_lt.mpr hp)⟩

theorem collectLoop_succ (h : Pending o tail bound ((i, s) :: l)) (hlt : bound < tail + 2 ^ 31)
    (hle : tail ≤ tail') (hb : tail' ≤ bound) :
    OooList.collectLoop (wrap32 (tail' - tail)) (wrap32 tail') (fuel + 1) o i =
      if s.lo ≤ tail' then
        if tail' < s.hi then some (o.oooSegmentFree i, wrap32 (s.hi - tail'))
        else
          match firstIdx none (segs l) with
          | some j => OooList.collectLoop (wrap32 (tail' - tail)) (wrap32 tail') fuel
              (o.oooSegmentFree i) j
          | none => some (o.oooSegmentFree i, 0)
      else some (o, 0) := by
  obtain ⟨hlo, hpos, hhi⟩ := (h.window hlt).mem i s mem_cons_self
  have hafter : tail < s.lo := h.after (i, s) mem_cons_self
  have helt := h.elts_first
  have hsign : (0 ≤ (wrap32 tail' - wrap32 s.lo).toInt) ↔ s.lo ≤ tail' := by
    have := seqGeq_wrap32 (a := tail') (b := s.lo) (by omega) (by omega)
    unfold seqGeq at this
    rw [decide_eq_decide] at this
    exact this
  rw [OooList.collectLoop, helt]
  show (if 0 ≤ (wrap32 tail' - wrap32 s.lo).toInt ∧
      wrap32 tail' - wrap32 s.lo < wrap32 (tail' - tail) then
    if wrap32 tail' - wrap32 s.lo < wrap32 (s.hi - s.lo) then
      some (o.oooSegmentFree i, wrap32 (s.hi - s.lo) - (wrap32 tail' - wrap32 s.lo))
    else _ else _) = _
  by_cases hs : s.lo ≤ tail'
  · have hdiff : wrap32 tail' - wrap32 s.lo = wrap32 (tail' - s.lo) := wrap32_sub hs
    have hn : wrap32 tail' - wrap32 s.lo < wrap32 (tail' - tail) := by
      rw [hdiff, BitVec.lt_def, toNat_wrap32 (by omega), toNat_wrap32 (by omega)]
      omega
    have hlen : wrap32 tail' - wrap32 s.lo < wrap32 (s.hi - s.lo) ↔ tail' < s.hi := by
      rw [hdiff, BitVec.lt_def, toNat_wrap32 (by omega), toNat_wrap32 (by omega)]
      omega
    rw [if_pos hs, if_pos ⟨hsign.mpr hs, hn⟩]
    by_cases ht : tail' < s.hi
    · rw [if_pos (hlen.mpr ht), if_pos ht, hdiff, wrap32_sub (by omega)]
      congr 3
      omega
    · rw [if_neg fun hc => ht (hlen.mp hc), if_neg ht]
  · rw [if_neg hs, if_neg fun hc => hs (hsign.mp hc.1)]

/-- **The collecting loop** frees what the tail has passed, and advances the tail over the segment it stands
in, which the next one does not touch. -/
theorem collectLoop_spec (fuel : Nat) (h : Pending o tail bound ((i, s) :: l)) (hlt : bound < tail + 2 ^ 31)
    (hle : tail ≤ tail') (hb : tail' ≤ bound) (hfuel : l.length < fuel) :
    ∃ o' tail'' l', OooList.collectLoop (wrap32 (tail' - tail)) (wrap32 tail') fuel o i =
        some (o', wrap32 (tail'' - tail')) ∧
      Collected o' ((i, s) :: l) tail' tail'' bound l' := by
  induction fuel generalizing o i s l with
  | zero => omega
  | succ fuel ih =>
    rw [collectLoop_succ h hlt hle hb]
    by_cases hs : s.lo ≤ tail'
    · rw [if_pos hs]
      by_cases ht : tail' < s.hi
      · rw [if_pos ht]
        exact ⟨_, s.hi, _, rfl, h.collect hs ht⟩
      rw [if_neg ht]
      cases l with
      | nil =>
        refine ⟨_, tail', [], by rw [Nat.sub_self]; rfl, Collected.cons ?_ (Nat.le_of_not_lt ht)⟩
        exact Collected.none h.freeFirst hb fun _ h => nomatch h
      | cons x l =>
        obtain ⟨o', tail'', l', heq, hcol⟩ := ih h.freeFirst (by simp at hfuel; omega)
        exact ⟨o', tail'', l', heq, hcol.cons (Nat.le_of_not_lt ht)⟩
    · rw [if_neg hs]
      exact ⟨_, tail', _, by rw [Nat.sub_self]; rfl, h.skip hb (Nat.lt_of_not_le hs)⟩

/-- **Collecting.** Once the tail has moved to `tail'`, `ooo_segment_try_collect` advances it over exactly the
out-of-order data that follows without a gap. -/
theorem oooSegmentTryCollect_spec (h : Pending o tail bound l) (hl : l ≠ []) (hlt : bound < tail + 2 ^ 31)
    (hle : tail ≤ tail') (hb : tail' ≤ bound) :
    ∃ o' tail'' l', o.oooSegmentTryCollect (wrap32 (tail' - tail)) (wrap32 tail') =
        some (o', wrap32 (tail'' - tail')) ∧ Collected o' l tail' tail'' bound l' := by
  obtain ⟨⟨i, s⟩, l, rfl⟩ := exists_cons_of_ne_nil hl
  obtain ⟨hlo, hpos, hhi⟩ := (h.window hlt).mem i s mem_cons_self
  have helt := h.elts_first
  have hhead : o.head = some i := h.chained.head_eq
  have hlen : l.length < o.pool.len := by
    have := h.chained.length_le
    rwa [length_segs, length_cons] at this
  unfold OooList.oooSegmentTryCollect
  simp only [hhead, helt, bind_eq_bind, bind_some]
  show ∃ o' tail'' l', (if wrap32 tail' - wrap32 s.lo > wrap32 (tail' - tail) then _ else _) = _ ∧ _
  have hcmp : wrap32 tail' - wrap32 s.lo > wrap32 (tail' - tail) ↔ tail' < s.lo := by
    rw [gt_iff_lt, BitVec.lt_def, toNat_wrap32 (by omega), BitVec.toNat_sub,
      BitVec.toNat_ofNat, BitVec.toNat_ofNat]
    omega
  by_cases hs : tail' < s.lo
  · rw [if_pos (hcmp.mpr hs)]
    exact ⟨_, tail', _, by rw [Nat.sub_self]; rfl, h.skip hb hs⟩
  · rw [if_neg fun hc => hs (hcmp.mp hc)]
    exact collectLoop_spec o.pool.len h hlt hle hb hlen

end Spec

end Vpp.SvmFifo
