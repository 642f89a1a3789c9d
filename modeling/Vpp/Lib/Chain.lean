import Vpp.Lib.Pool
import Mathlib.Data.List.Perm.Subperm

/-!
# Doubly linked lists in a pool

Nodes of a pool that point at each other by index. `Segment` follows the forward links from one
index to another and checks the backward links on the way; `Chained` says that the nodes of a pool
are exactly those of one list. The edits (linking a node in, taking one out, changing what a node
carries) are stated for any new pool that agrees with the old one away from the neighbours.
-/

namespace Vpp.Lib

open List

structure Node (α : Type*) where
  next : Option Nat
  prev : Option Nat
  val : α
deriving DecidableEq, Repr

namespace Pool

variable {α : Type*} (p : Pool α)

def modify (i : Nat) (g : α → α) : Pool α :=
  match p.elts i with
  | none => p
  | some x => p.set i (g x)

@[simp] theorem elts_modify (i : Nat) (g : α → α) :
    (p.modify i g).elts = Function.update p.elts i ((p.elts i).map g) := by
  unfold modify
  split
  · rename_i h
    rw [h, Option.map_none, ← h, Function.update_eq_self]
  · rename_i x h
    rw [elts_set p (by rw [h]; simp), h, Option.map_some]

def modifyAt (i : Option Nat) (g : α → α) : Pool α :=
  match i with
  | none => p
  | some i => p.modify i g

theorem elts_modifyAt (i : Option Nat) (g : α → α) (j : Nat) :
    (p.modifyAt i g).elts j = if i = some j then (p.elts j).map g else p.elts j := by
  cases i with
  | none => rfl
  | some i =>
    show (p.modify i g).elts j = _
    rw [elts_modify]
    by_cases h : j = i
    · subst h
      simp
    · rw [Function.update_of_ne h, if_neg (by simpa using Ne.symm h)]

end Pool

variable {α : Type*}

/-- The index of the first node, or `stop` if there is none. -/
def firstIdx (stop : Option Nat) : List (Nat × α) → Option Nat
  | [] => stop
  | (i, _) :: _ => some i

/-- The index of the last node, or `prev` if there is none. -/
def lastIdx (prev : Option Nat) : List (Nat × α) → Option Nat
  | [] => prev
  | (i, _) :: l => lastIdx (some i) l

/-- The forward links from after `prev` to `stop` run through `l`, and the backward links match. -/
def Segment (elts : Nat → Option (Node α)) : Option Nat → Option Nat → List (Nat × α) → Prop
  | _, _, [] => True
  | prev, stop, (i, a) :: l =>
    elts i = some ⟨firstIdx stop l, prev, a⟩ ∧ Segment elts (some i) stop l

variable {elts elts' : Nat → Option (Node α)} {prev stop : Option Nat} {l l₁ l₂ : List (Nat × α)}
  {i : Nat} {a b : α}

@[simp] theorem firstIdx_append :
    firstIdx stop (l₁ ++ l₂) = firstIdx (firstIdx stop l₂) l₁ := by
  cases l₁ <;> rfl

@[simp] theorem lastIdx_append : lastIdx prev (l₁ ++ l₂) = lastIdx (lastIdx prev l₁) l₂ := by
  induction l₁ generalizing prev with
  | nil => rfl
  | cons x l₁ ih => exact ih

theorem lastIdx_mem (prev : Option Nat) (l : List (Nat × α)) :
    lastIdx prev l = prev ∨ ∃ j ∈ l.map Prod.fst, lastIdx prev l = some j := by
  induction l generalizing prev with
  | nil => exact .inl rfl
  | cons x l ih =>
    rcases ih (some x.1) with h | ⟨j, hj, h⟩
    · exact .inr ⟨x.1, mem_cons_self, h⟩
    · exact .inr ⟨j, mem_cons_of_mem _ hj, h⟩

@[simp] theorem lastIdx_eq_none : lastIdx none l = none ↔ l = [] := by
  constructor
  · intro h
    cases l with
    | nil => rfl
    | cons x l =>
      rcases lastIdx_mem (some x.1) l with h' | ⟨j, -, h'⟩
      · exact absurd (h.symm.trans h') (by simp)
      · exact absurd (h.symm.trans h') (by simp)
  · rintro rfl
    rfl

theorem mem_of_lastIdx {j : Nat} (h : lastIdx none l = some j) : j ∈ l.map Prod.fst := by
  rcases lastIdx_mem none l with h' | ⟨k, hk, h'⟩
  · exact absurd (h.symm.trans h') (by simp)
  · exact Option.some.inj (h'.symm.trans h) ▸ hk

theorem mem_of_firstIdx {j : Nat} (h : firstIdx none l = some j) : j ∈ l.map Prod.fst := by
  cases l with
  | nil => cases h
  | cons x l =>
    cases h
    exact mem_cons_self

theorem lastIdx_ne (hne : ∀ j ∈ l₁.map Prod.fst, j ∉ l₂.map Prod.fst) :
    ∀ j ∈ l₂.map Prod.fst, lastIdx none l₁ ≠ some j :=
  fun j hj he => hne j (mem_of_lastIdx he) hj

theorem firstIdx_ne (hne : ∀ j ∈ l₁.map Prod.fst, j ∉ l₂.map Prod.fst) :
    ∀ j ∈ l₁.map Prod.fst, firstIdx none l₂ ≠ some j :=
  fun j hj he => hne j hj (mem_of_firstIdx he)

theorem segment_append :
    Segment elts prev stop (l₁ ++ l₂) ↔
      Segment elts prev (firstIdx stop l₂) l₁ ∧ Segment elts (lastIdx prev l₁) stop l₂ := by
  induction l₁ generalizing prev with
  | nil => exact ⟨fun h => ⟨trivial, h⟩, fun h => h.2⟩
  | cons x l₁ ih =>
    obtain ⟨i, a⟩ := x
    show (elts i = some ⟨firstIdx stop (l₁ ++ l₂), prev, a⟩ ∧ Segment elts (some i) stop (l₁ ++ l₂)) ↔
      (elts i = some ⟨firstIdx (firstIdx stop l₂) l₁, prev, a⟩ ∧ _) ∧ _
    rw [ih, firstIdx_append, and_assoc]
    rfl

theorem Segment.frame (h : Segment elts prev stop l)
    (hag : ∀ j ∈ l.map Prod.fst, elts' j = elts j) : Segment elts' prev stop l := by
  induction l generalizing prev with
  | nil => trivial
  | cons x l ih =>
    obtain ⟨i, a⟩ := x
    exact ⟨(hag i mem_cons_self).trans h.1, ih h.2 fun j hj => hag j (mem_cons_of_mem _ hj)⟩

theorem Segment.restop {stop' : Option Nat} (h : Segment elts prev stop l)
    (hnd : (l.map Prod.fst).Nodup) (hlast : ∀ j ∈ l.map Prod.fst, lastIdx prev l = some j →
      elts' j = (elts j).map fun n => { n with next := stop' })
    (hag : ∀ j ∈ l.map Prod.fst, lastIdx prev l ≠ some j → elts' j = elts j) :
    Segment elts' prev stop' l := by
  induction l generalizing prev with
  | nil => trivial
  | cons x l ih =>
    obtain ⟨i, a⟩ := x
    obtain ⟨hi, hl⟩ := nodup_cons.mp hnd
    refine ⟨?_, ih h.2 hl (fun j hj => hlast j (mem_cons_of_mem _ hj))
      fun j hj => hag j (mem_cons_of_mem _ hj)⟩
    cases l with
    | nil =>
      rw [hlast i mem_cons_self rfl, h.1]
      rfl
    | cons y l =>
      -- the first node is not the last: the last one is in the rest of the list
      refine (hag i mem_cons_self fun he => ?_).trans h.1
      rcases lastIdx_mem (some y.1) l with hj | ⟨j, hj, he'⟩
      · exact hi (by rw [Option.some.inj (he.symm.trans hj)]; exact mem_cons_self)
      · exact hi (by rw [Option.some.inj (he.symm.trans he')]; exact mem_cons_of_mem _ hj)

theorem Segment.reprev {prev' : Option Nat} (h : Segment elts prev stop l)
    (hnd : (l.map Prod.fst).Nodup) (hfirst : ∀ j ∈ l.map Prod.fst, firstIdx stop l = some j →
      elts' j = (elts j).map fun n => { n with prev := prev' })
    (hag : ∀ j ∈ l.map Prod.fst, firstIdx stop l ≠ some j → elts' j = elts j) :
    Segment elts' prev' stop l := by
  cases l with
  | nil => trivial
  | cons x l =>
    obtain ⟨i, a⟩ := x
    have hi := (nodup_cons.mp hnd).1
    refine ⟨?_, h.2.frame fun j hj => hag j (mem_cons_of_mem _ hj) fun he => ?_⟩
    · rw [hfirst i mem_cons_self rfl, h.1]
      rfl
    · exact hi (Option.some.inj he ▸ hj)

/-! ## A pool that holds one list -/

/-- The pool holds the list `l` from `head` on, and nothing else. -/
structure Chained (p : Pool (Node α)) (head : Option Nat) (l : List (Nat × α)) : Prop where
  links : Segment p.elts none none l
  head_eq : head = firstIdx none l
  nodup : (l.map Prod.fst).Nodup
  only : ∀ j, p.elts j ≠ none → j ∈ l.map Prod.fst

namespace Chained

variable {p p' : Pool (Node α)} {head : Option Nat}

theorem empty : Chained (Pool.empty : Pool (Node α)) none [] :=
  ⟨trivial, rfl, nodup_nil, fun _ h => absurd rfl h⟩

theorem elts_eq (h : Chained p head (l₁ ++ (i, a) :: l₂)) :
    p.elts i = some ⟨firstIdx none l₂, lastIdx none l₁, a⟩ :=
  (segment_append.mp h.links).2.1

theorem ne_of_fresh (h : Chained p head l) (hfresh : p.elts i = none) :
    ∀ j ∈ l.map Prod.fst, j ≠ i := by
  rintro j hj rfl
  obtain ⟨⟨j, b⟩, hmem, rfl⟩ := mem_map.mp hj
  obtain ⟨k₁, k₂, rfl⟩ := append_of_mem hmem
  rw [h.elts_eq] at hfresh
  cases hfresh

theorem nodup_iff (h : Chained p head (l₁ ++ (i, a) :: l₂)) :
    (l₁.map Prod.fst).Nodup ∧ (l₂.map Prod.fst).Nodup ∧ i ∉ l₁.map Prod.fst ∧
      i ∉ l₂.map Prod.fst ∧ ∀ j ∈ l₁.map Prod.fst, j ∉ l₂.map Prod.fst := by
  have hnd := h.nodup
  rw [map_append, map_cons, nodup_append, nodup_cons] at hnd
  obtain ⟨h₁, ⟨hi, h₂⟩, hne⟩ := hnd
  exact ⟨h₁, h₂, fun hmem => hne i hmem i mem_cons_self rfl, hi,
    fun j hj hj' => hne j hj j (mem_cons_of_mem _ hj') rfl⟩

theorem length_le (h : Chained p head l) : l.length ≤ p.len := by
  have hsub : l.map Prod.fst ⊆ List.range p.len := by
    intro j hj
    obtain ⟨⟨j, a⟩, hmem, rfl⟩ := mem_map.mp hj
    obtain ⟨l₁, l₂, rfl⟩ := append_of_mem hmem
    refine mem_range.mpr (Nat.lt_of_not_le fun hle => ?_)
    have := h.elts_eq
    rw [p.outside j hle] at this
    cases this
  have := (subperm_of_subset h.nodup hsub).length_le
  simpa using this

theorem update (h : Chained p head (l₁ ++ (i, a) :: l₂))
    (hi : p'.elts i = (p.elts i).map fun n => { n with val := b })
    (hag : ∀ j, j ≠ i → p'.elts j = p.elts j) : Chained p' head (l₁ ++ (i, b) :: l₂) := by
  obtain ⟨h₁, h₂, hi₁, hi₂, hne⟩ := h.nodup_iff
  have hlinks := segment_append.mp h.links
  refine ⟨segment_append.mpr ⟨?_, ?_, ?_⟩, ?_, ?_, ?_⟩
  · exact hlinks.1.frame fun j hj => hag j fun he => hi₁ (he ▸ hj)
  · rw [hi, h.elts_eq]
    rfl
  · exact hlinks.2.2.frame fun j hj => hag j fun he => hi₂ (he ▸ hj)
  · rw [h.head_eq, firstIdx_append, firstIdx_append]
    rfl
  · simpa using h.nodup
  intro j hj
  by_cases he : j = i
  · simp [he]
  · rw [hag j he] at hj
    simpa using h.only j hj

theorem insert (h : Chained p head (l₁ ++ l₂)) (hfresh : p.elts i = none)
    (hi : p'.elts i = some ⟨firstIdx none l₂, lastIdx none l₁, a⟩)
    (hprev : ∀ j, lastIdx none l₁ = some j →
      p'.elts j = (p.elts j).map fun n => { n with next := some i })
    (hnext : ∀ j, firstIdx none l₂ = some j →
      p'.elts j = (p.elts j).map fun n => { n with prev := some i })
    (hag : ∀ j, j ≠ i → lastIdx none l₁ ≠ some j → firstIdx none l₂ ≠ some j →
      p'.elts j = p.elts j) :
    Chained p' (firstIdx (some i) l₁) (l₁ ++ (i, a) :: l₂) := by
  have hnd := h.nodup
  rw [map_append, nodup_append] at hnd
  obtain ⟨hnd₁, hnd₂, hne⟩ := hnd
  obtain ⟨hl₁, hl₂⟩ := segment_append.mp h.links
  have hmem := h.ne_of_fresh hfresh
  simp only [map_append, mem_append] at hmem
  have hdisj : ∀ j ∈ l₁.map Prod.fst, j ∉ l₂.map Prod.fst := fun j hj hj' => hne j hj j hj' rfl
  refine ⟨segment_append.mpr ⟨?_, hi, ?_⟩, ?_, ?_, ?_⟩
  · exact hl₁.restop hnd₁ (fun j _ he => hprev j he)
      fun j hj hl => hag j (hmem j (.inl hj)) hl (firstIdx_ne hdisj j hj)
  · exact hl₂.reprev hnd₂ (fun j _ he => hnext j he)
      fun j hj hf => hag j (hmem j (.inr hj)) (lastIdx_ne hdisj j hj) hf
  · rw [firstIdx_append]
    rfl
  · rw [map_append, map_cons, nodup_append, nodup_cons]
    refine ⟨hnd₁, ⟨fun hj => hmem i (.inr hj) rfl, hnd₂⟩, fun j hj k hk => ?_⟩
    rcases mem_cons.mp hk with rfl | hk
    · exact hmem j (.inl hj)
    · exact hne j hj k hk
  · intro j hj
    rw [map_append, map_cons, mem_append, mem_cons]
    by_cases he : j = i
    · exact .inr (.inl he)
    have : j ∈ (l₁ ++ l₂).map Prod.fst := by
      by_cases hl : lastIdx none l₁ = some j
      · rw [hprev j hl] at hj
        exact h.only j fun hn => hj (by rw [hn]; rfl)
      by_cases hf : firstIdx none l₂ = some j
      · rw [hnext j hf] at hj
        exact h.only j fun hn => hj (by rw [hn]; rfl)
      · rw [hag j he hl hf] at hj
        exact h.only j hj
    rw [map_append, mem_append] at this
    exact this.elim .inl fun h => .inr (.inr h)

theorem remove (h : Chained p head (l₁ ++ (i, a) :: l₂)) (hi : p'.elts i = none)
    (hprev : ∀ j, lastIdx none l₁ = some j →
      p'.elts j = (p.elts j).map fun n => { n with next := firstIdx none l₂ })
    (hnext : ∀ j, firstIdx none l₂ = some j →
      p'.elts j = (p.elts j).map fun n => { n with prev := lastIdx none l₁ })
    (hag : ∀ j, j ≠ i → lastIdx none l₁ ≠ some j → firstIdx none l₂ ≠ some j →
      p'.elts j = p.elts j) :
    Chained p' (firstIdx none (l₁ ++ l₂)) (l₁ ++ l₂) := by
  obtain ⟨hnd₁, hnd₂, hi₁, hi₂, hne⟩ := h.nodup_iff
  obtain ⟨hl₁, -, hl₂⟩ := segment_append.mp h.links
  refine ⟨segment_append.mpr ⟨?_, ?_⟩, rfl, ?_, ?_⟩
  · exact hl₁.restop hnd₁ (fun j _ he => hprev j he)
      fun j hj hl => hag j (fun he => hi₁ (he ▸ hj)) hl (firstIdx_ne hne j hj)
  · exact hl₂.reprev hnd₂ (fun j _ he => hnext j he)
      fun j hj hf => hag j (fun he => hi₂ (he ▸ hj)) (lastIdx_ne hne j hj) hf
  · rw [map_append, nodup_append]
    exact ⟨hnd₁, hnd₂, fun j hj k hk he => hne j hj (he ▸ hk)⟩
  intro j hj
  have hji : j ≠ i := by
    rintro rfl
    exact hj hi
  have : j ∈ (l₁ ++ (i, a) :: l₂).map Prod.fst := by
    by_cases hl : lastIdx none l₁ = some j
    · rw [hprev j hl] at hj
      exact h.only j fun hn => hj (by rw [hn]; rfl)
    by_cases hf : firstIdx none l₂ = some j
    · rw [hnext j hf] at hj
      exact h.only j fun hn => hj (by rw [hn]; rfl)
    · rw [hag j hji hl hf] at hj
      exact h.only j hj
  rw [map_append, map_cons, mem_append, mem_cons] at this
  rw [map_append, mem_append]
  rcases this with h | h | h
  · exact .inl h
  · exact absurd h hji
  · exact .inr h

theorem unlink (h : Chained p head (l₁ ++ (i, a) :: l₂)) :
    Chained (((p.modifyAt (firstIdx none l₂) fun n => { n with prev := lastIdx none l₁ }).modifyAt
      (lastIdx none l₁) fun n => { n with next := firstIdx none l₂ }).put i)
      (if lastIdx none l₁ = none then firstIdx none l₂ else head) (l₁ ++ l₂) := by
  obtain ⟨-, -, hi₁, hi₂, hne⟩ := h.nodup_iff
  have hhead : (if lastIdx none l₁ = none then firstIdx none l₂ else head) =
      firstIdx none (l₁ ++ l₂) := by
    rw [h.head_eq]
    cases l₁ with
    | nil => rfl
    | cons x l => rw [if_neg (by simp)]; rfl
  rw [hhead]
  refine h.remove (by simp) ?_ ?_ ?_
  · intro j hj
    have hji : j ≠ i := fun he => hi₁ (he ▸ mem_of_lastIdx hj)
    rw [Pool.elts_put, Function.update_of_ne hji, Pool.elts_modifyAt, if_pos hj,
      Pool.elts_modifyAt, if_neg fun he => hne j (mem_of_lastIdx hj) (mem_of_firstIdx he)]
  · intro j hj
    have hji : j ≠ i := fun he => hi₂ (he ▸ mem_of_firstIdx hj)
    rw [Pool.elts_put, Function.update_of_ne hji, Pool.elts_modifyAt,
      if_neg fun he => hne j (mem_of_lastIdx he) (mem_of_firstIdx hj), Pool.elts_modifyAt, if_pos hj]
  · intro j hji hl hf
    rw [Pool.elts_put, Function.update_of_ne hji, Pool.elts_modifyAt, if_neg hl,
      Pool.elts_modifyAt, if_neg hf]

end Chained

end Vpp.Lib
