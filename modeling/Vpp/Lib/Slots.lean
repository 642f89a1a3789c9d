import Mathlib.Data.BitVec

/-!
# Keyed slots

An array of slots holds a key and a value each, and a slot is free when its value looks free; its key
then means nothing. A key has a home, the range of slots in which it is kept. A new key goes to the
first free slot of its home, and a key is looked up by the first slot of its home that has this key,
free or not. `Placed` is what makes that lookup right: no free slot hides a live one. The live slots,
as a list of entries, are followed up to order.
-/

namespace Vpp.Lib

open List

open Function (update update_self update_of_ne)

/-! ## The first slot of a range -/

def firstIn (p : Nat → Bool) (first limit : Nat) : Option Nat := (List.range' first limit).find? p

variable {p : Nat → Bool}

theorem firstIn_eq_some {first limit j : Nat} :
    firstIn p first limit = some j ↔ p j = true ∧ (first ≤ j ∧ j < first + limit) ∧
      ∀ j', first ≤ j' → j' < j → p j' = false := by
  simp only [firstIn, find?_range'_eq_some, mem_range'_1, Bool.not_eq_true']

theorem firstIn_eq_none {first limit : Nat} :
    firstIn p first limit = none ↔ ∀ j, first ≤ j → j < first + limit → p j = false := by
  simp only [firstIn, find?_eq_none, mem_range'_1, and_imp, Bool.not_eq_true]

/-! ## Entries -/

section Slots

variable {K V : Type*} (free : V → Bool)

/-- The live slots among the first `n`. -/
def entries (values : Nat → K × V) (n : Nat) : List (K × V) :=
  ((List.range n).map values).filter fun e => !free e.2

/-- The live slots other than `j`. -/
def others (values : Nat → K × V) (n j : Nat) : List (K × V) :=
  (((List.range n).erase j).map values).filter fun e => !free e.2

variable {free} {values : Nat → K × V} {n j : Nat} {e : K × V}

theorem mem_entries : e ∈ entries free values n ↔ ∃ j < n, values j = e ∧ free e.2 = false := by
  simp only [entries, mem_filter, mem_map, mem_range, Bool.not_eq_true']
  constructor
  · rintro ⟨⟨j, hj, rfl⟩, hf⟩
    exact ⟨j, hj, rfl, hf⟩
  · rintro ⟨j, hj, rfl, hf⟩
    exact ⟨⟨j, hj, rfl⟩, hf⟩

theorem entries_succ :
    entries free values (n + 1) = entries free values n ++ [values n].filter fun e => !free e.2 := by
  simp only [entries, range_succ, map_append, filter_append, map_cons, map_nil]

theorem entries_succ_of_live (h : free (values n).2 = false) :
    (values n :: entries free values n).Perm (entries free values (n + 1)) := by
  rw [entries_succ]
  simpa [h] using (perm_append_singleton (values n) (entries free values n)).symm

theorem entries_succ_of_free (h : free (values n).2 = true) :
    entries free values (n + 1) = entries free values n := by
  rw [entries_succ]
  simp [h]

theorem entries_of_free (h : ∀ j < n, free (values j).2 = true) : entries free values n = [] := by
  rw [entries, filter_eq_nil_iff]
  intro e he
  obtain ⟨j, hj, rfl⟩ := mem_map.mp he
  simp [h j (mem_range.mp hj)]

theorem length_entries_le (free : V → Bool) (values : Nat → K × V) (n : Nat) :
    (entries free values n).length ≤ n := by
  refine Nat.le_trans (length_filter_le _ _) (Nat.le_of_eq ?_)
  rw [length_map, length_range]

theorem exists_free (h : (entries free values n).length < n) : ∃ j < n, free (values j).2 = true := by
  by_contra hno
  have hall : entries free values n = (List.range n).map values := by
    rw [entries, filter_eq_self]
    intro e he
    obtain ⟨j, hj, rfl⟩ := mem_map.mp he
    simpa using fun hf => hno ⟨j, mem_range.mp hj, hf⟩
  rw [hall, length_map, length_range] at h
  exact Nat.lt_irrefl n h

theorem entries_perm (free : V → Bool) (values : Nat → K × V) (hj : j < n) :
    (entries free values n).Perm
    (([values j].filter fun e => !free e.2) ++ others free values n j) := by
  rw [others, ← filter_append]
  refine List.Perm.filter _ ?_
  have := (perm_cons_erase (mem_range.mpr hj)).map values
  simpa using this

theorem others_update : others free (update values j e) n j = others free values n j := by
  rw [others]
  congr 1
  refine map_congr_left fun i hi => update_of_ne ?_ _ _
  rw [(nodup_range).mem_erase_iff] at hi
  exact hi.1

theorem entries_live (hj : j < n) (h : free (values j).2 = false) :
    (entries free values n).Perm (values j :: others free values n j) := by
  simpa [h] using entries_perm free values hj

theorem entries_dead (hj : j < n) (h : free (values j).2 = true) :
    (entries free values n).Perm (others free values n j) := by
  simpa [h] using entries_perm free values hj

theorem entries_update_live (hj : j < n) (he : free e.2 = false) :
    (entries free (update values j e) n).Perm (e :: others free values n j) := by
  have hself : free (update values j e j).2 = false := by rwa [update_self]
  have h := entries_live hj hself
  rwa [update_self, others_update] at h

theorem entries_update_dead (hj : j < n) (he : free e.2 = true) :
    (entries free (update values j e) n).Perm (others free values n j) := by
  have hself : free (update values j e j).2 = true := by rwa [update_self]
  have h := entries_dead hj hself
  rwa [others_update] at h

theorem slot_unique (hnd : ((entries free values n).map Prod.fst).Nodup) {i : Nat} (hi : i < n)
    (hj : j < n) (hfi : free (values i).2 = false) (hfj : free (values j).2 = false)
    (hkey : (values i).1 = (values j).1) : i = j := by
  by_contra hne
  have hperm := ((entries_live hj hfj).map Prod.fst).nodup_iff.mp hnd
  rw [map_cons, nodup_cons] at hperm
  refine hperm.1 (hkey ▸ mem_map_of_mem ?_)
  simp only [others, mem_filter, mem_map, Bool.not_eq_true']
  exact ⟨⟨i, ((nodup_range).mem_erase_iff).mpr ⟨hne, mem_range.mpr hi⟩, rfl⟩, hfi⟩

/-! ## Slots filled from the front -/

variable (free) in
/-- The slots below `j` are live and the others free. -/
structure FilledTo (values : Nat → K × V) (j : Nat) : Prop where
  live : ∀ i < j, free (values i).2 = false
  free : ∀ i, j ≤ i → free (values i).2 = true

theorem FilledTo.put (h : FilledTo free values j) (he : free e.2 = false) :
    FilledTo free (update values j e) (j + 1) := by
  constructor
  · intro i hi
    by_cases hij : i = j
    · rw [hij, update_self]
      exact he
    · rw [update_of_ne hij]
      exact h.live i (by omega)
  · intro i hi
    rw [update_of_ne (by omega)]
    exact h.free i (by omega)

theorem FilledTo.firstIn {first limit : Nat} (h : FilledTo free values j) (hle : first ≤ j)
    (hlt : j < first + limit) : firstIn (fun i => free (values i).2) first limit = some j :=
  firstIn_eq_some.mpr ⟨h.free j (Nat.le_refl j), ⟨hle, hlt⟩, fun i _ hi => h.live i hi⟩

/-! ## Homes -/

variable (free) (home : K → Nat × Nat)

def InHome (k : K) (j : Nat) : Prop := (home k).1 ≤ j ∧ j < (home k).1 + (home k).2

/-- Live slots are at home, and no free slot of its home hides a live one. -/
structure Placed (values : Nat → K × V) (n : Nat) : Prop where
  inHome : ∀ j < n, free (values j).2 = false → InHome home (values j).1 j
  visible : ∀ j < n, free (values j).2 = false → ∀ i < j, InHome home (values j).1 i →
    free (values i).2 = true → (values i).1 ≠ (values j).1

variable {free home}

theorem placed_of_free (h : ∀ j < n, free (values j).2 = true) : Placed free home values n := by
  have hno : ∀ j < n, free (values j).2 ≠ false := fun j hj hf => Bool.false_ne_true (hf ▸ h j hj)
  exact ⟨fun j hj hf => absurd hf (hno j hj), fun j hj hf => absurd hf (hno j hj)⟩

theorem Placed.put (h : Placed free home values n) (he : free e.2 = false)
    (hj : firstIn (fun i => free (values i).2) (home e.1).1 (home e.1).2 = some j) :
    Placed free home (update values j e) n := by
  obtain ⟨hfree, hin, hbefore⟩ := firstIn_eq_some.mp hj
  constructor
  · intro i hi hf
    by_cases hij : i = j
    · subst hij
      rw [update_self]
      exact hin
    · rw [update_of_ne hij] at hf ⊢
      exact h.inHome i hi hf
  · intro i hi hf i' hlt hhome hf'
    by_cases hij : i = j
    · subst hij
      rw [update_self] at hhome
      rw [update_of_ne (Nat.ne_of_lt hlt), hbefore i' hhome.1 hlt] at hf'
      exact nomatch hf'
    · rw [update_of_ne hij] at hf hhome ⊢
      by_cases hij' : i' = j
      · rw [hij', update_self, he] at hf'
        exact nomatch hf'
      · rw [update_of_ne hij'] at hf' ⊢
        exact h.visible i hi hf i' hlt hhome hf'

theorem Placed.setValue (h : Placed free home values n) {v : V} (hj : j < n)
    (hlive : free (values j).2 = false) (hnd : ((entries free values n).map Prod.fst).Nodup) :
    Placed free home (update values j ((values j).1, v)) n := by
  have hkey : ∀ i, (update values j ((values j).1, v) i).1 = (values i).1 := fun i => by
    by_cases hij : i = j
    · rw [hij, update_self]
    · rw [update_of_ne hij]
  have hback : ∀ i, i ≠ j → update values j ((values j).1, v) i = values i :=
    fun i hij => update_of_ne hij _ _
  constructor
  · intro i hi hf
    rw [hkey]
    by_cases hij : i = j
    · rw [hij]
      exact h.inHome j hj hlive
    · rw [hback i hij] at hf
      exact h.inHome i hi hf
  · intro i hi hf i' hlt hhome hf'
    rw [hkey] at hhome
    rw [hkey, hkey]
    by_cases hij : i = j
    · subst hij
      rw [hback i' (Nat.ne_of_lt hlt)] at hf'
      exact h.visible i hi hlive i' hlt hhome hf'
    rw [hback i hij] at hf
    by_cases hij' : i' = j
    · -- a slot that has just been freed keeps its key, which no other live slot has
      subst hij'
      exact fun he => Nat.ne_of_lt hlt (slot_unique hnd hj hi hlive hf he)
    · rw [hback i' hij'] at hf'
      exact h.visible i hi hf i' hlt hhome hf'

variable (free home) [DecidableEq K]

def lookup (values : Nat → K × V) (k : K) : Option V :=
  match firstIn (fun j => decide ((values j).1 = k)) (home k).1 (home k).2 with
  | some j => if free (values j).2 then none else some (values j).2
  | none => none

variable {free home}

theorem Placed.lookup_eq_some (h : Placed free home values n)
    (hnd : ((entries free values n).map Prod.fst).Nodup) {k : K} {v : V}
    (hk : (home k).1 + (home k).2 ≤ n) :
    lookup free home values k = some v ↔ (k, v) ∈ entries free values n := by
  rw [mem_entries]
  unfold lookup
  constructor
  · intro hl
    split at hl
    · rename_i j hj
      obtain ⟨hkey, hin, -⟩ := firstIn_eq_some.mp hj
      split at hl
      · exact nomatch hl
      rename_i hf
      refine ⟨j, by omega, ?_, ?_⟩
      · rw [← of_decide_eq_true hkey, ← Option.some.inj hl]
      · rw [← Option.some.inj hl]
        exact Bool.not_eq_true _ ▸ hf
    · exact nomatch hl
  · rintro ⟨j, hj, hv, hf⟩
    have hlive : free (values j).2 = false := by rw [hv]; exact hf
    have hkey : (values j).1 = k := by rw [hv]
    have hin := h.inHome j hj hlive
    rw [hkey] at hin
    -- the slot of the entry is the first one that has its key
    have hfirst : firstIn (fun i => decide ((values i).1 = k)) (home k).1 (home k).2 = some j := by
      refine firstIn_eq_some.mpr ⟨decide_eq_true hkey, hin, fun i hge hlt => decide_eq_false fun he => ?_⟩
      by_cases hfi : free (values i).2 = true
      · exact h.visible j hj hlive i hlt (hkey ▸ ⟨hge, Nat.lt_trans hlt hin.2⟩) hfi (he.trans hkey.symm)
      · have hfi' : free (values i).2 = false := by simpa using hfi
        exact Nat.ne_of_lt hlt
          (slot_unique hnd (Nat.lt_trans hlt hj) hj hfi' hlive (he.trans hkey.symm))
    rw [hfirst]
    show (if free (values j).2 = true then none else some (values j).2) = some v
    rw [hlive, if_neg Bool.false_ne_true, hv]

/-! ## Entries and maps -/

structure Lists (M : K → Option V) (L : List (K × V)) : Prop where
  nodup : (L.map Prod.fst).Nodup
  mem_iff : ∀ k v, (k, v) ∈ L ↔ M k = some v

namespace Lists

variable {M : K → Option V} {L L' : List (K × V)} {k : K} {v w : V}

omit [DecidableEq K] in
theorem perm (h : Lists M L) (hp : L.Perm L') : Lists M L' :=
  ⟨(hp.map Prod.fst).nodup_iff.mp h.nodup, fun k v => by rw [← hp.mem_iff, h.mem_iff]⟩

omit [DecidableEq K] in
theorem not_mem (h : Lists M L) (hk : M k = none) : k ∉ L.map Prod.fst := by
  intro hmem
  obtain ⟨⟨k', v⟩, he, rfl⟩ := mem_map.mp hmem
  have := (h.mem_iff k' v).mp he
  rw [hk] at this
  exact nomatch this

omit [DecidableEq K] in
theorem eq_none (h : Lists M L) (hk : k ∉ L.map Prod.fst) : M k = none := by
  cases hM : M k with
  | none => rfl
  | some v => exact absurd (mem_map_of_mem ((h.mem_iff k v).mpr hM)) hk

theorem cons (h : Lists M L) (hk : M k = none) (v : V) :
    Lists (update M k (some v)) ((k, v) :: L) := by
  refine ⟨nodup_cons.mpr ⟨h.not_mem hk, h.nodup⟩, fun k' v' => ?_⟩
  rw [mem_cons]
  by_cases hkk : k' = k
  · subst hkk
    rw [update_self, h.mem_iff, hk]
    simp [eq_comm]
  · rw [h.mem_iff]
    simp [hkk]

theorem uncons (h : Lists M ((k, w) :: L)) : Lists (update M k none) L := by
  have hnd := nodup_cons.mp h.nodup
  refine ⟨hnd.2, fun k' v' => ?_⟩
  by_cases hkk : k' = k
  · subst hkk
    rw [update_self]
    exact ⟨fun hmem => absurd (mem_map_of_mem hmem) hnd.1, fun he => nomatch he⟩
  · rw [update_of_ne hkk, ← h.mem_iff, mem_cons]
    simp [hkk]

theorem replace (h : Lists M ((k, w) :: L)) (v : V) :
    Lists (update M k (some v)) ((k, v) :: L) := by
  have := h.uncons.cons (update_self ..) v
  rwa [Function.update_idem] at this

end Lists

end Slots

/-! ## Blank slots -/

section Blank

variable {K V : Type*} (free : V → Bool) (home : K → Nat × Nat) (blank : K)

/-- The live slots hold the entries `L`, each at home, and every free slot has the blank key. -/
structure Kept (values : Nat → K × V) (n : Nat) (L : List (K × V)) : Prop where
  perm : (entries free values n).Perm L
  inHome : ∀ j < n, free (values j).2 = false → InHome home (values j).1 j
  blank_of_free : ∀ j, free (values j).2 = true → (values j).1 = blank

variable {free home blank} {values : Nat → K × V} {n j : Nat} {e : K × V} {L L' : List (K × V)} {k : K}

theorem kept_of_free (hfree : ∀ j, free (values j).2 = true) (hblank : ∀ j, (values j).1 = blank) :
    Kept free home blank values n [] := by
  refine ⟨by rw [entries_of_free fun j _ => hfree j], fun j _ hf => ?_, fun j _ => hblank j⟩
  exact absurd (hf.symm.trans (hfree j)) Bool.false_ne_true

namespace Kept

section

variable (h : Kept free home blank values n L)
include h

theorem of_perm (hp : L.Perm L') :
    Kept free home blank values n L' := ⟨h.perm.trans hp, h.inHome, h.blank_of_free⟩

theorem inHome_update (he : free e.2 = false → InHome home e.1 j) :
    ∀ i < n, free (update values j e i).2 = false →
      InHome home (update values j e i).1 i := by
  intro i hi hf
  by_cases hij : i = j
  · subst hij
    rw [update_self] at hf ⊢
    exact he hf
  · rw [update_of_ne hij] at hf ⊢
    exact h.inHome i hi hf

theorem blank_update (he : free e.2 = true → e.1 = blank) :
    ∀ i, free (update values j e i).2 = true → (update values j e i).1 = blank := by
  intro i hf
  by_cases hij : i = j
  · subst hij
    rw [update_self] at hf ⊢
    exact he hf
  · rw [update_of_ne hij] at hf ⊢
    exact h.blank_of_free i hf

theorem put (hj : j < n) (hfree : free (values j).2 = true)
    (he : free e.2 = false) (hin : InHome home e.1 j) :
    Kept free home blank (update values j e) n (e :: L) := by
  refine ⟨?_, h.inHome_update fun _ => hin, h.blank_update fun hf => ?_⟩
  · exact (entries_update_live hj he).trans (((entries_dead hj hfree).symm.trans h.perm).cons e)
  · exact absurd (he.symm.trans hf) Bool.false_ne_true

theorem replace (hj : j < n) (hlive : free (values j).2 = false)
    (he : free e.2 = false) (hkey : e.1 = (values j).1) :
    ∃ rest, L.Perm (values j :: rest) ∧
      Kept free home blank (update values j e) n (e :: rest) := by
  refine ⟨others free values n j, h.perm.symm.trans (entries_live hj hlive),
    entries_update_live hj he, h.inHome_update fun _ => hkey ▸ h.inHome j hj hlive,
    h.blank_update fun hf => absurd (he.symm.trans hf) Bool.false_ne_true⟩

theorem clear (hj : j < n) (hlive : free (values j).2 = false)
    (he : free e.2 = true) (hblank : e.1 = blank) :
    ∃ rest, L.Perm (values j :: rest) ∧ Kept free home blank (update values j e) n rest := by
  refine ⟨others free values n j, h.perm.symm.trans (entries_live hj hlive),
    entries_update_dead hj he, h.inHome_update fun hf => ?_, h.blank_update fun _ => hblank⟩
  exact absurd (hf.symm.trans he) Bool.false_ne_true

end

variable [DecidableEq K]

theorem live_of_firstIn (h : Kept free home blank values n L) (hk : k ≠ blank)
    (hj : firstIn (fun i => decide ((values i).1 = k)) (home k).1 (home k).2 = some j) :
    (values j).1 = k ∧ InHome home k j ∧ free (values j).2 = false := by
  obtain ⟨hkey, hin, -⟩ := firstIn_eq_some.mp hj
  have hkey := of_decide_eq_true hkey
  refine ⟨hkey, hin, Bool.eq_false_iff.mpr fun hf => hk ?_⟩
  rw [← hkey]
  exact h.blank_of_free j hf

theorem notMem_of_firstIn (h : Kept free home blank values n L)
    (hj : firstIn (fun i => decide ((values i).1 = k)) (home k).1 (home k).2 = none) :
    k ∉ L.map Prod.fst := by
  intro hmem
  obtain ⟨e, he, rfl⟩ := mem_map.mp hmem
  obtain ⟨j, hjn, rfl, hlive⟩ := mem_entries.mp (h.perm.mem_iff.mpr he)
  have hin := h.inHome j hjn hlive
  exact absurd rfl (of_decide_eq_false (firstIn_eq_none.mp hj j hin.1 hin.2))

end Kept

end Blank

end Vpp.Lib
