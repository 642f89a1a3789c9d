import Mathlib.Data.BitVec

/-!
# Cutting a list into pieces

A list is cut into pieces of a fixed length, the last of which may be shorter. `Cut m o xs ps` says
that `ps` are the pieces of `xs`, each with the position where it begins if `xs` begins at `o`.
`Tiles` is what is asked of any such division: the pieces, one after the other from `o` on, spell
`xs`.
-/

namespace Vpp.Lib

open List

variable {α : Type*}

theorem exists_of_forall₂ {α β : Type} {R : α → β → Prop} {as : List α} {bs : List β}
    (h : List.Forall₂ R as bs) {b : β} (hb : b ∈ bs) : ∃ a ∈ as, R a b := by
  induction h with
  | nil => cases hb
  | cons hr _ ih =>
    rcases mem_cons.mp hb with rfl | hb
    · exact ⟨_, mem_cons_self, hr⟩
    · obtain ⟨a, ha, hr⟩ := ih hb
      exact ⟨a, mem_cons_of_mem _ ha, hr⟩

theorem map_eq_of_forall₂ {α β γ : Type} {R : α → β → Prop} {as : List α} {bs : List β}
    (h : List.Forall₂ R as bs) {f : α → γ} {g : β → γ} (hfg : ∀ a ∈ as, ∀ b, R a b → g b = f a) :
    bs.map g = as.map f := by
  induction h with
  | nil => rfl
  | @cons a b as bs hr _ ih =>
    rw [map_cons, map_cons, hfg a mem_cons_self b hr,
      ih fun a' ha' => hfg a' (mem_cons_of_mem a ha')]

/-- The pieces begin where the one before ends, and together they spell the list. -/
def Tiles (o : Nat) : List (Nat × List α) → List α → Prop
  | [], xs => xs = []
  | p :: ps, xs => p.1 = o ∧ ∃ ys, xs = p.2 ++ ys ∧ Tiles (o + p.2.length) ps ys

/-- The pieces of length `m` of a list, and where they begin. -/
inductive Cut (m : Nat) : Nat → List α → List (Nat × List α) → Prop
  | nil (o : Nat) : Cut m o [] []
  | last (o : Nat) {xs : List α} (hne : xs ≠ []) (hle : xs.length ≤ m) : Cut m o xs [(o, xs)]
  | cons (o : Nat) {xs ys : List α} {ps : List (Nat × List α)} (hlen : xs.length = m)
      (hne : ys ≠ []) (hrest : Cut m (o + m) ys ps) : Cut m o (xs ++ ys) ((o, xs) :: ps)

variable {o : Nat} {ps : List (Nat × List α)} {xs : List α}

theorem Tiles.length (h : Tiles o ps xs) : xs.length = (ps.map fun p => p.2.length).sum := by
  induction ps generalizing o xs with
  | nil => rw [show xs = [] from h]; rfl
  | cons p ps ih =>
    obtain ⟨-, ys, rfl, hrest⟩ := h
    rw [length_append, ih hrest, map_cons, sum_cons]

theorem Tiles.unique {ps qs : List (Nat × List α)} {xs ys : List α} (h : Tiles o ps xs)
    (h' : Tiles o qs ys) (heq : ps.map Prod.snd = qs.map Prod.snd) : ps = qs := by
  induction ps generalizing o qs xs ys with
  | nil => exact (map_eq_nil_iff.mp heq.symm).symm
  | cons p ps ih =>
    cases qs with
    | nil => cases heq
    | cons q qs =>
      obtain ⟨hp, xs', -, hrest⟩ := h
      obtain ⟨hq, ys', -, hrest'⟩ := h'
      obtain ⟨hsnd, htail⟩ := List.cons.inj heq
      rw [← hsnd] at hrest'
      rw [ih hrest hrest' htail, Prod.ext (hp.trans hq.symm) hsnd]

theorem Tiles.shift (h : Tiles o ps xs) (d : Nat) :
    Tiles (d + o) (ps.map fun p => (d + p.1, p.2)) xs := by
  induction ps generalizing o xs with
  | nil => exact h
  | cons p ps ih =>
    obtain ⟨hp, ys, hxs, hrest⟩ := h
    refine ⟨congrArg (d + ·) hp, ys, hxs, ?_⟩
    rw [Nat.add_assoc]
    exact ih hrest

namespace Cut

variable {m o : Nat} {xs : List α} {ps : List (Nat × List α)}

theorem tiles (h : Cut m o xs ps) : Tiles o ps xs := by
  induction h with
  | nil o => rfl
  | last o hne hle => exact ⟨rfl, [], (append_nil _).symm, rfl⟩
  | cons o hlen hne hrest ih => exact ⟨rfl, _, rfl, hlen ▸ ih⟩

theorem eq_of_le (h : Cut m o xs ps) (hne : xs ≠ []) (hle : xs.length ≤ m) : ps = [(o, xs)] := by
  cases h with
  | nil => exact absurd rfl hne
  | last => rfl
  | cons o hlen hne' hrest =>
    have := length_pos_iff.mpr hne'
    rw [length_append] at hle
    omega

theorem eq_nil (h : Cut m o [] ps) : ps = [] := by
  generalize hxs : ([] : List α) = xs at h
  cases h with
  | nil => rfl
  | last _ hne => exact absurd hxs.symm hne
  | cons _ _ hne => exact absurd (append_eq_nil_iff.mp hxs.symm).2 hne

theorem ne_nil (h : Cut m o xs ps) (hne : xs ≠ []) : ps ≠ [] := by
  rintro rfl
  cases h
  exact hne rfl

section

variable (h : Cut m o xs ps)
include h

theorem length_le (hm : 0 < m) : ∀ p ∈ ps, 0 < p.2.length ∧ p.2.length ≤ m := by
  induction h with
  | nil o => exact fun _ hp => nomatch hp
  | last o hne hle =>
    intro p hp
    rw [mem_singleton.mp hp]
    exact ⟨length_pos_iff.mpr hne, hle⟩
  | cons o hlen hne hrest ih =>
    intro p hp
    rcases mem_cons.mp hp with rfl | hp
    · exact ⟨hlen ▸ hm, Nat.le_of_eq hlen⟩
    · exact ih p hp

theorem length_eq_of_mem_dropLast : ∀ p ∈ ps.dropLast, p.2.length = m := by
  induction h with
  | nil o => exact fun _ hp => nomatch hp
  | last o hne hle => exact fun _ hp => nomatch hp
  | @cons o xs ys ps hlen hne hrest ih =>
    intro p hp
    have hps := hrest.ne_nil hne
    rw [dropLast_cons_of_ne_nil hps, mem_cons] at hp
    rcases hp with rfl | hp
    · exact hlen
    · exact ih p hp

theorem bounds : ∀ p ∈ ps, o ≤ p.1 ∧ m ∣ p.1 - o ∧ p.1 + p.2.length ≤ o + xs.length := by
  induction h with
  | nil o => exact fun _ hp => nomatch hp
  | last o hne hle =>
    intro p hp
    rw [mem_singleton.mp hp, Nat.sub_self]
    exact ⟨Nat.le_refl _, Nat.dvd_zero m, Nat.le_refl _⟩
  | @cons o xs ys ps hlen hne hrest ih =>
    intro p hp
    rw [length_append]
    rcases mem_cons.mp hp with rfl | hp
    · rw [Nat.sub_self]
      exact ⟨Nat.le_refl _, Nat.dvd_zero m, Nat.add_le_add_left (Nat.le_add_right _ _) o⟩
    · obtain ⟨h1, h2, h3⟩ := ih p hp
      refine ⟨by omega, ?_, by omega⟩
      rw [show p.1 - o = (p.1 - (o + m)) + m by omega]
      exact Nat.dvd_add h2 (Nat.dvd_refl m)

theorem start_le (hm : 0 < m) : ∀ p ∈ ps, p.1 ≤ o + (xs.length - 1) / m * m := by
  intro p hp
  obtain ⟨h1, ⟨k, hk⟩, h3⟩ := h.bounds p hp
  have hpos := (h.length_le hm p hp).1
  have hle : k ≤ (xs.length - 1) / m := by
    rw [Nat.le_div_iff_mul_le hm, Nat.mul_comm]
    omega
  have := Nat.mul_le_mul_right m hle
  rw [Nat.mul_comm k m] at this
  omega

theorem exists_last (hm : 0 < m) (hxs : xs ≠ []) : ∃ p ∈ ps, p.1 = o + (xs.length - 1) / m * m := by
  induction h with
  | nil o => exact absurd rfl hxs
  | @last o xs hne hle =>
    have hzero : (xs.length - 1) / m = 0 :=
      Nat.div_eq_of_lt (by omega)
    exact ⟨_, mem_singleton_self _, by rw [hzero, Nat.zero_mul, Nat.add_zero]⟩
  | @cons o xs ys ps hlen hne hrest ih =>
    obtain ⟨p, hp, hstart⟩ := ih hne
    have hpos := length_pos_iff.mpr hne
    refine ⟨p, mem_cons_of_mem _ hp, ?_⟩
    rw [length_append, show xs.length + ys.length - 1 = m + (ys.length - 1) by omega,
      Nat.add_div_left _ hm, Nat.succ_mul]
    omega

end

end Cut

end Vpp.Lib
