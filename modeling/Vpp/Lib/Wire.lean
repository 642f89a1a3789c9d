import Mathlib.Data.BitVec

/-!
# Numbers in a buffer

Numbers are written to the wire with the most significant byte first. `slice` is what a buffer holds at a
position, and `fetch` a read of it that fails outside the buffer.
-/

namespace Vpp.Lib

open List

/-! ## Numbers as bytes -/

def number (bytes : List (BitVec 8)) : Nat := bytes.foldl (fun n b => n * 256 + b.toNat) 0

/-- The last `k` bytes of a number. -/
def bytesOf : Nat → Nat → List (BitVec 8)
  | 0, _ => []
  | k + 1, n => bytesOf k (n / 256) ++ [BitVec.ofNat 8 n]

@[simp]
theorem length_bytesOf (k n : Nat) : (bytesOf k n).length = k := by
  induction k generalizing n with
  | zero => rfl
  | succ k ih => rw [bytesOf, length_append, ih]; rfl

theorem number_bytesOf (k n : Nat) : number (bytesOf k n) = n % 256 ^ k := by
  induction k generalizing n with
  | zero => rw [pow_zero, Nat.mod_one]; rfl
  | succ k ih =>
    have hlast : number (bytesOf (k + 1) n) = number (bytesOf k (n / 256)) * 256 + n % 256 := by
      rw [number, bytesOf, foldl_append]
      rfl
    rw [hlast, ih, Nat.pow_succ', Nat.mod_mul]
    omega

theorem bytesOf_mod (k n : Nat) : bytesOf k (n % 256 ^ k) = bytesOf k n := by
  induction k generalizing n with
  | zero => rfl
  | succ k ih =>
    have hdiv : n % 256 ^ (k + 1) / 256 = n / 256 % 256 ^ k := by
      rw [Nat.pow_succ', Nat.mod_mul_right_div_self]
    have hbyte : BitVec.ofNat 8 (n % 256 ^ (k + 1)) = BitVec.ofNat 8 n := by
      apply BitVec.eq_of_toNat_eq
      exact Nat.mod_mod_of_dvd n (Dvd.intro_left (256 ^ k) rfl)
    rw [bytesOf, bytesOf, hdiv, ih, hbyte]

/-! ## Reading a buffer -/

variable {α E : Type*} (buffer : List α)

/-- The elements at `p`, up to `n` of them. -/
def slice (p n : Nat) : List α := (buffer.drop p).take n

/-- A read of `n` elements at `p`; nothing is read for `n = 0`. -/
def fetch (outside : E) (p n : Nat) : Except E (List α) :=
  if n = 0 ∨ p + n ≤ buffer.length then .ok (slice buffer p n) else .error outside

def patch (p : Nat) (new : List α) : List α := buffer.take p ++ new ++ buffer.drop (p + new.length)

variable {buffer} {outside : E} {p n : Nat}

theorem fetch_ok (h : p + n ≤ buffer.length) : fetch buffer outside p n = .ok (slice buffer p n) :=
  if_pos (.inr h)

theorem fetch_error (hn : n ≠ 0) (h : buffer.length < p + n) :
    fetch buffer outside p n = .error outside :=
  if_neg fun hor => hor.elim hn fun hle => absurd hle (not_le.mpr h)

variable {β γ : Type} {x : Except E β} {f : β → Except E γ} {front back : List α}

theorem ok_bind (b : β) : (Except.ok b >>= f) = f b := rfl

theorem bind_eq_ok {c : γ} : (x >>= f) = .ok c ↔ ∃ b, x = .ok b ∧ f b = .ok c := by
  cases x with
  | error e =>
    refine ⟨fun hc => ?_, fun ⟨b, hb, _⟩ => ?_⟩
    · cases hc
    · cases hb
  | ok b => exact ⟨fun h => ⟨b, rfl, h⟩, fun ⟨b', hb, h⟩ => by cases hb; exact h⟩

theorem exists_bind_ok : (∃ c, (x >>= f) = .ok c) ↔ ∃ b, x = .ok b ∧ ∃ c, f b = .ok c := by
  simp only [bind_eq_ok]
  exact ⟨fun ⟨c, b, hb, hc⟩ => ⟨b, hb, c, hc⟩, fun ⟨b, hb, c, hc⟩ => ⟨c, b, hb, hc⟩⟩

theorem fetch_ok_iff (hn : n ≠ 0) {bytes : List α} :
    fetch buffer outside p n = .ok bytes ↔ p + n ≤ buffer.length ∧ bytes = slice buffer p n := by
  by_cases h : p + n ≤ buffer.length
  · rw [fetch_ok h]
    exact ⟨fun heq => ⟨h, by cases heq; rfl⟩, fun heq => by rw [heq.2]⟩
  · rw [fetch_error hn (by omega)]
    exact ⟨fun heq => (by cases heq), fun heq => absurd heq.1 h⟩

theorem slice_add (p k n : Nat) : slice buffer (p + k) n = slice (buffer.drop p) k n := by
  rw [slice, slice, drop_drop]

theorem slice_append_left (h : n = front.length) : slice (front ++ back) 0 n = front := by
  rw [slice, drop_zero, take_append_of_le_length (by omega), h, take_length]

theorem slice_append_right (h : p = front.length) : slice (front ++ back) p n = slice back 0 n := by
  rw [slice, slice, h, drop_left, drop_zero]

theorem patch_append {front old new back : List α} (hp : p = front.length)
    (hlen : new.length = old.length) :
    patch (front ++ (old ++ back)) p new = front ++ (new ++ back) := by
  rw [patch, hp, take_left, ← drop_drop, drop_left, hlen, drop_left, append_assoc]

end Vpp.Lib
