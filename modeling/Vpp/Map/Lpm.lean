import Vpp.Lib.ByteOrder
import Vpp.Lib.Prefix
import Vpp.Bihash.Map

/-!
# The longest-prefix-match tables of MAP

`lpm_t` has one hash for each length of an IPv4 prefix, and for IPv6 one bihash keyed by the masked
address and the length, next to a bitmap of the lengths in use with a count for each of them. The
hashes are the finite maps they implement. Addresses are as a little endian processor loads them.
-/

namespace Vpp.Map

open Lib
open List hiding after
open Function (update update_self update_of_ne)

structure Ip6Address where
  asU64 : BitVec 64 × BitVec 64
deriving DecidableEq, Repr

/-- `key[0 .. 2]` of the bihash. -/
abbrev Key128 := BitVec 64 × BitVec 64 × Nat

structure Lpm where
  hash : Nat → BitVec 32 → Option (BitVec 32)
  bihash : Key128 → Option (BitVec 32)
  prefixLengthsBitmap : Nat → Bool
  prefixLengthRefcount : Nat → BitVec 32

def lpmTableInit : Lpm where
  hash := fun _ _ => none
  bihash := fun _ => none
  prefixLengthsBitmap := fun _ => false
  prefixLengthRefcount := fun _ => 0#32

def ntohl (x : BitVec 32) : BitVec 32 := swapBytes x

def htonl (x : BitVec 32) : BitVec 32 := swapBytes x

def maskedAddress32 (addr : BitVec 32) (len : Nat) : BitVec 32 :=
  let a := ntohl addr
  htonl (if len = 32 then a else a &&& ~~~(BitVec.allOnes 32 >>> len))

def maskedAddress64 (addr : BitVec 64) (len : Nat) : BitVec 64 :=
  if len = 64 then addr else addr &&& ~~~(BitVec.allOnes 64 >>> len)

/-! ## IPv4 -/

def lpm32Add (lpm : Lpm) (addr : BitVec 32) (pfxlen : Nat) (value : BitVec 32) : Lpm :=
  let key := maskedAddress32 addr pfxlen
  -- an entry that is there already is overwritten after a warning
  { lpm with hash := update lpm.hash pfxlen (update (lpm.hash pfxlen) key (some value)) }

def lpm32Delete (lpm : Lpm) (addr : BitVec 32) (pfxlen : Nat) : Lpm :=
  let key := maskedAddress32 addr pfxlen
  { lpm with hash := update lpm.hash pfxlen (update (lpm.hash pfxlen) key none) }

/-- The loop over `mask_len`, downwards. -/
def lpm32LookupFrom (lpm : Lpm) (addr : BitVec 32) : Nat → BitVec 32
  | 0 => (lpm.hash 0 (maskedAddress32 addr 0)).getD (~~~0#32)
  | maskLen + 1 =>
    match lpm.hash (maskLen + 1) (maskedAddress32 addr (maskLen + 1)) with
    | some result => result
    | none => lpm32LookupFrom lpm addr maskLen

def lpm32Lookup (lpm : Lpm) (addr : BitVec 32) (pfxlen : Nat) : BitVec 32 :=
  lpm32LookupFrom lpm addr pfxlen

/-! ## IPv6 -/

def key128 (addr : Ip6Address) (pfxlen : Nat) : Key128 :=
  (maskedAddress64 addr.asU64.1 (if pfxlen > 64 then 64 else pfxlen),
    maskedAddress64 addr.asU64.2 (if pfxlen > 64 then pfxlen - 64 else 0), pfxlen)

def lpm128LookupCore (lpm : Lpm) (addr : Ip6Address) (pfxlen : Nat) : Option (BitVec 32) :=
  lpm.bihash (key128 addr pfxlen)

/-- `clib_bitmap_foreach` goes through the set bits upwards. -/
def lpm128Lookup (lpm : Lpm) (addr : Ip6Address) : BitVec 32 :=
  (((List.range 129).filter lpm.prefixLengthsBitmap).findSome? (lpm128LookupCore lpm addr)).getD
    (~~~0#32)

def lpm128Add (lpm : Lpm) (addr : Ip6Address) (pfxlen : Nat) (value : BitVec 32) : Lpm :=
  { lpm with
    bihash := Bihash.applyOp lpm.bihash (key128 addr pfxlen, value) 1
    prefixLengthRefcount := update lpm.prefixLengthRefcount pfxlen
      (lpm.prefixLengthRefcount pfxlen + 1#32)
    prefixLengthsBitmap := update lpm.prefixLengthsBitmap (128 - pfxlen) true }

def lpm128Delete (lpm : Lpm) (addr : Ip6Address) (pfxlen : Nat) : Lpm :=
  let refcount := lpm.prefixLengthRefcount pfxlen - 1#32
  { lpm with
    bihash := Bihash.applyOp lpm.bihash (key128 addr pfxlen, 0#32) 0
    prefixLengthRefcount := update lpm.prefixLengthRefcount pfxlen refcount
    prefixLengthsBitmap :=
      if refcount = 0#32 then update lpm.prefixLengthsBitmap (128 - pfxlen) false
      else lpm.prefixLengthsBitmap }

/-! ## What a table is for -/

abbrev Routes := Prefix → Option (BitVec 32)

def prefix32 (addr : BitVec 32) (len : Nat) : Prefix := ⟨len, (ntohl addr).toNat / 2 ^ (32 - len)⟩

def host128 (addr : Ip6Address) : Nat :=
  (swapBytes addr.asU64.1).toNat * 2 ^ 64 + (swapBytes addr.asU64.2).toNat

def prefix128 (addr : Ip6Address) (len : Nat) : Prefix := ⟨len, host128 addr / 2 ^ (128 - len)⟩

/-- `r` is the value of the longest present prefix that covers the address, `~0` if none does. -/
def Finds (R : Routes) (addr : Prefix) (r : BitVec 32) : Prop :=
  (∃ p, Longest R addr p r) ∨ (∀ p, p.Covers addr → R p = none) ∧ r = ~~~0#32

inductive Op (α : Type) where
  | add (addr : α) (pfxlen : Nat) (value : BitVec 32)
  | delete (addr : α) (pfxlen : Nat)

def Op.pfxlen {α : Type} : Op α → Nat
  | .add _ pfxlen _ => pfxlen
  | .delete _ pfxlen => pfxlen

def Routes.apply {α : Type} (R : Routes) (pfx : α → Nat → Prefix) : Op α → Routes
  | .add addr pfxlen value => update R (pfx addr pfxlen) (some value)
  | .delete addr pfxlen => update R (pfx addr pfxlen) none

def exec32 (lpm : Lpm) : Op (BitVec 32) → Lpm
  | .add addr pfxlen value => lpm32Add lpm addr pfxlen value
  | .delete addr pfxlen => lpm32Delete lpm addr pfxlen

def exec128 (lpm : Lpm) : Op Ip6Address → Lpm
  | .add addr pfxlen value => lpm128Add lpm addr pfxlen value
  | .delete addr pfxlen => lpm128Delete lpm addr pfxlen

abbrev State := Lpm × Routes

def init : State := (lpmTableInit, fun _ => none)

def step32 (s : State) (op : Op (BitVec 32)) : State × Unit :=
  ((exec32 s.1 op, s.2.apply prefix32 op), ())

def step128 (s : State) (op : Op Ip6Address) : State × Unit :=
  ((exec128 s.1 op, s.2.apply prefix128 op), ())

/-! ## Masks and prefixes -/

theorem not_shiftRight_allOnes {w len : Nat} (h : len ≤ w) :
    ~~~(BitVec.allOnes w >>> len) = highMask w (w - len) := by
  apply BitVec.eq_of_getLsbD_eq
  intro i hi
  rw [getLsbD_highMask hi, BitVec.getLsbD_not]
  by_cases hle : w - len ≤ i
  · have : ¬ len + i < w := by omega
    simp [hi, hle, this]
  · have : len + i < w := by omega
    simp [hle, this]

variable {len : Nat} {s : State}

theorem ntohl_maskedAddress32 (addr : BitVec 32) (h : len ≤ 32) :
    (ntohl (maskedAddress32 addr len)).toNat = (prefix32 addr len).val * 2 ^ (32 - len) := by
  rw [maskedAddress32, htonl, ntohl, swapBytes_swapBytes ⟨4, rfl⟩]
  split
  · rename_i h32
    subst h32
    simp [prefix32]
  · rw [not_shiftRight_allOnes h, toNat_and_highMask]
    rfl

theorem maskedAddress32_inj {a b : BitVec 32} (h : len ≤ 32) :
    maskedAddress32 a len = maskedAddress32 b len ↔ prefix32 a len = prefix32 b len := by
  have hk : maskedAddress32 a len = maskedAddress32 b len ↔
      (ntohl (maskedAddress32 a len)).toNat = (ntohl (maskedAddress32 b len)).toNat :=
    ((swapBytes_inj ⟨4, rfl⟩).symm).trans BitVec.toNat_inj.symm
  rw [hk, ntohl_maskedAddress32 a h, ntohl_maskedAddress32 b h,
    Nat.mul_left_inj (Nat.two_pow_pos _).ne']
  exact ⟨congrArg (Prefix.mk len), congrArg Prefix.val⟩

/-- **Search by length.** Whatever looks the lengths up in descending order finds the longest match. -/
theorem finds_of_lengths {R : Routes} {W a : Nat} {r : BitVec 32}
    (h : (∃ len ≤ W, R ⟨len, a / 2 ^ (W - len)⟩ = some r ∧
        ∀ l ≤ W, len < l → R ⟨l, a / 2 ^ (W - l)⟩ = none) ∨
      (∀ l ≤ W, R ⟨l, a / 2 ^ (W - l)⟩ = none) ∧ r = ~~~0#32) : Finds R ⟨W, a⟩ r := by
  rcases h with ⟨len, hlen, hr, hmax⟩ | ⟨hnone, hr⟩
  · exact .inl ⟨_, longest_of_lengths hlen hr hmax⟩
  · exact .inr ⟨none_of_lengths hnone, hr⟩

/-! ## IPv4 tables -/

def Holds32 (s : State) : Prop :=
  ∀ len ≤ 32, ∀ addr, s.1.hash len (maskedAddress32 addr len) = s.2 (prefix32 addr len)

theorem Holds32.write (h : Holds32 s) {addr : BitVec 32} (hlen : len ≤ 32)
    (v : Option (BitVec 32)) :
    Holds32 (
      { s.1 with
        hash := update s.1.hash len
          (update (s.1.hash len) (maskedAddress32 addr len) v) },
      update s.2 (prefix32 addr len) v) := by
  intro l hl a
  by_cases hll : l = len
  · subst hll
    simp only [update_self, Function.update_apply, maskedAddress32_inj hl, h l hl a]
  · have hne : prefix32 a l ≠ prefix32 addr len := fun he => hll (congrArg Prefix.len he)
    simp only [update_of_ne hll, update_of_ne hne]
    exact h l hl a

theorem Holds32.step (h : Holds32 s) {op : Op (BitVec 32)} (hop : op.pfxlen ≤ 32) :
    Holds32 (step32 s op).1 := by
  cases op with
  | add addr pfxlen value => exact h.write hop (some value)
  | delete addr pfxlen => exact h.write hop none

theorem Holds32.lookupFrom (h : Holds32 s) (addr : BitVec 32) {n : Nat} (hn : n ≤ 32) :
    (∃ len ≤ n, s.2 (prefix32 addr len) = some (lpm32LookupFrom s.1 addr n) ∧
      ∀ l ≤ n, len < l → s.2 (prefix32 addr l) = none) ∨
    (∀ l ≤ n, s.2 (prefix32 addr l) = none) ∧ lpm32LookupFrom s.1 addr n = ~~~0#32 := by
  induction n with
  | zero =>
    rw [lpm32LookupFrom, h 0 hn]
    cases hv : s.2 (prefix32 addr 0) with
    | none => exact .inr ⟨fun l hl => Nat.le_zero.mp hl ▸ hv, rfl⟩
    | some v => exact .inl ⟨0, le_refl 0, hv, fun l hl hlt => absurd hlt (by omega)⟩
  | succ n ih =>
    rw [lpm32LookupFrom, h (n + 1) hn]
    cases hv : s.2 (prefix32 addr (n + 1)) with
    | some v => exact .inl ⟨n + 1, le_refl _, hv, fun l hl hlt => absurd hlt (by omega)⟩
    | none =>
      rcases ih (by omega) with ⟨len, hlen, hr, hmax⟩ | ⟨hnone, hr⟩
      · refine .inl ⟨len, by omega, hr, fun l hl hlt => ?_⟩
        rcases lt_or_eq_of_le hl with hl | rfl
        · exact hmax l (by omega) hlt
        · exact hv
      · refine .inr ⟨fun l hl => ?_, hr⟩
        rcases lt_or_eq_of_le hl with hl | rfl
        · exact hnone l (by omega)
        · exact hv

theorem Holds32.finds (h : Holds32 s) (addr : BitVec 32) :
    Finds s.2 (prefix32 addr 32) (lpm32Lookup s.1 addr 32) := by
  have : prefix32 addr 32 = ⟨32, (ntohl addr).toNat⟩ := by simp [prefix32]
  rw [this]
  exact finds_of_lengths (h.lookupFrom addr (le_refl 32))

/-! ## IPv6 tables

The bit of a length `p` in `prefix_lengths_bitmap` is `128 - p`, and the lookup takes the number of a
set bit for the length itself. The masks are applied to the address as loaded, without a change of byte
order. Both are right for the length 64 only. -/

variable {addr : Ip6Address}

theorem key128_sixtyFour : key128 addr 64 = (addr.asU64.1, 0#64, 64) := by
  simp [key128, maskedAddress64]

theorem prefix128_sixtyFour : prefix128 addr 64 = ⟨64, (swapBytes addr.asU64.1).toNat⟩ := by
  have h : host128 addr / 2 ^ 64 = (swapBytes addr.asU64.1).toNat := by
    rw [host128, mul_comm, Nat.mul_add_div (by decide), Nat.div_eq_of_lt (swapBytes _).isLt,
      add_zero]
  exact congrArg (Prefix.mk 64) h

theorem prefix128_inj {a b : Ip6Address} :
    prefix128 a 64 = prefix128 b 64 ↔ a.asU64.1 = b.asU64.1 := by
  rw [prefix128_sixtyFour, prefix128_sixtyFour, Prefix.mk.injEq, BitVec.toNat_inj,
    swapBytes_inj ⟨8, rfl⟩]
  exact and_iff_right rfl

/-- What an operation has to keep to: only `/64` prefixes, no delete of a prefix that is not there, and
no add when the count is at its end. -/
def Served (s : State) : Op Ip6Address → Prop
  | .add _ pfxlen _ => pfxlen = 64 ∧ s.1.prefixLengthRefcount pfxlen ≠ ~~~0#32
  | .delete addr pfxlen => pfxlen = 64 ∧ s.2 (prefix128 addr pfxlen) ≠ none

/-- A table with `/64` prefixes only. -/
structure Holds128 (s : State) : Prop where
  keys : ∀ addr, s.1.bihash (key128 addr 64) = s.2 (prefix128 addr 64)
  lengths : ∀ p, s.2 p ≠ none → p.len = 64
  bits : ∀ i, s.1.prefixLengthsBitmap i = true → i = 64
  bit : (∃ p, s.2 p ≠ none) → s.1.prefixLengthsBitmap 64 = true
  /-- The count is at least the number of prefixes: adding one that is there counts again. -/
  count : ∃ L : List Prefix, L.Nodup ∧ (∀ p, s.2 p ≠ none ↔ p ∈ L) ∧
    L.length ≤ (s.1.prefixLengthRefcount 64).toNat

theorem holds128_init : Holds128 init where
  keys := fun _ => rfl
  lengths := fun _ h => absurd rfl h
  bits := fun _ h => nomatch h
  bit := fun ⟨_, h⟩ => absurd rfl h
  count := ⟨[], nodup_nil, fun _ => by simp [init], Nat.zero_le _⟩

namespace Holds128

variable {s : State}

section

variable (h : Holds128 s)
include h

theorem keys_update (addr a : Ip6Address) (v : Option (BitVec 32)) :
    update s.1.bihash (key128 addr 64) v (key128 a 64) =
      update s.2 (prefix128 addr 64) v (prefix128 a 64) := by
  have hk : key128 a 64 = key128 addr 64 ↔ prefix128 a 64 = prefix128 addr 64 := by
    rw [key128_sixtyFour, key128_sixtyFour, prefix128_inj, Prod.mk.injEq]
    exact and_iff_left rfl
  simp only [Function.update_apply, hk, h.keys a]

theorem add {value : BitVec 32} (hroom : s.1.prefixLengthRefcount 64 ≠ ~~~0#32) :
    Holds128 (step128 s (.add addr 64 value)).1 where
  keys := fun a => h.keys_update addr a (some value)
  lengths := by
    intro p hp
    by_cases he : p = prefix128 addr 64
    · exact congrArg Prefix.len he
    · exact h.lengths p (by simpa [step128, Routes.apply, he] using hp)
  bits := by
    intro i hi
    by_cases he : i = 64
    · exact he
    · exact h.bits i (by simpa [step128, exec128, lpm128Add, he] using hi)
  bit := fun _ => by simp [step128, exec128, lpm128Add]
  count := by
    obtain ⟨L, hnd, hmem, hlen⟩ := h.count
    have hcnt : ((step128 s (.add addr 64 value)).1.1.prefixLengthRefcount 64).toNat =
        (s.1.prefixLengthRefcount 64).toNat + 1 := by
      have hlt : (s.1.prefixLengthRefcount 64).toNat ≠ 2 ^ 32 - 1 := fun he =>
        hroom (BitVec.eq_of_toNat_eq he)
      change (_ + 1) % 2 ^ 32 = _
      omega
    by_cases hin : prefix128 addr 64 ∈ L
    · refine ⟨L, hnd, fun p => ?_, by omega⟩
      by_cases he : p = prefix128 addr 64
      · simp [step128, Routes.apply, he, hin]
      · simpa [step128, Routes.apply, he] using hmem p
    · refine ⟨prefix128 addr 64 :: L, nodup_cons.mpr ⟨hin, hnd⟩, fun p => ?_, ?_⟩
      · by_cases he : p = prefix128 addr 64
        · simp [step128, Routes.apply, he]
        · simpa [step128, Routes.apply, he] using hmem p
      · rw [length_cons]
        omega

theorem delete (hin : s.2 (prefix128 addr 64) ≠ none) : Holds128 (step128 s (.delete addr 64)).1 := by
  obtain ⟨L, hnd, hmem, hlen⟩ := h.count
  have hL : prefix128 addr 64 ∈ L := (hmem _).mp hin
  have hpos : 0 < L.length := length_pos_of_mem hL
  have hcnt : (s.1.prefixLengthRefcount 64 - 1#32).toNat =
      (s.1.prefixLengthRefcount 64).toNat - 1 := by
    rw [BitVec.toNat_sub_of_le]
    · rfl
    · change 1 ≤ (s.1.prefixLengthRefcount 64).toNat
      omega
  have hmem' : ∀ p, (step128 s (.delete addr 64)).1.2 p ≠ none ↔ p ∈ L.erase (prefix128 addr 64) := by
    intro p
    rw [hnd.mem_erase_iff, ← hmem p]
    by_cases he : p = prefix128 addr 64
    · simp [step128, Routes.apply, he]
    · simp [step128, Routes.apply, he]
  refine ⟨fun a => h.keys_update addr a none, fun p hp => ?_, fun i hi => ?_, ?_, ?_⟩
  · exact h.lengths p ((hmem p).mpr (mem_of_mem_erase ((hmem' p).mp hp)))
  · simp only [step128, exec128, lpm128Delete] at hi
    split at hi
    · by_cases he : i = 64
      · exact he
      · exact h.bits i (by simpa [he] using hi)
    · exact h.bits i hi
  · -- the bit is only cleared when the last prefix goes
    rintro ⟨p, hp⟩
    have hne : s.1.prefixLengthRefcount 64 - 1#32 ≠ 0#32 := by
      intro hz
      have h1 : (L.erase (prefix128 addr 64)).length = 0 := by
        rw [length_erase_of_mem hL]
        rw [hz] at hcnt
        change 0 = _ at hcnt
        omega
      rw [hmem' p, eq_nil_of_length_eq_zero h1] at hp
      exact absurd hp not_mem_nil
    simp only [step128, exec128, lpm128Delete, if_neg hne]
    exact h.bit ⟨_, hin⟩
  · refine ⟨L.erase (prefix128 addr 64), hnd.erase _, hmem', ?_⟩
    simp only [step128, exec128, lpm128Delete, update_self]
    rw [length_erase_of_mem hL]
    omega

theorem step {op : Op Ip6Address} (hop : Served s op) : Holds128 (step128 s op).1 := by
  cases op with
  | add addr pfxlen value =>
    obtain ⟨rfl, hroom⟩ := hop
    exact h.add hroom
  | delete addr pfxlen =>
    obtain ⟨rfl, hin⟩ := hop
    exact h.delete hin

theorem lookup_eq (addr : Ip6Address) :
    lpm128Lookup s.1 addr = (s.2 (prefix128 addr 64)).getD (~~~0#32) := by
  rw [lpm128Lookup]
  cases hb : s.1.prefixLengthsBitmap 64 with
  | true =>
    have hf : (List.range 129).filter s.1.prefixLengthsBitmap = [64] := by
      have hfun : s.1.prefixLengthsBitmap = fun i => i == 64 := by
        funext i
        by_cases he : i = 64
        · rw [he, hb]
          rfl
        · rw [beq_false_of_ne he]
          exact Bool.eq_false_iff.mpr fun hi => he (h.bits i hi)
      rw [hfun]
      decide
    rw [hf, findSome?_cons, lpm128LookupCore, h.keys addr]
    cases s.2 (prefix128 addr 64) <;> rfl
  | false =>
    have hf : (List.range 129).filter s.1.prefixLengthsBitmap = [] := by
      rw [filter_eq_nil_iff]
      intro i _ hi
      rw [h.bits i hi, hb] at hi
      cases hi
    have hnone : s.2 (prefix128 addr 64) = none := by
      by_contra hne
      rw [h.bit ⟨_, hne⟩] at hb
      cases hb
    rw [hf, hnone]
    rfl

theorem finds (addr : Ip6Address) : Finds s.2 (prefix128 addr 128) (lpm128Lookup s.1 addr) := by
  have hp : prefix128 addr 128 = ⟨128, host128 addr⟩ := by simp [prefix128]
  have hother : ∀ l, l ≠ 64 → s.2 (prefix128 addr l) = none := by
    intro l hl
    by_contra hne
    exact hl (h.lengths _ hne)
  rw [hp, h.lookup_eq addr]
  apply finds_of_lengths
  cases hv : s.2 (prefix128 addr 64) with
  | some v => exact .inl ⟨64, by decide, hv, fun l _ hlt => hother l (by omega)⟩
  | none =>
    refine .inr ⟨fun l _ => ?_, rfl⟩
    by_cases hl : l = 64
    · exact hl ▸ hv
    · exact hother l hl

end

end Holds128

/-- **Longest-prefix match.** After any operations an IPv4 table finds the longest match, and so does an IPv6
table whose operations are all served. -/
theorem lookup_finds_longest (ops4 : List (Op (BitVec 32))) (ops6 : List (Op Ip6Address))
    (h4 : ∀ op ∈ ops4, op.pfxlen ≤ 32) (h6 : Along step128 Served init ops6) :
    (∀ addr, Finds (after step32 init ops4).2 (prefix32 addr 32)
      (lpm32Lookup (after step32 init ops4).1 addr 32)) ∧
    ∀ addr, Finds (after step128 init ops6).2 (prefix128 addr 128)
      (lpm128Lookup (after step128 init ops6).1 addr) := by
  refine ⟨fun addr => ?_, fun addr => ?_⟩
  · have hrun : Along step32 (fun _ op => op.pfxlen ≤ 32) init ops4 := along_of_mem h4 init
    exact (Along.invariant Holds32 (fun _ => True) (fun _ _ h hop => ⟨h.step hop, trivial⟩)
      (fun _ _ _ => rfl) hrun).1.finds addr
  · exact (Along.invariant Holds128 (fun _ => True) (fun _ _ h hop => ⟨h.step hop, trivial⟩)
      holds128_init h6).1.finds addr

/-- `2001:db8::/64` with a value. -/
def documentation : Op Ip6Address := .add ⟨0xb80d0120#64, 0#64⟩ 64 7#32

/-- `10.0.0.0/8` and `10.1.0.0/16`, and the `/64` prefix of an IPv6 table. -/
theorem lookup_finds_longest_two :
    Finds (after step32 init [.add 0x0000000a#32 8 1#32, .add 0x0000010a#32 16 2#32]).2
      (prefix32 0x0100010a#32 32)
      (lpm32Lookup (after step32 init [.add 0x0000000a#32 8 1#32, .add 0x0000010a#32 16 2#32]).1
        0x0100010a#32 32) ∧
    Finds (after step128 init [documentation]).2 (prefix128 ⟨0xb80d0120#64, 5#64⟩ 128)
      (lpm128Lookup (after step128 init [documentation]).1 ⟨0xb80d0120#64, 5#64⟩) :=
  have h := lookup_finds_longest [.add 0x0000000a#32 8 1#32, .add 0x0000010a#32 16 2#32]
    [documentation] (by simp [Op.pfxlen]) ⟨⟨rfl, by decide⟩, trivial⟩
  ⟨h.1 _, h.2 _⟩

/-- `2001:db8::/32` is added alone; the lookup of `2001:db8::5` tries the length 96. -/
theorem shorter_prefix_not_found :
    lpm128Lookup (after step128 init [.add ⟨0xb80d0120#64, 0#64⟩ 32 7#32]).1
        ⟨0xb80d0120#64, 0x0500000000000000#64⟩ = ~~~0#32 ∧
      ¬ Finds (after step128 init [.add ⟨0xb80d0120#64, 0#64⟩ 32 7#32]).2
        (prefix128 ⟨0xb80d0120#64, 0x0500000000000000#64⟩ 128)
        (lpm128Lookup (after step128 init [.add ⟨0xb80d0120#64, 0#64⟩ 32 7#32]).1
          ⟨0xb80d0120#64, 0x0500000000000000#64⟩) := by
  have hr : lpm128Lookup (after step128 init [.add ⟨0xb80d0120#64, 0#64⟩ 32 7#32]).1
      ⟨0xb80d0120#64, 0x0500000000000000#64⟩ = ~~~0#32 := by decide +kernel
  refine ⟨hr, ?_⟩
  have hpres : (after step128 init [.add ⟨0xb80d0120#64, 0#64⟩ 32 7#32]).2
      ⟨32, 0x20010db8⟩ = some 7#32 := by decide +kernel
  have hcov : Prefix.Covers ⟨32, 0x20010db8⟩
      (prefix128 ⟨0xb80d0120#64, 0x0500000000000000#64⟩ 128) := by decide +kernel
  rintro (⟨p, hp⟩ | ⟨hnone, -⟩)
  · -- nothing in the table has the value `~0`
    have hv := hp.value
    simp only [after, step128, Routes.apply, Function.update_apply] at hv
    split at hv
    · exact absurd (Option.some.inj hv) (by decide)
    · cases hv
  · rw [hnone _ hcov] at hpres
    cases hpres

end Vpp.Map
