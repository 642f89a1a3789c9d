import Vpp.Vector.IpCsumRfc1071
import Mathlib.Algebra.Order.BigOperators.Group.List

/-!
# The TTL of a forwarded packet

The TTL is counted down on output, and up again when the packet is diverted; the checksum moves by one
the other way, with the end-around carry of ones' complement.
-/

namespace Vpp.Ip.Ttl

open Lib Vpp.Vector

/-- `ip4_header_t` on a little endian machine: the fields of `iphdr[2]`, and the other words. -/
structure Header where
  iphdr : Nat → BitVec 32
  ttl : BitVec 8
  protocol : BitVec 8
  checksum : BitVec 16

/-- The words but `iphdr[2]`, those of the options among them, added up. -/
def sumOthers (iphdr : Nat → BitVec 32) : Nat :=
  let optionLen := (iphdr 0).toNat % 16 - 5
  ((0 :: 1 :: List.range' 3 (2 + optionLen)).map fun k => (iphdr k).toNat).sum

/-- `ip4_header_checksum_inline` with the checksum, which folds its sum as `clib_ip_csum_fold` does. -/
def ip4HeaderChecksumInline (i : Header) : BitVec 16 :=
  let sum := sumOthers i.iphdr + i.ttl.toNat + 2 ^ 8 * i.protocol.toNat + 2 ^ 16 * i.checksum.toNat
  clibIpCsumFold .shifts ⟨.ofNat 64 sum, false⟩

def ip4HeaderChecksumIsValid (i : Header) : Bool := ip4HeaderChecksumInline i == 0#16

/-- The flags that are read. -/
structure Buffer where
  locallyOriginated : Bool
  offloadIpCksum : Bool
  offloadOuterIpCksum : Bool

/-- What is set when the TTL expires; `icmp` is the type, the code and the data of the message. -/
structure Verdict where
  next : Nat
  error : Nat
  txSwIfIndex : BitVec 32
  icmp : Nat × Nat × Nat

/-- `IP4_REWRITE_NEXT_ICMP_ERROR` and `IP4_ERROR_TIME_EXPIRED`. -/
def Verdict.timeExpired : Verdict := ⟨1, 7, -1, 11, 0, 0⟩

/-- `checksum += checksum >= 0xffff`, and the assignment to the field. -/
def carried (checksum : Nat) : BitVec 16 := .ofNat 16 (checksum + if 0xffff ≤ checksum then 1 else 0)

def ip4TtlInc (b : Buffer) (ip : Header) : Header :=
  if b.locallyOriginated then ip
  else { ip with
    checksum := carried ((ip.checksum.toNat + (2 ^ 32 - 1)) % 2 ^ 32)
    ttl := ip.ttl + 1 }

def ip4TtlAndChecksumCheck (b : Buffer) (ip : Header) (v : Verdict) : Header × Verdict :=
  if b.locallyOriginated then (ip, v)
  else
    ({ ip with checksum := carried (ip.checksum.toNat + 1), ttl := ip.ttl - 1 },
      if ip.ttl.toNat ≤ 1 then .timeExpired else v)

/-- The closing assertion of both. -/
def Buffer.asserts (b : Buffer) (ip : Header) : Bool :=
  ip4HeaderChecksumIsValid ip || b.offloadIpCksum || b.offloadOuterIpCksum

theorem sumOthers_le (iphdr : Nat → BitVec 32) : sumOthers iphdr ≤ 14 * 2 ^ 32 := by
  have hsum : sumOthers iphdr ≤ _ := List.sum_le_card_nsmul _ (2 ^ 32) fun w hw => by
    obtain ⟨k, -, rfl⟩ := List.mem_map.mp hw
    exact (iphdr k).isLt.le
  simp only [List.length_map, List.length_cons, List.length_range', nsmul_eq_mul, Nat.cast_id] at hsum
  exact hsum.trans (Nat.mul_le_mul_right _ (by omega))

theorem valid_iff (i : Header) :
    let s := sumOthers i.iphdr + i.ttl.toNat + 2 ^ 8 * i.protocol.toNat + i.checksum.toNat
    ip4HeaderChecksumIsValid i ↔ 0 < s ∧ s % 65535 = 0 := by
  have hle := sumOthers_le i.iphdr
  rw [ip4HeaderChecksumIsValid, beq_iff_eq, ip4HeaderChecksumInline, ← BitVec.toNat_inj, toNat_clibIpCsumFold,
    BitVec.toNat_ofNat, Nat.mod_eq_of_lt (by omega), Fold.value]
  generalize sumOthers i.iphdr = s at *
  -- fifteen words are too few for the carry to get lost
  rw [if_neg (by unfold CarryLost; omega), residue]
  split <;> simp only [BitVec.toNat_ofNat] <;> omega

variable {c : BitVec 16}

theorem toNat_carried_dec :
    (carried (c.toNat + 1)).toNat = if c.toNat < 0xfffe then c.toNat + 1 else c.toNat - 0xfffe := by
  rw [carried, BitVec.toNat_ofNat]
  split <;> split <;> omega

theorem toNat_carried_inc : (carried ((c.toNat + (2 ^ 32 - 1)) % 2 ^ 32)).toNat = c.toNat - 1 := by
  rw [carried, BitVec.toNat_ofNat]
  split <;> omega

/-- The increment meets a checksum of 0, the other zero of ones' complement, just when the decrement
began with `0xfffe`; zero minus one then comes out as zero. -/
theorem ttl_rewrite_iff (b : Buffer) (v : Verdict) {ip : Header} (hvalid : ip4HeaderChecksumIsValid ip)
    (httl : 1 ≤ ip.ttl.toNat) :
    let out := (ip4TtlAndChecksumCheck b ip v).1
    let back := ip4TtlInc b out
    (ip4HeaderChecksumIsValid out ∧ out.ttl.toNat = ip.ttl.toNat - 1) ∧
        (ip4HeaderChecksumIsValid back ∧ back.ttl = ip.ttl) ∧ b.asserts out ∧ b.asserts back ↔
      b.locallyOriginated = false ∧ ip.checksum ≠ 0xfffe := by
  have hne : ip.checksum ≠ 0xfffe ↔ ip.checksum.toNat ≠ 0xfffe := BitVec.toNat_inj.not.symm
  cases hb : b.locallyOriginated with
  | true =>
    simp [ip4TtlAndChecksumCheck, hb]
    omega
  | false =>
    have hc := ip.checksum.isLt
    have ht : (ip.ttl - 1).toNat = ip.ttl.toNat - 1 := by bv_omega
    simp only [ip4TtlAndChecksumCheck, ip4TtlInc, hb, Bool.false_eq_true, if_false, Buffer.asserts,
      Bool.or_eq_true, valid_iff, BitVec.sub_add_cancel, ht, toNat_carried_inc, hne] at hvalid ⊢
    -- the checksum is below `0xfffe`, or it is one of the two above
    rw [toNat_carried_dec]
    grind

/-- A header of five words. -/
def plain (ttl : BitVec 8) (checksum : BitVec 16) : Header where
  iphdr k := if k = 0 then 0x45 else if k = 3 then 0xffba else 0
  ttl
  protocol := 0
  checksum

theorem plain_brought_back :
    ip4HeaderChecksumIsValid (ip4TtlInc ⟨false, false, false⟩
      (ip4TtlAndChecksumCheck ⟨false, false, false⟩ (plain 2 0xfffd) .timeExpired).1) :=
  ((ttl_rewrite_iff _ _ (by decide) (by decide)).mpr ⟨rfl, by decide⟩).2.1.1

theorem plain_not_brought_back :
    let out := (ip4TtlAndChecksumCheck ⟨false, false, false⟩ (plain 1 0xfffe) .timeExpired).1
    ip4HeaderChecksumIsValid (plain 1 0xfffe) ∧ out = plain 0 0 ∧
      ¬ Buffer.asserts ⟨false, false, false⟩ (ip4TtlInc ⟨false, false, false⟩ out) := by
  refine ⟨by decide, rfl, by decide⟩

end Vpp.Ip.Ttl
