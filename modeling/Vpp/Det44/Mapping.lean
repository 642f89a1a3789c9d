import Vpp.Lib.ByteOrder

/-!
# Deterministic NAT mappings

A mapping gives every address of an inside prefix an address of an outside prefix and a range of
ports, computed from its offset in the prefix: `sharingRatio` inside addresses share one outside
address and `portsPerHost` ports go to each of them. `snatDetForward` goes from the inside to the
outside, `snatDetReverse` back.

An expression that C gives no value to (a division by zero, a shift by a count outside `0 .. 31`, an
index outside `fib_masks`) is `none`. The FIB entries and the session vector of a mapping are left
out.
-/

namespace Vpp.Det44

open Lib BitVec Nat

/-- An address as it is in a packet, loaded by a little endian processor. -/
structure Ip4Address where
  asU32 : BitVec 32
deriving DecidableEq, Repr

def clibNetToHostU32 (x : BitVec 32) : BitVec 32 := swapBytes x

def clibHostToNetU32 (x : BitVec 32) : BitVec 32 := swapBytes x

/-- `ip4_main.fib_masks`, an array of 33. -/
def fibMasks (len : Nat) : Option (BitVec 32) :=
  if len ≤ 32 then some (clibHostToNetU32 (highMask 32 (32 - len))) else none

structure SnatDetMap where
  inAddr : Ip4Address
  inPlen : BitVec 8
  outAddr : Ip4Address
  outPlen : BitVec 8
  sharingRatio : BitVec 32
  portsPerHost : BitVec 16
deriving DecidableEq, Repr

def vnetApiErrorValueExist : Int := -81

def vnetApiErrorNoSuchEntry : Int := -6

/-- `1 << n` of `int`s. -/
def oneShl (n : Int) : Option (BitVec 32) :=
  if 0 ≤ n ∧ n < 32 then some (1#32 <<< n.toNat) else none

/-- `(1 << (32 - in_plen)) / (1 << (32 - out_plen))`, a division of `int`s. -/
def sharingRatioOf (inPlen outPlen : BitVec 8) : Option (BitVec 32) := do
  let inSize ← oneShl (32 - inPlen.toNat)
  let outSize ← oneShl (32 - outPlen.toNat)
  if outSize = 0#32 then none else some (inSize.sdiv outSize)

/-- `(65535 - 1023) / sharing_ratio`, unsigned as the ratio is, stored in 16 bits. -/
def portsPerHostOf (sharingRatio : BitVec 32) : Option (BitVec 16) :=
  if sharingRatio = 0#32 then none
  else some ((BitVec.ofNat 32 (65535 - 1023) / sharingRatio).setWidth 16)

/-- `vec_del1`: the last element takes the place of the deleted one. -/
def vecDel1 (v : List SnatDetMap) (i : Nat) : List SnatDetMap :=
  match v.getLast? with
  | some last => (v.set i last).dropLast
  | none => []

def snatDetAddMap (detMaps : List SnatDetMap) (inAddr : Ip4Address) (inPlen : BitVec 8)
    (outAddr : Ip4Address) (outPlen : BitVec 8) (isAdd : Bool) : Option (Int × List SnatDetMap) := do
  let inMask ← fibMasks inPlen.toNat
  let outMask ← fibMasks outPlen.toNat
  let inCmp : Ip4Address := ⟨inAddr.asU32 &&& inMask⟩
  let outCmp : Ip4Address := ⟨outAddr.asU32 &&& outMask⟩
  let found := detMaps.findIdx? fun mp =>
    mp.inAddr == inCmp && mp.inPlen == inPlen && mp.outAddr == outCmp && mp.outPlen == outPlen
  match found, isAdd with
  | some _, true => return (vnetApiErrorValueExist, detMaps)
  | none, false => return (vnetApiErrorNoSuchEntry, detMaps)
  | none, true =>
    let sharingRatio ← sharingRatioOf inPlen outPlen
    let portsPerHost ← portsPerHostOf sharingRatio
    return (0, detMaps ++ [⟨inCmp, inPlen, outCmp, outPlen, sharingRatio, portsPerHost⟩])
  | some i, false => return (0, vecDel1 detMaps i)

def isAddrInNet (addr net : Ip4Address) (plen : BitVec 8) : Bool :=
  match fibMasks plen.toNat with
  | some mask => net.asU32 == addr.asU32 &&& mask
  | none => false

/-- The outside address and the first port of an inside address. -/
def snatDetForward (dm : SnatDetMap) (inAddr : Ip4Address) : Option (Ip4Address × BitVec 16) :=
  if dm.sharingRatio = 0#32 then none
  else
    let inOffset := clibNetToHostU32 inAddr.asU32 - clibNetToHostU32 dm.inAddr.asU32
    let outOffset := inOffset / dm.sharingRatio
    some (⟨clibHostToNetU32 (clibNetToHostU32 dm.outAddr.asU32 + outOffset)⟩,
      (1024#32 + dm.portsPerHost.setWidth 32 * (inOffset % dm.sharingRatio)).setWidth 16)

/-- The inside address an outside address and port belong to. -/
def snatDetReverse (dm : SnatDetMap) (outAddr : Ip4Address) (outPort : BitVec 16) :
    Option Ip4Address :=
  if dm.portsPerHost = 0#16 then none
  else
    let outOffset := clibNetToHostU32 outAddr.asU32 - clibNetToHostU32 dm.outAddr.asU32
    let inOffset1 := outOffset * dm.sharingRatio
    -- `out_port` and `ports_per_host` are promoted to `int`
    let inOffset2 := BitVec.ofInt 32 (((outPort.toNat : Int) - 1024).tdiv dm.portsPerHost.toNat)
    some ⟨clibHostToNetU32 (clibNetToHostU32 dm.inAddr.asU32 + inOffset1 + inOffset2)⟩

/-! ## Addresses as numbers -/

variable {a : Ip4Address} {mp : SnatDetMap} {d : Nat}

namespace Ip4Address

def host (a : Ip4Address) : Nat := (clibNetToHostU32 a.asU32).toNat

theorem host_lt : a.host < 2 ^ 32 := (clibNetToHostU32 a.asU32).isLt

theorem host_inj {b : Ip4Address} : a.host = b.host ↔ a = b := by
  refine ⟨fun h => ?_, fun h => h ▸ rfl⟩
  rw [mk.injEq]
  exact (swapBytes_inj ⟨4, rfl⟩).mp (eq_of_toNat_eq h)

theorem host_mk (x : BitVec 32) : (Ip4Address.mk (clibHostToNetU32 x)).host = x.toNat := by
  rw [host, clibNetToHostU32, clibHostToNetU32, swapBytes_swapBytes ⟨4, rfl⟩]

theorem host_and_mask {len : Nat} {mask : BitVec 32} (hm : fibMasks len = some mask) :
    (Ip4Address.mk (a.asU32 &&& mask)).host = a.host / 2 ^ (32 - len) * 2 ^ (32 - len) := by
  unfold fibMasks at hm
  split at hm
  · obtain rfl := Option.some.inj hm
    rw [host, clibNetToHostU32, swapBytes_and, clibHostToNetU32, swapBytes_swapBytes ⟨4, rfl⟩,
      toNat_and_highMask]
    rfl
  · cases hm

end Ip4Address

variable {len : Nat} {plen inPlen outPlen : BitVec 8} {r : BitVec 32} {p : BitVec 16}
  {inAddr outAddr : Ip4Address}

theorem fibMasks_eq_some (h : len ≤ 32) : ∃ mask, fibMasks len = some mask :=
  ⟨_, if_pos h⟩

theorem fibMasks_le {mask : BitVec 32} (h : fibMasks len = some mask) : len ≤ 32 := by
  by_contra hlt
  rw [fibMasks, if_neg hlt] at h
  cases h

theorem isAddrInNet_iff {addr net : Ip4Address} (h : plen.toNat ≤ 32) :
    isAddrInNet addr net plen = true ↔
      addr.host / 2 ^ (32 - plen.toNat) * 2 ^ (32 - plen.toNat) = net.host := by
  obtain ⟨mask, hm⟩ := fibMasks_eq_some h
  rw [isAddrInNet, hm, ← Ip4Address.host_and_mask hm, Ip4Address.host_inj, beq_iff_eq, eq_comm]
  rw [Ip4Address.mk.injEq]

/-! ## The ratio and the ports of a host -/

theorem sdiv_sizes : ∀ k < 32, ∀ m ≤ k, (k = 31 → m = 31) →
    (1#32 <<< k).sdiv (1#32 <<< m) = BitVec.ofNat 32 (2 ^ (k - m)) := by
  decide +kernel

theorem sdiv_sizes_lt : ∀ m < 32, ∀ k < m, (1#32 <<< k).sdiv (1#32 <<< m) = 0#32 := by
  decide +kernel

theorem le_sdiv_sizes_neg : ∀ m < 31, 2 ^ 31 ≤ ((1#32 <<< 31).sdiv (1#32 <<< m)).toNat := by
  decide +kernel

theorem oneShl_eq (h1 : 1 ≤ plen.toNat) (h32 : plen.toNat ≤ 32) :
    oneShl (32 - plen.toNat) = some (1#32 <<< (32 - plen.toNat)) := by
  have hn : ((32 : Int) - plen.toNat).toNat = 32 - plen.toNat := by omega
  rw [oneShl, if_pos (by omega), hn]

theorem oneShl_ne_zero : ∀ k < 32, 1#32 <<< k ≠ 0#32 := by
  decide +kernel

theorem sharingRatioOf_eq (hi : 1 ≤ inPlen.toNat)
    (hi' : inPlen.toNat ≤ 32) (ho : 1 ≤ outPlen.toNat) (ho' : outPlen.toNat ≤ 32) :
    sharingRatioOf inPlen outPlen =
      some ((1#32 <<< (32 - inPlen.toNat)).sdiv (1#32 <<< (32 - outPlen.toNat))) := by
  rw [sharingRatioOf, oneShl_eq hi hi', oneShl_eq ho ho']
  exact if_neg (oneShl_ne_zero _ (by omega))

theorem plen_of_sharingRatioOf
    (h : sharingRatioOf inPlen outPlen = some r) : 1 ≤ inPlen.toNat ∧ 1 ≤ outPlen.toNat := by
  unfold sharingRatioOf oneShl at h
  by_cases hi : inPlen.toNat = 0
  · simp [hi] at h
  by_cases ho : outPlen.toNat = 0
  · simp [ho] at h
  omega

theorem toNat_portsPerHostOf (h : portsPerHostOf r = some p) :
    r ≠ 0#32 ∧ p.toNat = 64512 / r.toNat := by
  unfold portsPerHostOf at h
  split at h
  · cases h
  rename_i hr
  obtain rfl := Option.some.inj h
  refine ⟨hr, ?_⟩
  apply mod_eq_of_lt
  exact lt_of_le_of_lt (Nat.div_le_self _ _) (by decide)

/-! ## A mapping that is laid out well -/

/-- The prefixes of the mapping hold `2 ^ k` and `2 ^ m` addresses, with a port for every host. -/
structure Laid (mp : SnatDetMap) (k m : Nat) : Prop where
  inPlen : mp.inPlen.toNat + k = 32
  outPlen : mp.outPlen.toNat + m = 32
  le : m ≤ k
  lt : k < 32
  near : k ≤ m + 15
  inBase : 2 ^ k ∣ mp.inAddr.host
  outBase : 2 ^ m ∣ mp.outAddr.host
  ratio : mp.sharingRatio.toNat = 2 ^ (k - m)
  ports : mp.portsPerHost.toNat = 64512 / 2 ^ (k - m)

namespace Laid

variable {mp : SnatDetMap} {k m : Nat}

theorem ports_pos (h : Laid mp k m) : 0 < mp.portsPerHost.toNat := by
  rw [h.ports]
  have hpow : 2 ^ (k - m) ≤ 2 ^ 15 := Nat.pow_le_pow_right (by decide) (by have := h.near; omega)
  exact Nat.div_pos (le_trans hpow (by decide)) (Nat.two_pow_pos _)

theorem mem_iff {b : Ip4Address} {n : Nat} (hp : plen.toNat + n = 32) (hb : 2 ^ n ∣ b.host) :
    isAddrInNet a b plen = true ↔ ∃ d < 2 ^ n, a.host = b.host + d := by
  rw [isAddrInNet_iff (by omega), show 32 - plen.toNat = n by omega]
  obtain ⟨q, hq⟩ := hb
  constructor
  · intro h
    refine ⟨a.host % 2 ^ n, mod_lt _ (Nat.two_pow_pos n), ?_⟩
    rw [← h, div_add_mod']
  · rintro ⟨d, hd, ha⟩
    rw [ha, hq, mul_add_div (Nat.two_pow_pos n), div_eq_of_lt hd, add_zero, mul_comm]

theorem outside_lt (h : Laid mp k m) {c : Nat} (hc : c < 2 ^ m) : mp.outAddr.host + c < 2 ^ 32 := by
  obtain ⟨q, hq⟩ := h.outBase
  have hsplit : 2 ^ 32 = 2 ^ m * 2 ^ (32 - m) := by
    rw [← pow_add]
    congr 1
    have := h.outPlen
    omega
  have hlt : mp.outAddr.host < 2 ^ 32 := mp.outAddr.host_lt
  rw [hq, hsplit] at hlt ⊢
  have hq1 : q + 1 ≤ 2 ^ (32 - m) := Nat.lt_of_mul_lt_mul_left hlt
  calc 2 ^ m * q + c < 2 ^ m * (q + 1) := by rw [Nat.mul_succ]; omega
    _ ≤ 2 ^ m * 2 ^ (32 - m) := Nat.mul_le_mul_left _ hq1

theorem port_lt (h : Laid mp k m) (d : Nat) :
    mp.portsPerHost.toNat * (d % 2 ^ (k - m)) + mp.portsPerHost.toNat ≤ 64512 := by
  refine le_trans (Nat.mul_le_mul_left _ (mod_lt _ (Nat.two_pow_pos _))) ?_
  rw [h.ports]
  exact div_mul_le_self _ _

theorem forward (h : Laid mp k m) (hd : d < 2 ^ k) (ha : a.host = mp.inAddr.host + d) :
    ∃ o lo, snatDetForward mp a = some (o, lo) ∧ o.host = mp.outAddr.host + d / 2 ^ (k - m) ∧
      d / 2 ^ (k - m) < 2 ^ m ∧
      lo.toNat = 1024 + mp.portsPerHost.toNat * (d % 2 ^ (k - m)) := by
  have hr : mp.sharingRatio ≠ 0#32 := by
    intro hz
    have := h.ratio
    rw [hz] at this
    exact absurd this.symm (Nat.two_pow_pos _).ne'
  have hle : 2 ^ k = 2 ^ m * 2 ^ (k - m) := by
    rw [← pow_add]
    congr 1
    have := h.le
    omega
  have hdiv : d / 2 ^ (k - m) < 2 ^ m := by
    rw [Nat.div_lt_iff_lt_mul (Nat.two_pow_pos _), ← hle]
    exact hd
  have hoff : (clibNetToHostU32 a.asU32 - clibNetToHostU32 mp.inAddr.asU32).toNat = d := by
    rw [toNat_sub_of_le]
    · change a.host - mp.inAddr.host = d
      omega
    · change mp.inAddr.host ≤ a.host
      omega
  refine ⟨_, _, if_neg hr, ?_, hdiv, ?_⟩
  · rw [Ip4Address.host_mk, toNat_add, toNat_udiv, hoff, h.ratio]
    apply mod_eq_of_lt
    exact outside_lt h hdiv
  rw [toNat_setWidth, toNat_add, toNat_mul, toNat_umod, hoff, h.ratio, toNat_setWidth]
  have hlt := port_lt h d
  have hpos := h.ports_pos
  rw [mod_eq_of_lt (show mp.portsPerHost.toNat < 2 ^ 32 by omega)]
  change (1024 + _) % 2 ^ 32 % 2 ^ 16 = _
  omega

theorem reverse (h : Laid mp k m) {o : Ip4Address} {port : BitVec 16}
    (ho : o.host = mp.outAddr.host + d / 2 ^ (k - m)) (ha : a.host = mp.inAddr.host + d)
    (hlo : 1024 + mp.portsPerHost.toNat * (d % 2 ^ (k - m)) ≤ port.toNat)
    (hhi : port.toNat < 1024 + mp.portsPerHost.toNat * (d % 2 ^ (k - m)) + mp.portsPerHost.toNat) :
    snatDetReverse mp o port = some a := by
  have hpos := h.ports_pos
  have hne : mp.portsPerHost ≠ 0#16 := by
    intro hz
    rw [hz] at hpos
    exact absurd hpos (by decide)
  have hoff : (clibNetToHostU32 o.asU32 - clibNetToHostU32 mp.outAddr.asU32).toNat =
      d / 2 ^ (k - m) := by
    rw [toNat_sub_of_le]
    · change o.host - mp.outAddr.host = _
      rw [ho, Nat.add_sub_cancel_left]
    · change mp.outAddr.host ≤ o.host
      rw [ho]
      exact Nat.le_add_right _ _
  have hport : (((port.toNat : Int) - 1024).tdiv mp.portsPerHost.toNat) = (d % 2 ^ (k - m) : Nat) := by
    have hsub : (port.toNat : Int) - 1024 = (port.toNat - 1024 : Nat) := by omega
    rw [hsub, ← Int.ofNat_tdiv]
    congr 1
    rw [Nat.div_eq_iff hpos]
    rw [mul_comm] at hlo hhi
    omega
  have hlt : mp.inAddr.host + d < 2 ^ 32 := ha ▸ a.host_lt
  have hmod : 2 ^ (k - m) * (d / 2 ^ (k - m)) + d % 2 ^ (k - m) = d := div_add_mod d _
  refine (if_neg hne).trans (congrArg some (Ip4Address.host_inj.mp ?_))
  rw [Ip4Address.host_mk, hport, toNat_add, toNat_add, toNat_mul, hoff, h.ratio]
  change (((mp.inAddr.host + _) % 2 ^ 32) + _) % 2 ^ 32 = _
  rw [ofInt_natCast, toNat_ofNat, mul_comm (d / _)]
  omega

end Laid

/-- **Invertible mapping.** Every inside address has an outside address and ports of its own, each leading
back to it. -/
structure Invertible (mp : SnatDetMap) : Prop where
  forward : ∀ i, isAddrInNet i mp.inAddr mp.inPlen = true → ∃ o lo,
    snatDetForward mp i = some (o, lo) ∧ isAddrInNet o mp.outAddr mp.outPlen = true ∧
      0 < mp.portsPerHost.toNat ∧ 1024 ≤ lo.toNat ∧ lo.toNat + mp.portsPerHost.toNat ≤ 65536 ∧
      ∀ port : BitVec 16, lo.toNat ≤ port.toNat → port.toNat < lo.toNat + mp.portsPerHost.toNat →
        snatDetReverse mp o port = some i
  disjoint : ∀ i j, isAddrInNet i mp.inAddr mp.inPlen = true →
    isAddrInNet j mp.inAddr mp.inPlen = true → i ≠ j → ∀ o lo lo',
      snatDetForward mp i = some (o, lo) → snatDetForward mp j = some (o, lo') →
        lo.toNat + mp.portsPerHost.toNat ≤ lo'.toNat ∨ lo'.toNat + mp.portsPerHost.toNat ≤ lo.toNat

theorem Laid.invertible {k m : Nat} (h : Laid mp k m) : Invertible mp where
  forward := by
    intro i hi
    obtain ⟨d, hd, ha⟩ := (Laid.mem_iff h.inPlen h.inBase).mp hi
    obtain ⟨o, lo, hf, ho, hdiv, hlo⟩ := h.forward hd ha
    have hport := h.port_lt d
    refine ⟨o, lo, hf, (Laid.mem_iff h.outPlen h.outBase).mpr ⟨_, hdiv, ho⟩, h.ports_pos, by omega,
      by omega, fun port hge hlt => ?_⟩
    exact h.reverse ho ha (hlo ▸ hge) (hlo ▸ hlt)
  disjoint := by
    intro i j hi hj hne o lo lo' hfi hfj
    obtain ⟨d, hd, ha⟩ := (Laid.mem_iff h.inPlen h.inBase).mp hi
    obtain ⟨e, he, hb⟩ := (Laid.mem_iff h.inPlen h.inBase).mp hj
    obtain ⟨o1, lo1, hf, ho, -, hlo⟩ := h.forward hd ha
    obtain ⟨o2, lo2, hf', ho', -, hlo'⟩ := h.forward he hb
    obtain ⟨rfl, rfl⟩ := Prod.mk.inj (Option.some.inj (hfi.symm.trans hf))
    obtain ⟨rfl, rfl⟩ := Prod.mk.inj (Option.some.inj (hfj.symm.trans hf'))
    -- the offsets differ and their quotients do not, so the remainders do
    have hmod : d % 2 ^ (k - m) ≠ e % 2 ^ (k - m) := by
      intro heq
      apply hne
      apply Ip4Address.host_inj.mp
      rw [ha, hb, ← div_add_mod d (2 ^ (k - m)), ← div_add_mod e (2 ^ (k - m)), heq,
        show d / 2 ^ (k - m) = e / 2 ^ (k - m) by omega]
    rcases lt_or_gt_of_ne hmod with hlt | hlt
    · have := Nat.mul_le_mul_left mp.portsPerHost.toNat hlt
      rw [Nat.mul_succ] at this
      omega
    · have := Nat.mul_le_mul_left mp.portsPerHost.toNat hlt
      rw [Nat.mul_succ] at this
      omega

/-! ## Which requests give an invertible mapping -/

theorem snatDetAddMap_add {detMaps : List SnatDetMap}
    (hnew : snatDetAddMap detMaps inAddr inPlen outAddr outPlen true ≠ some (vnetApiErrorValueExist,
      detMaps)) :
    snatDetAddMap detMaps inAddr inPlen outAddr outPlen true = some (0, detMaps ++ [mp]) ↔
      ∃ inMask outMask, fibMasks inPlen.toNat = some inMask ∧ fibMasks outPlen.toNat = some outMask ∧
        ∃ r p, sharingRatioOf inPlen outPlen = some r ∧ portsPerHostOf r = some p ∧
          mp = ⟨⟨inAddr.asU32 &&& inMask⟩, inPlen, ⟨outAddr.asU32 &&& outMask⟩, outPlen, r, p⟩ := by
  unfold snatDetAddMap at hnew ⊢
  cases hi : fibMasks inPlen.toNat with
  | none => simp
  | some inMask =>
    cases ho : fibMasks outPlen.toNat with
    | none => simp
    | some outMask =>
      simp only [hi, ho, Option.bind_eq_bind, Option.bind_some] at hnew ⊢
      split at hnew
      · exact absurd rfl hnew
      · contradiction
      · cases hr : sharingRatioOf inPlen outPlen with
        | none => simp
        | some r =>
          cases hp : portsPerHostOf r with
          | none => simp [hp]
          | some p => simp [hp, eq_comm]
      · contradiction

theorem exists_ports (hi : 1 ≤ inPlen.toNat)
    (hle : inPlen.toNat ≤ outPlen.toNat) (ho : outPlen.toNat ≤ 32)
    (hone : inPlen.toNat = 1 → outPlen.toNat = 1) :
    ∃ r p, sharingRatioOf inPlen outPlen = some r ∧ portsPerHostOf r = some p := by
  refine ⟨_, _, sharingRatioOf_eq hi (by omega) (by omega) ho, if_neg ?_⟩
  rw [sdiv_sizes _ (by omega) _ (by omega) (by omega)]
  intro hz
  have := congrArg BitVec.toNat hz
  rw [toNat_ofNat, mod_eq_of_lt (Nat.pow_lt_pow_right (by decide) (by omega))] at this
  exact absurd this (Nat.two_pow_pos _).ne'

theorem laid_of_add {inMask outMask : BitVec 32} (hi : 1 ≤ inPlen.toNat) (hle : inPlen.toNat ≤ outPlen.toNat)
    (ho : outPlen.toNat ≤ 32) (hnear : outPlen.toNat ≤ inPlen.toNat + 15)
    (hone : inPlen.toNat = 1 → outPlen.toNat = 1) (him : fibMasks inPlen.toNat = some inMask)
    (hom : fibMasks outPlen.toNat = some outMask) (hr : sharingRatioOf inPlen outPlen = some r)
    (hp : portsPerHostOf r = some p) :
    Laid ⟨⟨inAddr.asU32 &&& inMask⟩, inPlen, ⟨outAddr.asU32 &&& outMask⟩, outPlen, r, p⟩
      (32 - inPlen.toNat) (32 - outPlen.toNat) := by
  rw [sharingRatioOf_eq hi (by omega) (by omega) ho,
    sdiv_sizes _ (by omega) _ (by omega) (by omega)] at hr
  obtain rfl := Option.some.inj hr
  have hratio : (BitVec.ofNat 32 (2 ^ (32 - inPlen.toNat - (32 - outPlen.toNat)))).toNat =
      2 ^ (32 - inPlen.toNat - (32 - outPlen.toNat)) := by
    exact mod_eq_of_lt (Nat.pow_lt_pow_right (by decide) (by omega))
  refine ⟨by dsimp only; omega, by dsimp only; omega, by omega, by omega, by omega, ?_, ?_, hratio, ?_⟩
  · rw [Ip4Address.host_and_mask him]
    exact dvd_mul_left _ _
  · rw [Ip4Address.host_and_mask hom]
    exact dvd_mul_left _ _
  · rw [(toNat_portsPerHostOf hp).2, hratio]

theorem plen_of_ports_pos
    (hi : inPlen.toNat ≤ 32) (ho : outPlen.toNat ≤ 32) (hr : sharingRatioOf inPlen outPlen = some r)
    (hp : portsPerHostOf r = some p) (hpos : 0 < p.toNat) :
    1 ≤ inPlen.toNat ∧ inPlen.toNat ≤ outPlen.toNat ∧ outPlen.toNat ≤ inPlen.toNat + 15 ∧
      (inPlen.toNat = 1 → outPlen.toNat = 1) := by
  obtain ⟨hi1, ho1⟩ := plen_of_sharingRatioOf hr
  obtain ⟨hrne, hports⟩ := toNat_portsPerHostOf hp
  rw [sharingRatioOf_eq hi1 hi ho1 ho] at hr
  obtain rfl := Option.some.inj hr
  have hrle : _ ≤ 64512 := Nat.le_of_not_lt fun hlt => by
    rw [hports, div_eq_of_lt hlt] at hpos
    exact absurd hpos (lt_irrefl 0)
  have hle : inPlen.toNat ≤ outPlen.toNat := by
    by_contra hlt
    exact hrne (sdiv_sizes_lt _ (by omega) _ (by omega))
  have hone : inPlen.toNat = 1 → outPlen.toNat = 1 := by
    intro h1
    by_contra hne
    rw [h1] at hrle
    exact absurd (le_trans (le_sdiv_sizes_neg (32 - outPlen.toNat) (by omega)) hrle) (by decide)
  rw [sdiv_sizes _ (by omega) _ (by omega) (by omega), toNat_ofNat,
    mod_eq_of_lt (Nat.pow_lt_pow_right (by decide) (by omega))] at hrle
  by_contra hfar
  have : 2 ^ 16 ≤ 2 ^ (32 - inPlen.toNat - (32 - outPlen.toNat)) :=
    Nat.pow_le_pow_right (by decide) (by omega)
  omega

/-- A request that is no duplicate gives an invertible mapping exactly when the outside prefix is longer, by
at most 15 bits. -/
theorem snatDetAddMap_invertible_iff (detMaps : List SnatDetMap) (inAddr outAddr : Ip4Address)
    (inPlen outPlen : BitVec 8) (hnew : snatDetAddMap detMaps inAddr inPlen outAddr outPlen true ≠
      some (vnetApiErrorValueExist, detMaps)) :
    (∃ mp, snatDetAddMap detMaps inAddr inPlen outAddr outPlen true = some (0, detMaps ++ [mp]) ∧
      Invertible mp) ↔
      1 ≤ inPlen.toNat ∧ inPlen.toNat ≤ outPlen.toNat ∧ outPlen.toNat ≤ 32 ∧
        outPlen.toNat ≤ inPlen.toNat + 15 ∧ (inPlen.toNat = 1 → outPlen.toNat = 1) := by
  constructor
  · rintro ⟨mp, hadd, hinv⟩
    obtain ⟨inMask, outMask, him, hom, r, p, hr, hp, rfl⟩ := (snatDetAddMap_add hnew).mp hadd
    have hi : inPlen.toNat ≤ 32 := fibMasks_le him
    have ho : outPlen.toNat ≤ 32 := fibMasks_le hom
    have hbase : isAddrInNet ⟨inAddr.asU32 &&& inMask⟩ ⟨inAddr.asU32 &&& inMask⟩ inPlen = true := by
      rw [isAddrInNet, him]
      simp [BitVec.and_assoc]
    obtain ⟨_, _, -, -, hpos, -⟩ := hinv.forward _ hbase
    obtain ⟨hi1, hle, hnear, hone⟩ := plen_of_ports_pos hi ho hr hp hpos
    exact ⟨hi1, hle, ho, hnear, hone⟩
  · rintro ⟨hi1, hle, ho, hnear, hone⟩
    obtain ⟨inMask, him⟩ := fibMasks_eq_some (le_trans hle ho)
    obtain ⟨outMask, hom⟩ := fibMasks_eq_some ho
    obtain ⟨r, p, hr, hp⟩ := exists_ports hi1 hle ho hone
    exact ⟨_, (snatDetAddMap_add hnew).mpr ⟨_, _, him, hom, r, p, hr, hp, rfl⟩,
      (laid_of_add hi1 hle ho hnear hone him hom hr hp).invertible⟩

/-- 10.0.0.0/24 shares 1.1.1.0/30. -/
theorem snatDetAddMap_invertible_private :
    ∃ mp, snatDetAddMap [] ⟨0x0000000a⟩ 24 ⟨0x00010101⟩ 30 true = some (0, [mp]) ∧ Invertible mp :=
  (snatDetAddMap_invertible_iff [] ⟨0x0000000a⟩ ⟨0x00010101⟩ 24 30 (by decide)).mpr (by decide)

/-- 10.0.0.0/16 behind the single address 1.1.1.1 is accepted, and no host gets a port. -/
theorem no_ports_behind_one_address :
    ∃ mp, snatDetAddMap [] ⟨0x0000000a⟩ 16 ⟨0x01010101⟩ 32 true = some (0, [mp]) ∧
      mp.portsPerHost = 0#16 ∧ snatDetReverse mp ⟨0x01010101⟩ 1024 = none ∧ ¬ Invertible mp := by
  refine ⟨⟨⟨0x0000000a⟩, 16, ⟨0x01010101⟩, 32, 65536, 0⟩, by decide +kernel, rfl, by decide +kernel, ?_⟩
  intro h
  obtain ⟨_, _, -, -, hpos, -⟩ := h.forward ⟨0x0000000a⟩ (by decide +kernel)
  exact absurd hpos (by decide)

end Vpp.Det44
