import Vpp.Ikev2.SaRoundTrip

/-!
# The traffic selector payload, written and parsed

`ikev2_payload_add_ts` writes the ports of a selector in network order, and `ikev2_parse_ts_payload` takes
them as they come: the bytes of a port are read back in the other order. All else is read back as it was.
-/

namespace Vpp.Ikev2

open Lib List

def addrSize (tsType : Byte) : Nat := if tsType = tsIpv4AddrRange then 4 else 16

/-- `ikev2_payload_add_ts_entry`. A port is the two bytes in the memory of a little endian machine. -/
def tsEntryBytes (ts : Ts) : List Byte :=
  [ts.tsType, ts.protocolId] ++ bytesOf 2 (8 + 2 * addrSize ts.tsType) ++ ts.startPort.reverse ++
    ts.endPort.reverse ++ ts.startAddr ++ ts.endAddr

def payloadAddTs (c : PayloadChain) (ts : List Ts) (type : Byte) : PayloadChain :=
  let c := payloadAddHdr c type 8
  let c := { c with data := c.data.set (c.lastHdrOff + 4) (BitVec.ofNat 8 ts.length) }
  payloadAddData c (ts.flatMap tsEntryBytes)

def tsPayload (c : PayloadChain) (ts : List Ts) (type : Byte) : List Byte :=
  let c' := payloadAddTs c ts type
  c'.data.drop c'.lastHdrOff

def tsCmp (ts1 ts2 : Ts) : Bool :=
  ts1.tsType == ts2.tsType && ts1.protocolId == ts2.protocolId &&
    ts1.startPort == ts2.startPort && ts1.endPort == ts2.endPort &&
    ts1.startAddr == ts2.startAddr && ts1.endAddr == ts2.endAddr

structure Ts.IsRange (ts : Ts) : Prop where
  type : ts.tsType = tsIpv4AddrRange ∨ ts.tsType = tsIpv6AddrRange
  startPort : ts.startPort.length = 2
  endPort : ts.endPort.length = 2
  startAddr : ts.startAddr.length = addrSize ts.tsType
  endAddr : ts.endAddr.length = addrSize ts.tsType

/-- What is read for a selector. -/
def Ts.turned (ts : Ts) : Ts :=
  { ts with startPort := ts.startPort.reverse, endPort := ts.endPort.reverse }

/-- Ports whose two bytes are the same. -/
def Ts.PortsKept (ts : Ts) : Prop :=
  ts.startPort.reverse = ts.startPort ∧ ts.endPort.reverse = ts.endPort

variable {ts : List Ts} {ikep rest : List Byte} {p : Nat}

variable {c : PayloadChain} {type : Byte}

theorem tsPayload_eq :
    ∃ len, tsPayload c ts type =
      0 :: 0 :: (bytesOf 2 len ++ ([BitVec.ofNat 8 ts.length, 0, 0, 0] ++ ts.flatMap tsEntryBytes)) := by
  have hhdr : LastHolds { payloadAddHdr c type 8 with
      data := (payloadAddHdr c type 8).data.set ((payloadAddHdr c type 8).lastHdrOff + 4)
        (BitVec.ofNat 8 ts.length) } (c.data.set c.lastHdrOff type) [BitVec.ofNat 8 ts.length, 0, 0, 0] := by
    refine ⟨(length_set ..).symm, ?_⟩
    dsimp only [payloadAddHdr]
    rw [set_append_right _ _ (by rw [length_set]; omega), length_set, Nat.add_sub_cancel_left, append_assoc]
    rfl
  exact ⟨_, (payloadAddData_holds hhdr _).drop⟩

theorem parseSelectors_eq (h : ikep.drop (8 + p) = ts.flatMap tsEntryBytes ++ rest)
    (hts : ∀ t ∈ ts, t.IsRange) : parseSelectors ikep ts.length p = .ok (some (ts.map Ts.turned)) := by
  induction ts generalizing p with
  | nil => rfl
  | cons t ts ih =>
    obtain ⟨htype, hsp, hep, hsa, hea⟩ := hts t mem_cons_self
    obtain ⟨type, proto, sp, ep, sa, ea⟩ := t
    obtain ⟨a, b, rfl⟩ := length_eq_two.mp hsp
    obtain ⟨c, d, rfl⟩ := length_eq_two.mp hep
    dsimp only at htype hsa hea
    have hhead : slice ikep (8 + p) 8 =
        [type, proto] ++ bytesOf 2 (8 + 2 * addrSize type) ++ [b, a, d, c] := by
      rw [slice, h]
      rfl
    have haddr : ikep.drop (8 + p + 8) = sa ++ (ea ++ (ts.flatMap tsEntryBytes ++ rest)) := by
      rw [← drop_drop, h]
      simp only [flatMap_cons, tsEntryBytes, append_assoc]
      rfl
    have hlen := congrArg List.length haddr
    simp only [length_drop, length_append, hsa, hea] at hlen
    have hroom : p + 8 < ikep.length - 8 := by
      have : 4 ≤ addrSize type := by unfold addrSize; split <;> decide
      omega
    have hstart : slice ikep (8 + p + 8) (addrSize type) = sa := by rw [slice, haddr, take_left' hsa]
    have hend : slice ikep (8 + p + 8 + addrSize type) (addrSize type) = ea := by
      rw [slice, ← drop_drop, haddr, drop_left' hsa, take_left' hea]
    have hrest : parseSelectors ikep ts.length (p + 8 + 2 * addrSize type) =
        .ok (some (ts.map Ts.turned)) := by
      refine ih ?_ fun t ht => hts t (mem_cons_of_mem _ ht)
      rw [show 8 + (p + 8 + 2 * addrSize type) = 8 + p + 8 + (addrSize type + addrSize type) by omega,
        ← drop_drop, haddr, ← append_assoc, drop_left' (by rw [length_append, hsa, hea])]
    rw [length_cons, parseSelectors, if_pos hroom, read_ok (by omega), ok_bind, hhead]
    change (if type ≠ _ ∧ type ≠ _ then _ else _) = _
    rw [if_neg (by tauto)]
    change (read ikep (8 + p + 8) (addrSize type) >>= _) = _
    rw [read_ok (by omega), ok_bind, hstart]
    change (read ikep (8 + p + 8 + addrSize type) (addrSize type) >>= _) = _
    rw [read_ok (by omega), ok_bind, hend]
    change (parseSelectors ikep ts.length (p + 8 + 2 * addrSize type) >>= _) = _
    rw [hrest]
    rfl

theorem parseTsPayload_tsPayload (hts : ∀ t ∈ ts, t.IsRange) (hlen : ts.length ≤ 255) :
    parseTsPayload (tsPayload c ts type ++ rest) = .ok (ts.map Ts.turned) := by
  obtain ⟨len, hpayload⟩ := tsPayload_eq
  have hnum : slice (tsPayload c ts type ++ rest) 4 1 = [BitVec.ofNat 8 ts.length] := by
    rw [hpayload]
    rfl
  have hroom : 8 ≤ (tsPayload c ts type ++ rest).length := by
    rw [hpayload]
    simp
    omega
  have hdrop : (tsPayload c ts type ++ rest).drop (8 + 0) = ts.flatMap tsEntryBytes ++ rest := by
    rw [hpayload]
    rfl
  have hbyte : (byteAt [BitVec.ofNat 8 ts.length] 0).toNat = ts.length := by
    exact Nat.mod_eq_of_lt (by omega)
  rw [parseTsPayload, if_neg (by omega), read_ok (by omega), ok_bind, hnum, hbyte,
    parseSelectors_eq hdrop hts]
  rfl

/-- **The round trip.** Selectors are read back as sent exactly if their ports are kept. -/
theorem ts_payload_round_trip_iff (c : PayloadChain) (type : Byte) (rest : List Byte)
    (hts : ∀ t ∈ ts, t.IsRange) (hlen : ts.length ≤ 255) :
    (∃ r, parseTsPayload (tsPayload c ts type ++ rest) = .ok r ∧ r = ts ∧
      Forall₂ (fun sent got => tsCmp sent got = true) ts r) ↔ ∀ t ∈ ts, t.PortsKept := by
  have hmap : ts.map Ts.turned = ts ↔ ∀ t ∈ ts, t.PortsKept := by
    conv_lhs => rhs; rw [← map_id ts]
    rw [map_inj_left]
    refine forall₂_congr fun t _ => ?_
    cases t
    simp [Ts.turned, Ts.PortsKept]
  rw [parseTsPayload_tsPayload hts hlen, ← hmap]
  refine ⟨fun ⟨r, hr, heq, _⟩ => (Except.ok.inj hr).trans heq, fun h => ⟨_, rfl, h, ?_⟩⟩
  rw [h]
  exact forall₂_same.mpr fun t _ => by simp [tsCmp]

/-- All TCP traffic to and from the ports between the given ones, of any IPv4 address. -/
def tcpRange (startPort endPort : List Byte) : Ts :=
  ⟨tsIpv4AddrRange, 6, startPort, endPort, [0, 0, 0, 0], [255, 255, 255, 255]⟩

/-- All traffic of any IPv4 address over TCP, and of one IPv6 address. -/
def allPorts : List Ts :=
  [tcpRange [0, 0] [255, 255],
    ⟨tsIpv6AddrRange, 0, [0, 0], [255, 255], replicate 16 1, replicate 16 1⟩]

theorem all_ports_read_back :
    ∃ r, parseTsPayload (tsPayload ⟨0, [], 0⟩ allPorts 44 ++ []) = .ok r ∧ r = allPorts ∧
      Forall₂ (fun sent got => tsCmp sent got = true) allPorts r := by
  refine (ts_payload_round_trip_iff ⟨0, [], 0⟩ 44 [] (fun t ht => ?_) (by decide)).mpr fun t ht => ?_
  all_goals rcases mem_pair.mp ht with rfl | rfl
  · exact ⟨.inl rfl, rfl, rfl, rfl, rfl⟩
  · exact ⟨.inr rfl, rfl, rfl, rfl, rfl⟩
  · exact ⟨rfl, rfl⟩
  · exact ⟨rfl, rfl⟩

/-- Port 80 comes back as port 20480. -/
theorem port_turned :
    parseTsPayload (tsPayload ⟨0, [], 0⟩ [tcpRange [80, 0] [80, 0]] 44) = .ok [tcpRange [0, 80] [0, 80]] ∧
      tsCmp (tcpRange [80, 0] [80, 0]) (tcpRange [0, 80] [0, 80]) = false := by
  decide

end Vpp.Ikev2
