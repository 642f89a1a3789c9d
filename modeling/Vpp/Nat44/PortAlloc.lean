import Vpp.Bihash.Bucket
import Vpp.Lib.ByteOrder

/-!
# Port allocation of endpoint-dependent NAT44

`nat_ed_alloc_addr_and_port_with_snat_address` gives a new session an outside port of the thread that
serves it: the port that the caller suggests, if it is one of them, and then ports picked at random,
ten in all. Each is written into the session's key and tried. `flow_hash` is the map that the bihash
keeps; static mappings are in it too, under keys without a source.
-/

namespace Vpp.Nat44

open Lib BitVec Function

structure Nat6t where
  saddr : BitVec 32
  daddr : BitVec 32
  sport : BitVec 16
  dport : BitVec 16
  fibIndex : BitVec 24
  proto : BitVec 8
deriving DecidableEq

structure SnatSession where
  o2iMatch : Nat6t
  /-- `SNAT_SESSION_FLAG_STATIC_MAPPING` -/
  staticMapping : Bool
  /-- `s - tsm->sessions` -/
  index : BitVec 32

/-- The thread and the session of a key. -/
abbrev Flows := Nat6t → Option (BitVec 32 × BitVec 32)

structure SnatMain where
  flowHash : Flows
  randomSeed : BitVec 32

/-- One of the workers that `snat_set_workers` divides the ports above 1024 among. -/
structure ThreadPorts where
  workers : Nat
  le : workers ≤ 65536 - 1024
  snatThreadIndex : Fin workers

/-! ## The code -/

def randomU32 (seed : BitVec 32) : BitVec 32 := 1664525#32 * seed + 1013904223#32

def snatRandomPort (seed : BitVec 32) (min max : BitVec 16) : BitVec 16 × BitVec 32 :=
  let rwide := randomU32 seed
  let r := rwide.setWidth 16
  if min ≤ r ∧ r ≤ max then (r, rwide)
  else ((min.setWidth 32 + rwide % (max.setWidth 32 - min.setWidth 32 + 1#32)).setWidth 16, rwide)

namespace ThreadPorts

variable (p : ThreadPorts) (seed : BitVec 32)

def portPerThread : BitVec 16 := .ofNat 16 ((65536 - 1024) / p.workers)

def portThreadOffset : BitVec 16 :=
  (p.portPerThread.setWidth 32 * .ofNat 32 p.snatThreadIndex + 1024#32).setWidth 16

def randomPort : BitVec 16 × BitVec 32 :=
  let r := snatRandomPort seed 0#16 (p.portPerThread - 1#16)
  (p.portThreadOffset + r.1, r.2)

def firstPort (outsidePort : BitVec 16) : BitVec 16 × BitVec 32 :=
  let port := swapBytes outsidePort
  if port.toNat < p.portThreadOffset.toNat ∨
      p.portThreadOffset.toNat + p.portPerThread.toNat ≤ port.toNat then p.randomPort seed
  else (port, seed)

end ThreadPorts

/-- Another session has the key, or a static mapping has the outside address and port. -/
def Taken (flows : Flows) (s : SnatSession) : Prop :=
  let m := s.o2iMatch
  (s.staticMapping = false ∧ (flows ⟨0, m.daddr, 0, m.dport, 0, m.proto⟩).isSome = true) ∨
    (flows m).isSome = true

instance (flows : Flows) (s : SnatSession) : Decidable (Taken flows s) :=
  inferInstanceAs (Decidable (_ ∨ _))

/-- `nat_ed_ses_o2i_flow_hash_add_del` with 2 for `is_add`, which does not overwrite. -/
def natEdSesO2iFlowHashAdd (flows : Flows) (threadIdx : BitVec 32) (s : SnatSession) : Option Flows :=
  if Taken flows s then none
  else some (Bihash.applyOp flows (s.o2iMatch, threadIdx, s.index) 2)

/-- The port in the key. `IP_PROTOCOL_ICMP` has its identifier in both places. -/
def setPort (proto : BitVec 8) (port : BitVec 16) (s : SnatSession) : SnatSession :=
  { s with o2iMatch :=
      { s.o2iMatch with
        sport := if proto = 1#8 then swapBytes port else s.o2iMatch.sport
        dport := swapBytes port } }

structure Search where
  sm : SnatMain
  s : SnatSession
  /-- the port that was free, or `none` for the return value 1 -/
  port : Option (BitVec 16)
  tried : List (BitVec 16)

def tryPorts (p : ThreadPorts) (proto : BitVec 8) (threadIndex : BitVec 32) :
    (attempts : Nat) → SnatMain → SnatSession → BitVec 16 → Search
  | 0, sm, s, _ => ⟨sm, s, none, []⟩
  | attempts + 1, sm, s, port =>
    let s := setPort proto port s
    match natEdSesO2iFlowHashAdd sm.flowHash threadIndex s with
    | some flows => ⟨{ sm with flowHash := flows }, s, some port, [port]⟩
    | none =>
      let next := p.randomPort sm.randomSeed
      let r := tryPorts p proto threadIndex attempts { sm with randomSeed := next.2 } s next.1
      { r with tried := port :: r.tried }

/-- The result's `port` goes to `outside_port`, with `a->addr` in `outside_addr`. -/
def natEdAllocAddrAndPortWithSnatAddress (sm : SnatMain) (proto : BitVec 8) (threadIndex addr : BitVec 32)
    (p : ThreadPorts) (s : SnatSession) (outsidePort : BitVec 16) : Search :=
  let first := p.firstPort sm.randomSeed outsidePort
  let r := tryPorts p proto threadIndex 10 { sm with randomSeed := first.2 }
    { s with o2iMatch := { s.o2iMatch with daddr := addr } } first.1
  match r.port with
  | some _ => r
  | none => { r with s := { r.s with o2iMatch := s.o2iMatch } }

/-! ## The candidates -/

namespace ThreadPorts

variable (p : ThreadPorts) (seed : BitVec 32)

def Holds (port : BitVec 16) : Prop :=
  1024 + p.portPerThread.toNat * p.snatThreadIndex ≤ port.toNat ∧
    port.toNat < 1024 + p.portPerThread.toNat * (p.snatThreadIndex + 1)

theorem portPerThread_bounds : 0 < p.portPerThread.toNat ∧
    1024 + p.portPerThread.toNat * (p.snatThreadIndex + 1) ≤ 2 ^ 16 := by
  have hlt : (65536 - 1024) / p.workers < 2 ^ 16 := (Nat.div_le_self _ _).trans_lt (by decide)
  rw [portPerThread, toNat_ofNat, Nat.mod_eq_of_lt hlt]
  have hle : (65536 - 1024) / p.workers * (p.snatThreadIndex + 1) ≤ _ :=
    Nat.mul_le_mul_left _ p.snatThreadIndex.isLt
  have hall := Nat.div_mul_le_self (65536 - 1024) p.workers
  exact ⟨Nat.div_pos p.le p.snatThreadIndex.pos, by omega⟩

theorem toNat_portThreadOffset :
    p.portThreadOffset.toNat = 1024 + p.portPerThread.toNat * p.snatThreadIndex := by
  obtain ⟨hpos, h⟩ := p.portPerThread_bounds
  rw [Nat.mul_add_one] at h
  rw [portThreadOffset, toNat_setWidth, toNat_add, toNat_mul, toNat_setWidth, toNat_ofNat, toNat_ofNat]
  simp only [Nat.mod_mul_mod, Nat.mul_mod_mod]
  omega

theorem holds_iff {port : BitVec 16} : p.Holds port ↔ p.portThreadOffset.toNat ≤ port.toNat ∧
    port.toNat < p.portThreadOffset.toNat + p.portPerThread.toNat := by
  rw [Holds, toNat_portThreadOffset, Nat.mul_add_one, Nat.add_assoc]

theorem snatRandomPort_lt {n : BitVec 16} (hn : 0 < n.toNat) :
    (snatRandomPort seed 0#16 (n - 1#16)).1.toNat < n.toNat := by
  have hlast : (n - 1#16).toNat + 1 = n.toNat := by bv_omega
  rw [snatRandomPort]
  split
  next h =>
    have hle : (setWidth 16 (randomU32 seed)).toNat ≤ (n - 1#16).toNat := h.2
    exact (Nat.lt_succ_of_le hle).trans_eq hlast
  next =>
    -- the divisor is the number of ports
    have hdiv : ((n - 1#16).setWidth 32 - (0#16).setWidth 32 + 1#32).toNat = n.toNat := by
      bv_omega
    have hmod := Nat.mod_lt (randomU32 seed).toNat hn
    rw [toNat_setWidth, toNat_add, toNat_umod, hdiv, toNat_setWidth, toNat_ofNat]
    omega

theorem holds_randomPort : p.Holds (p.randomPort seed).1 := by
  obtain ⟨hpos, h⟩ := p.portPerThread_bounds
  have hlt := snatRandomPort_lt seed hpos
  rw [Nat.mul_add_one, ← Nat.add_assoc, ← toNat_portThreadOffset] at h
  rw [holds_iff, randomPort, toNat_add]
  omega

theorem holds_firstPort (outsidePort : BitVec 16) : p.Holds (p.firstPort seed outsidePort).1 := by
  rw [firstPort]
  split
  next => exact p.holds_randomPort seed
  next h =>
    rw [holds_iff]
    exact ⟨not_lt.mp fun hlt => h (.inl hlt), not_le.mp fun hle => h (.inr hle)⟩

end ThreadPorts

/-! ## The search -/

variable {p : ThreadPorts} (proto : BitVec 8) (threadIndex : BitVec 32) {s : SnatSession} {port : BitVec 16}

theorem flowHashAdd_of_free {flows : Flows} (h : ¬Taken flows s) : flows s.o2iMatch = none ∧
    natEdSesO2iFlowHashAdd flows threadIndex s =
      some (update flows s.o2iMatch (some (threadIndex, s.index))) := by
  have hnone : flows s.o2iMatch = none := Option.not_isSome_iff_eq_none.mp fun hs => h (.inr hs)
  refine ⟨hnone, (if_neg h).trans ?_⟩
  simp [Bihash.applyOp, hnone]

theorem setPort_setPort (other : BitVec 16) :
    setPort proto port (setPort proto other s) = setPort proto port s := by
  unfold setPort
  split <;> rfl

/-- A search that finds a port has one of the thread and enters the session under its key, which was free; one
that finds none has met taken ports only, and leaves the table. -/
structure AllOrNothing (p : ThreadPorts) (proto : BitVec 8) (threadIndex : BitVec 32) (flows : Flows)
    (s : SnatSession) (attempts : Nat) (r : Search) : Prop where
  success : ∀ port, r.port = some port → p.Holds port ∧ r.s = setPort proto port s ∧
    flows r.s.o2iMatch = none ∧ r.sm.flowHash = update flows r.s.o2iMatch (some (threadIndex, s.index))
  failure : r.port = none → r.tried.length = attempts ∧
    (∀ port ∈ r.tried, p.Holds port ∧ Taken flows (setPort proto port s)) ∧ r.sm.flowHash = flows

theorem allOrNothing_tryPorts (flows : Flows) (attempts : Nat) (seed : BitVec 32) (hport : p.Holds port) :
    AllOrNothing p proto threadIndex flows s attempts
      (tryPorts p proto threadIndex attempts ⟨flows, seed⟩ s port) := by
  induction attempts generalizing seed s port with
  | zero => exact ⟨nofun, fun _ => ⟨rfl, nofun, rfl⟩⟩
  | succ attempts ih =>
    rw [tryPorts]
    by_cases htaken : Taken flows (setPort proto port s)
    · rw [natEdSesO2iFlowHashAdd, if_pos htaken]
      -- the rest overwrites the port in the key
      obtain ⟨hfound, hnone⟩ :=
        ih (s := setPort proto port s) (p.randomPort seed).2 (p.holds_randomPort seed)
      simp only [setPort_setPort] at hfound hnone
      refine ⟨hfound, fun h => ?_⟩
      obtain ⟨hall, hrest, hsame⟩ := hnone h
      exact ⟨congrArg (· + 1) hall, List.forall_mem_cons.mpr ⟨⟨hport, htaken⟩, hrest⟩, hsame⟩
    · obtain ⟨hfree, hadd⟩ := flowHashAdd_of_free threadIndex htaken
      rw [hadd]
      refine ⟨?_, nofun⟩
      rintro _ ⟨⟩
      exact ⟨hport, rfl, hfree, rfl⟩

end Vpp.Nat44
