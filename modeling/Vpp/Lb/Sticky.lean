import Vpp.Lb.Hash
import Vpp.Lib.Run

/-!
# A flow keeps its server

The load balancer looks a packet's flow up and enters it with a new server if it is not found. With SSE,
while the timeouts that are met are in order, a flow that was entered and comes again before its timeout
passes keeps its server, whatever packets of other flows come in between.
-/

namespace Vpp.Lb

open Lib
open Function (update_self update_of_ne)

/-- A packet of a flow: the value of the clock (in seconds, not yet cut to 32 bits) and the server the
new flow table has for it. -/
structure Packet where
  hash : U32
  vip : U32
  time : Nat
  newServer : U32
deriving DecidableEq, Repr

def Packet.lbTime (p : Packet) : U32 := BitVec.ofNat 32 p.time

/-- What `lb_node_fn` does with the table, and the server of the packet. -/
def lbNodeFn (v : Variant) (ht : LbHash) (p : Packet) : LbHash × U32 :=
  let (ht, availableIndex, asindex) := lbHashGet v ht p.hash p.vip p.lbTime
  if asindex ≠ 0 then (ht, asindex)
  else
    match availableIndex with
    | some i => (lbHashPut ht p.hash p.newServer p.vip i p.lbTime, p.newServer)
    | none => (ht, p.newServer)

/-! ## What a packet does to the entries of a flow -/

section Step

variable {ht : LbHash} {b b' : Bucket} {hash vip now : U32} {v : Variant} {p : Packet} {i : Fin 4}

theorem LbHash.bucket_setBucket (ht : LbHash) (hash hash' : U32) :
    (ht.setBucket hash b).bucket hash' =
      if hash' &&& ht.bucketsMask = hash &&& ht.bucketsMask then b else ht.bucket hash' := by
  unfold LbHash.bucket setBucket
  simp only [Function.update_apply]

theorem LbHash.setBucket_setBucket (ht : LbHash) (hash : U32) :
    (ht.setBucket hash b).setBucket hash b' = ht.setBucket hash b' := by
  unfold setBucket
  simp only [Function.update_idem]

def Packet.got (p : Packet) (v : Variant) (ht : LbHash) : Got :=
  v.get ht.timeout (ht.bucket p.hash) p.hash p.vip p.lbTime

theorem lbNodeFn_eq : lbNodeFn v ht p =
    if (p.got v ht).foundValue ≠ 0 then
      (ht.setBucket p.hash (p.got v ht).bucket, (p.got v ht).foundValue) else
      match (p.got v ht).availableIndex with
      | some i =>
        (ht.setBucket p.hash ((p.got v ht).bucket.put i p.hash p.newServer p.vip
          (p.lbTime + ht.timeout)), p.newServer)
      | none => (ht.setBucket p.hash (p.got v ht).bucket, p.newServer) := by
  simp only [lbNodeFn, lbHashGet, lbHashPut, LbHash.bucket_setBucket, LbHash.setBucket_setBucket]
  rfl

/-- From `b` to `b'`, the flow loses no entry whose timeout has not passed, and gets none. -/
structure Kept (hash vip now : U32) (b b' : Bucket) : Prop where
  keep : ∀ i, b.Matches hash vip i → ¬ Passed now (b.timeout i) →
    b'.Matches hash vip i ∧ b'.value i = b.value i ∧ b'.timeout i = b.timeout i
  old : ∀ i, b'.Matches hash vip i →
    b.Matches hash vip i ∧ b'.value i = b.value i ∧ b'.timeout i = b.timeout i

theorem Kept.refl (b : Bucket) : Kept hash vip now b b :=
  ⟨fun _ hm _ => ⟨hm, rfl, rfl⟩, fun _ hm => ⟨hm, rfl, rfl⟩⟩

theorem Kept.setTimeout (hi : ¬ b.Matches hash vip i) (t : U32) :
    Kept hash vip now b (b.setTimeout i t) := by
  have hsame : ∀ j, b.Matches hash vip j → (b.setTimeout i t).timeout j = b.timeout j := by
    intro j hj
    have hne : j ≠ i := fun heq => hi (heq ▸ hj)
    simp only [Bucket.setTimeout, update_of_ne hne]
  exact ⟨fun j hm _ => ⟨hm, rfl, hsame j hm⟩, fun j hm => ⟨hm, rfl, hsame j hm⟩⟩

theorem Kept.put (h : Kept hash vip now b b') (hi : Passed now (b.timeout i)) {hash' vip' : U32}
    (hne : ¬ (hash' = hash ∧ vip' = vip)) (value t : U32) :
    Kept hash vip now b (b'.put i hash' value vip' t) := by
  constructor
  · intro j hm hp
    have hj : j ≠ i := fun heq => hp (heq ▸ hi)
    simpa only [Bucket.put, Bucket.Matches, update_of_ne hj] using h.keep j hm hp
  intro j hm
  by_cases hj : j = i
  · subst hj
    simp only [Bucket.put, Bucket.Matches, update_self] at hm
    exact absurd hm hne
  · simp only [Bucket.put, Bucket.Matches, update_of_ne hj] at hm ⊢
    exact h.old j hm

/-- **A packet of another flow** leaves the flow its entries. -/
theorem kept_of_other (hne : ¬ (p.hash = hash ∧ p.vip = vip))
    (hright : Right ht.timeout (ht.bucket p.hash) p.hash p.vip p.lbTime (p.got v ht)) :
    Kept hash vip p.lbTime (ht.bucket hash) ((lbNodeFn v ht p).1.bucket hash) := by
  have hgot : Kept hash vip p.lbTime (ht.bucket p.hash) (p.got v ht).bucket := by
    rcases hright.found with ⟨i, hm, -, -, hb⟩ | ⟨-, -, hb⟩
    · rw [hb]
      refine Kept.setTimeout (fun hm' => hne ⟨?_, ?_⟩) _
      · rw [← hm.1, hm'.1]
      · rw [← hm.2, hm'.2]
    · rw [hb]
      exact .refl _
  have hset : ∀ b', Kept hash vip p.lbTime (ht.bucket p.hash) b' →
      Kept hash vip p.lbTime (ht.bucket hash) ((ht.setBucket p.hash b').bucket hash) := by
    intro b' hb'
    rw [LbHash.bucket_setBucket]
    split
    · rename_i heq
      rw [show ht.bucket hash = ht.bucket p.hash by unfold LbHash.bucket; rw [heq]]
      exact hb'
    · exact .refl _
  rw [lbNodeFn_eq]
  split
  · exact hset _ hgot
  split
  · rename_i i hi
    refine hset _ (hgot.put ?_ hne _ _)
    rcases hright.available with ⟨j, hj, hp⟩ | ⟨hnone, -⟩
    · rw [hi] at hj
      rw [Option.some.inj hj]
      exact hp
    · rw [hi] at hnone
      cases hnone
  · exact hset _ hgot

theorem lbNodeFn_timeout : (lbNodeFn v ht p).1.timeout = ht.timeout := by
  rw [lbNodeFn_eq]
  split
  · rfl
  · split <;> rfl

end Step

/-! ## Time -/

theorem not_passed_of_lt {t u : Nat} (h : t < u) (hle : u - t ≤ 2 ^ 31) :
    ¬ Passed (BitVec.ofNat 32 t) (BitVec.ofNat 32 u) := by
  unfold Passed
  rw [BitVec.toNat_sub, BitVec.toNat_ofNat, BitVec.toNat_ofNat]
  omega

theorem passed_later {t u : Nat} {x : U32} (hle : t ≤ u)
    (hwithin : (BitVec.ofNat 32 t - x).toNat + (u - t) < 2 ^ 31) : Passed (BitVec.ofNat 32 u) x := by
  unfold Passed
  rw [BitVec.toNat_sub, BitVec.toNat_ofNat] at hwithin ⊢
  omega

/-! ## Runs -/

/-- The table, the clock, and when the flow was last looked up. -/
structure Watched where
  ht : LbHash
  clock : Nat
  last : Nat

/-- A packet, while the flow `(hash, vip)` is watched, with SSE. -/
def Watched.step (hash vip : U32) (s : Watched) (p : Packet) : Watched × (Packet × U32) :=
  let (ht, asindex) := lbNodeFn .sse s.ht p
  (⟨ht, p.time, if p.hash = hash ∧ p.vip = vip then p.time else s.last⟩, (p, asindex))

/-- The clock does not run back and the stored timeouts stay within half round of it, those of the packet's
bucket are in order, and the flow comes before its timeout. -/
structure InTime (hash vip : U32) (s : Watched) (p : Packet) : Prop where
  clock : s.clock ≤ p.time
  within : ∀ h i, Passed (BitVec.ofNat 32 s.clock) ((s.ht.bucket h).timeout i) →
    (BitVec.ofNat 32 s.clock - (s.ht.bucket h).timeout i).toNat + (p.time - s.clock) < 2 ^ 31
  ordered : ∀ i, Ordered p.lbTime ((s.ht.bucket p.hash).timeout i)
  lookup : p.hash = hash ∧ p.vip = vip → p.time < s.last + s.ht.timeout.toNat

/-- The flow has an entry with its server that is due a timeout after the last lookup, and no other
server. -/
structure Stuck (hash vip server timeout : U32) (s : Watched) : Prop where
  timeout_eq : s.ht.timeout = timeout
  last_le : s.last ≤ s.clock
  entry : s.clock < s.last + timeout.toNat → ∃ i, (s.ht.bucket hash).Matches hash vip i ∧
    (s.ht.bucket hash).value i = server ∧
    (s.ht.bucket hash).timeout i = BitVec.ofNat 32 (s.last + timeout.toNat)
  only : s.clock < s.last + timeout.toNat → ∀ i, (s.ht.bucket hash).Matches hash vip i →
    ¬ Passed (BitVec.ofNat 32 s.clock) ((s.ht.bucket hash).timeout i) →
    (s.ht.bucket hash).value i = server

section Run

variable {hash vip server timeout : U32} {s : Watched} {p : Packet}

section

variable (h : Stuck hash vip server timeout s)
include h

theorem Stuck.step_other (hok : InTime hash vip s p) (h1 : timeout.toNat < 2 ^ 31)
    (hne : ¬ (p.hash = hash ∧ p.vip = vip)) :
    Stuck hash vip server timeout (s.step hash vip p).1 := by
  have hkept := kept_of_other (v := .sse) hne (sse_right hok.ordered)
  have hclock := hok.clock
  refine ⟨lbNodeFn_timeout.trans h.timeout_eq, ?_, ?_, ?_⟩
  · simp only [Watched.step, if_neg hne]
    exact h.last_le.trans hok.clock
  · simp only [Watched.step, if_neg hne]
    intro hlt
    obtain ⟨i, hm, hv, ht⟩ := h.entry (by omega)
    have hp : ¬ Passed p.lbTime ((s.ht.bucket hash).timeout i) := by
      rw [ht]
      exact not_passed_of_lt hlt (by have := h.last_le; omega)
    obtain ⟨hm', hv', ht'⟩ := hkept.keep i hm hp
    exact ⟨i, hm', hv'.trans hv, ht'.trans ht⟩
  · simp only [Watched.step, if_neg hne]
    intro hlt i hm hp
    obtain ⟨hm', hv', ht'⟩ := hkept.old i hm
    rw [hv']
    rw [ht'] at hp
    exact h.only (by omega) i hm' fun hpast =>
      hp (passed_later hok.clock (hok.within hash i hpast))

/-- **The flow itself** gets its server, and is refreshed. -/
theorem Stuck.step_flow (hok : InTime hash vip s p) (h1 : timeout.toNat < 2 ^ 31) (hserver : server ≠ 0)
    (hflow : p.hash = hash ∧ p.vip = vip) :
    Stuck hash vip server timeout (s.step hash vip p).1 ∧ (lbNodeFn .sse s.ht p).2 = server := by
  obtain ⟨rfl, rfl⟩ := hflow
  have hright : Right s.ht.timeout (s.ht.bucket p.hash) p.hash p.vip p.lbTime (p.got .sse s.ht) :=
    sse_right hok.ordered
  have hclock := hok.clock
  have hlookup := hok.lookup ⟨rfl, rfl⟩
  rw [h.timeout_eq] at hlookup
  have honly : ∀ i, (s.ht.bucket p.hash).Matches p.hash p.vip i →
      ¬ Passed p.lbTime ((s.ht.bucket p.hash).timeout i) → (s.ht.bucket p.hash).value i = server :=
    fun i hm hp => h.only (by omega) i hm fun hpast =>
      hp (passed_later hok.clock (hok.within p.hash i hpast))
  obtain ⟨i, hm, hv, ht⟩ := h.entry (by omega)
  have hp : ¬ Passed p.lbTime ((s.ht.bucket p.hash).timeout i) := by
    rw [ht]
    exact not_passed_of_lt hlookup (by have := h.last_le; omega)
  rcases hright.found with ⟨j, hmj, hpj, hvj, hbj⟩ | ⟨hall, -, -⟩
  · have hfound : (p.got .sse s.ht).foundValue = server := hvj.trans (honly j hmj hpj)
    have hnode : lbNodeFn .sse s.ht p =
        (s.ht.setBucket p.hash ((s.ht.bucket p.hash).setTimeout j (p.lbTime + s.ht.timeout)), server) := by
      rw [lbNodeFn_eq, if_pos (hfound ▸ hserver), hfound]
      exact congrArg (fun b => (s.ht.setBucket p.hash b, server)) hbj
    refine ⟨⟨lbNodeFn_timeout.trans h.timeout_eq, ?_, ?_, ?_⟩, by rw [hnode]⟩
    · simp only [Watched.step, and_self, if_true, le_refl]
    · simp only [Watched.step, hnode, LbHash.bucket_setBucket, if_true, and_self]
      refine fun _ => ⟨j, hmj, honly j hmj hpj, ?_⟩
      simp only [Bucket.setTimeout, update_self, h.timeout_eq, Packet.lbTime]
      rw [BitVec.ofNat_add, BitVec.ofNat_toNat, BitVec.setWidth_eq]
    · simp only [Watched.step, hnode, LbHash.bucket_setBucket, if_true]
      intro _ k hmk hpk
      by_cases hkj : k = j
      · rw [hkj]
        exact honly j hmj hpj
      · refine honly k hmk ?_
        simpa only [Bucket.setTimeout, update_of_ne hkj, Packet.lbTime] using hpk
  · exact absurd (hall i hm) hp

theorem Stuck.step (hok : InTime hash vip s p) (h1 : timeout.toNat < 2 ^ 31) (hserver : server ≠ 0) :
    Stuck hash vip server timeout (s.step hash vip p).1 ∧
      ((s.step hash vip p).2.1.hash = hash ∧ (s.step hash vip p).2.1.vip = vip →
        (s.step hash vip p).2.2 = server) := by
  by_cases hflow : p.hash = hash ∧ p.vip = vip
  · obtain ⟨hstuck, hgot⟩ := h.step_flow hok h1 hserver hflow
    exact ⟨hstuck, fun _ => hgot⟩
  · exact ⟨h.step_other hok h1 hflow, fun hf => absurd hf hflow⟩

end

theorem stuck_of_put {ht : LbHash} (hordered : ∀ i, Ordered p.lbTime ((ht.bucket p.hash).timeout i))
    (hnew : ∀ i, (ht.bucket p.hash).Matches p.hash p.vip i →
      Passed p.lbTime ((ht.bucket p.hash).timeout i))
    (hfree : ∃ i, Passed p.lbTime ((ht.bucket p.hash).timeout i)) :
    Stuck p.hash p.vip p.newServer ht.timeout ⟨(lbNodeFn .sse ht p).1, p.time, p.time⟩ := by
  have hright : Right ht.timeout (ht.bucket p.hash) p.hash p.vip p.lbTime (p.got .sse ht) :=
    sse_right hordered
  have hnode : ∃ i, (lbNodeFn .sse ht p).1 = ht.setBucket p.hash
      ((ht.bucket p.hash).put i p.hash p.newServer p.vip (p.lbTime + ht.timeout)) := by
    rcases hright.found with ⟨i, hm, hp, -, -⟩ | ⟨-, hv, hb⟩
    · exact absurd (hnew i hm) hp
    rcases hright.available with ⟨i, hi, -⟩ | ⟨-, hall⟩
    · have hv : (p.got .sse ht).foundValue = 0 := hv
      have hb : (p.got .sse ht).bucket = ht.bucket p.hash := hb
      have hi : (p.got .sse ht).availableIndex = some i := hi
      refine ⟨i, ?_⟩
      rw [lbNodeFn_eq, if_neg (by simp [hv]), hi, hb]
    · obtain ⟨i, hi⟩ := hfree
      exact absurd hi (hall i)
  obtain ⟨i, hnode⟩ := hnode
  refine ⟨lbNodeFn_timeout, le_refl _, fun _ => ⟨i, ?_⟩, fun _ j hm hp => ?_⟩
  · simp only [hnode, LbHash.bucket_setBucket, if_true, Bucket.Matches, Bucket.put,
      update_self, true_and]
    rw [BitVec.ofNat_add, BitVec.ofNat_toNat]
    rfl
  · simp only [hnode, LbHash.bucket_setBucket, if_true] at hm hp ⊢
    by_cases hji : j = i
    · rw [hji]
      exact update_self ..
    · simp only [Bucket.put, Bucket.Matches, update_of_ne hji] at hm hp
      exact absurd (hnew j hm) hp

end Run

def oneBucket (hash timeout vip value : U32) : LbHash :=
  ⟨0, 40, fun _ => ⟨fun _ => hash, fun _ => timeout, fun _ => vip, fun _ => value⟩⟩

end Vpp.Lb
