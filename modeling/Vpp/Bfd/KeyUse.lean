import Vpp.Bfd.UdpInput
import Vpp.Lib.Bins

/-!
# Authentication keys in use

A key counts the sessions that refer to it, as their current key or as the next one, and is modified and
deleted only if there are none. A delayed activation that replaces another next key does not take back
the count of that key; and sessions that refer to keys are left behind where the pool of keys moves.
-/

namespace Vpp.Bfd

open Lib
open Function (update)

/-- The keys of `bfd_main` and its pool of sessions. The pool of keys starts at `base` of the memory `authKeys`,
and a pointer to a key is its place there. -/
structure Keyring where
  sessions : List (Option Session)
  authKeyByConfKeyId : U32 → Option Nat
  base : Nat
  authKeys : Nat → AuthKey

/-- `pool_elt_at_index`, of the index that the hash has. -/
def Keyring.keyOf (m : Keyring) (confKeyId : U32) : Option Nat :=
  (m.authKeyByConfKeyId confKeyId).map (m.base + ·)

def zeroKey : AuthKey := ⟨0, .replicate 20 0, .reserved⟩

def noKeys : Keyring := ⟨[], fun _ => none, 0, fun _ => zeroKey⟩

inductive ApiError
  | none
  | invalidValue
  | bfdNotsupp
  | bfdEinuse
  | bfdEnoent
deriving DecidableEq

def bfdMaxKeyLenForAuthType : AuthType → Nat
  | .reserved => 0
  | .simplePassword | .keyedMd5 | .meticulousKeyedMd5 => 16
  | .keyedSha1 | .meticulousKeyedSha1 => 20

def bfdAuthTypeSupported (authType : AuthType) : Bool :=
  authType = .keyedSha1 || authType = .meticulousKeyedSha1

/-- A pool of `n` keys that has to grow moves behind where it was; what pointed there still does. -/
def Keyring.move (m : Keyring) (n : Nat) : Keyring :=
  { m with
    base := m.base + n
    authKeys := fun k => m.authKeys (if k < m.base + n then k else k - n) }

/-- `idx` is what `pool_get` returns; it may move the pool. -/
def Keyring.bfdAuthSetKey (m : Keyring) (confKeyId : U32) (authType : AuthType)
    (keyData : List (BitVec 8)) (idx : Nat) (moves : Bool) : Keyring × ApiError :=
  if keyData = [] ∨ bfdMaxKeyLenForAuthType authType < keyData.length then (m, .invalidValue)
  else if ¬ bfdAuthTypeSupported authType then (m, .bfdNotsupp)
  else
    let write (m : Keyring) (k : Nat) := update m.authKeys k
      { m.authKeys k with authType, key := keyData ++ .replicate (20 - keyData.length) 0 }
    match m.keyOf confKeyId with
    | some k =>
      if 0 < (m.authKeys k).useCount then (m, .bfdEinuse) else ({ m with authKeys := write m k }, .none)
    | none =>
      let m := if moves then m.move idx else m
      (⟨m.sessions, update m.authKeyByConfKeyId confKeyId (some idx), m.base, write m (m.base + idx)⟩, .none)

def Keyring.bfdAuthDelKey (m : Keyring) (confKeyId : U32) : Keyring × ApiError :=
  match m.keyOf confKeyId with
  | some k =>
    if 0 < (m.authKeys k).useCount then (m, .bfdEinuse)
    else
      (⟨m.sessions, update m.authKeyByConfKeyId confKeyId none, m.base, update m.authKeys k zeroKey⟩, .none)
  | none => (m, .bfdEnoent)

/-- How many pointers to the key `p` is. -/
def points (k : Nat) (p : Option Nat) : Nat := if p = some k then 1 else 0

def incUseCount (keys : Nat → AuthKey) (p : Option Nat) (k : Nat) : AuthKey :=
  { keys k with useCount := (keys k).useCount + .ofNat 32 (points k p) }

def decUseCount (keys : Nat → AuthKey) (p : Option Nat) (k : Nat) : AuthKey :=
  { keys k with useCount := (keys k).useCount - .ofNat 32 (points k p) }

def bfdPutSession (bs : Session) (keys : Nat → AuthKey) : Option Session × (Nat → AuthKey) :=
  (none, decUseCount (decUseCount keys bs.auth.currKey) bs.auth.nextKey)

/-- From where the key is found. -/
def bfdAuthActivate (key : Option Nat) (bfdKeyId : Nat) (isDelayed : Bool) (bs : Session)
    (keys : Nat → AuthKey) : Option Session × (Nat → AuthKey) :=
  if isDelayed then
    if bs.auth.nextKey = key ∧ bs.auth.nextBfdKeyId = bfdKeyId then (bs, keys)
    else
      (some { bs with auth := { bs.auth with nextKey := key, nextBfdKeyId := bfdKeyId, isDelayed } },
        if bs.auth.nextKey ≠ key then incUseCount keys key else keys)
  else if bs.auth.currKey = key ∧ bs.auth.currBfdKeyId = bfdKeyId then (bs, keys)
  else
    (some { bs with auth := { bs.auth with currKey := key, currBfdKeyId := bfdKeyId, isDelayed } },
      decUseCount (incUseCount keys key) bs.auth.currKey)

def bfdAuthDeactivate (isDelayed : Bool) (bs : Session) (keys : Nat → AuthKey) :
    Option Session × (Nat → AuthKey) :=
  let r := if isDelayed then (bs.auth.currKey, keys) else (none, decUseCount keys bs.auth.currKey)
  (some { bs with auth := { bs.auth with currKey := r.1, nextKey := none, isDelayed } },
    decUseCount r.2 bs.auth.nextKey)

inductive KeyEvent
  | setKey (confKeyId : U32) (authType : AuthType) (keyData : List (BitVec 8)) (idx : Nat) (moves : Bool)
  | delKey (confKeyId : U32)
  | getSession (slot : Nat) (localDiscr : U32) (udpKey : UdpKey)
  | putSession (bsIdx : Nat)
  | activate (bsIdx : Nat) (confKeyId : U32) (bfdKeyId : Nat) (isDelayed : Bool)
  | deactivate (bsIdx : Nat) (isDelayed : Bool)
  | switchToNext (bsIdx : Nat)

def Keyring.onSession (m : Keyring) (bsIdx : Nat)
    (f : Session → (Nat → AuthKey) → Option Session × (Nat → AuthKey)) : Keyring × ApiError :=
  match m.sessions[bsIdx]? with
  | some (some bs) =>
    ({ m with sessions := m.sessions.set bsIdx (f bs m.authKeys).1, authKeys := (f bs m.authKeys).2 }, .none)
  | _ => (m, .bfdEnoent)

def Keyring.step (m : Keyring) : KeyEvent → Keyring × ApiError
  | .setKey confKeyId authType keyData idx moves => m.bfdAuthSetKey confKeyId authType keyData idx moves
  | .delKey confKeyId => m.bfdAuthDelKey confKeyId
  | .getSession slot localDiscr udpKey =>
    let bs := some (bfdGetSession localDiscr udpKey)
    let sessions := if m.sessions[slot]? = some none then m.sessions.set slot bs else m.sessions ++ [bs]
    ({ m with sessions }, .none)
  | .putSession bsIdx => m.onSession bsIdx bfdPutSession
  | .activate bsIdx confKeyId bfdKeyId isDelayed =>
    if m.keyOf confKeyId = none then (m, .bfdEnoent)
    else m.onSession bsIdx (bfdAuthActivate (m.keyOf confKeyId) bfdKeyId isDelayed)
  | .deactivate bsIdx isDelayed => m.onSession bsIdx (bfdAuthDeactivate isDelayed)
  | .switchToNext bsIdx =>
    m.onSession bsIdx fun bs keys => (bfdSessionSwitchAuthToNext bs keys).map some id

/-! ## What is asked -/

def refers (k : Nat) : Option Session → Nat
  | some bs => points k bs.auth.currKey + points k bs.auth.nextKey
  | none => 0

/-- The counts are right, and a key is deleted and modified just if no session refers to it. -/
structure Keyring.Right (m : Keyring) : Prop where
  counts : ∀ k, (m.authKeys k).useCount.toNat = (m.sessions.map (refers k)).sum
  deletes : ∀ confKeyId k, m.keyOf confKeyId = some k →
    ((m.bfdAuthDelKey confKeyId).2 = .none ↔ ∀ s ∈ m.sessions, refers k s = 0)
  modifies : ∀ confKeyId k, m.keyOf confKeyId = some k → ∀ authType keyData idx moves,
    keyData ≠ [] → keyData.length ≤ bfdMaxKeyLenForAuthType authType → bfdAuthTypeSupported authType →
    ((m.bfdAuthSetKey confKeyId authType keyData idx moves).2 = .none ↔ ∀ s ∈ m.sessions, refers k s = 0)

/-- No delayed activation replaces another next key, there are fewer than `2 ^ 31` sessions, and a new key moves
the pool only while no session refers to a key. -/
def KeyEvent.Fits (m : Keyring) : KeyEvent → Prop
  | .activate bsIdx confKeyId _ true => ∀ bs, m.sessions[bsIdx]? = some (some bs) →
    bs.auth.nextKey = none ∨ bs.auth.nextKey = m.keyOf confKeyId
  | .getSession .. => m.sessions.length + 1 < 2 ^ 31
  | .setKey confKeyId _ _ _ true => m.keyOf confKeyId = none → ∀ k, ∀ s ∈ m.sessions, refers k s = 0
  | _ => True

/-! ## Steps -/

structure Keyring.Inv (m : Keyring) : Prop where
  counts : ∀ k, (m.authKeys k).useCount = .ofNat 32 (m.sessions.map (refers k)).sum
  length_lt : m.sessions.length < 2 ^ 31

def Recounts (keys : Nat → AuthKey) (bs : Session) (r : Option Session × (Nat → AuthKey)) : Prop :=
  ∀ k, (r.2 k).useCount + .ofNat 32 (refers k bs) = (keys k).useCount + .ofNat 32 (refers k r.1)

variable {m : Keyring} {bs : Session} {keys : Nat → AuthKey}

theorem put_recounts : Recounts keys bs (bfdPutSession bs keys) := by
  intro k
  simp only [bfdPutSession, decUseCount, refers, BitVec.ofNat_add]
  grind

theorem switch_recounts : Recounts keys bs ((bfdSessionSwitchAuthToNext bs keys).map some id) := by
  intro k
  have hkeys : ((bfdSessionSwitchAuthToNext bs keys).2 k).useCount =
      (decUseCount keys bs.auth.currKey k).useCount := by
    unfold bfdSessionSwitchAuthToNext decUseCount points
    cases bs.auth.currKey <;> grind
  show (((bfdSessionSwitchAuthToNext bs keys).2 k).useCount) + _ = _ + .ofNat 32 (_ + 0)
  rw [hkeys]
  simp only [decUseCount, refers, BitVec.ofNat_add]
  grind

variable {isDelayed : Bool}

theorem deactivate_recounts : Recounts keys bs (bfdAuthDeactivate isDelayed bs keys) := by
  intro k
  cases isDelayed <;> simp [bfdAuthDeactivate, decUseCount, refers, points, BitVec.ofNat_add]

theorem activate_recounts {key : Option Nat} (bfdKeyId : Nat)
    (h : isDelayed = true → bs.auth.nextKey = none ∨ bs.auth.nextKey = key) :
    Recounts keys bs (bfdAuthActivate key bfdKeyId isDelayed bs keys) := by
  intro k
  have hnone : points k none = 0 := rfl
  unfold bfdAuthActivate
  cases isDelayed
  · simp only [Bool.false_eq_true, if_false]
    split
    · rfl
    · simp only [decUseCount, incUseCount, refers, BitVec.ofNat_add]
      grind
  · simp only [if_true]
    split
    · rfl
    by_cases hn : bs.auth.nextKey = key
    · rw [if_neg (not_not.mpr hn), ← hn]
      rfl
    · rw [if_pos hn]
      simp only [incUseCount, refers, (h rfl).resolve_right hn, BitVec.ofNat_add]
      grind

namespace Keyring.Inv

variable (h : m.Inv)
include h

theorem onSession {i : Nat} {f : Session → (Nat → AuthKey) → Option Session × (Nat → AuthKey)}
    (hf : ∀ bs, m.sessions[i]? = some (some bs) → Recounts m.authKeys bs (f bs m.authKeys)) :
    (m.onSession i f).1.Inv := by
  unfold Keyring.onSession
  split
  · rename_i bs hi
    refine ⟨fun k => ?_, by rw [List.length_set]; exact h.length_lt⟩
    have hsum := congrArg (BitVec.ofNat 32) (sum_map_set (refers k) hi (f bs m.authKeys).1)
    rw [BitVec.ofNat_add, BitVec.ofNat_add, ← h.counts, ← hf bs hi k] at hsum
    exact (BitVec.add_left_inj _).mp hsum.symm
  · exact h

theorem writeKey {k' : Nat} {key : AuthKey} (hkey : key.useCount = (m.authKeys k').useCount)
    (ids : U32 → Option Nat) : Keyring.Inv ⟨m.sessions, ids, m.base, update m.authKeys k' key⟩ := by
  refine ⟨fun k => Eq.trans ?_ (h.counts k), h.length_lt⟩
  dsimp only
  by_cases hk : k = k'
  · rw [hk, Function.update_self, hkey]
  · rw [Function.update_of_ne hk]

theorem move (n : Nat) (hnone : ∀ k, ∀ s ∈ m.sessions, refers k s = 0) : (m.move n).Inv := by
  have hzero : ∀ k, (m.sessions.map (refers k)).sum = 0 := fun k =>
    List.sum_eq_zero_iff.mpr (List.forall_mem_map.mpr (hnone k))
  refine ⟨fun k => ?_, h.length_lt⟩
  rw [Keyring.move, h.counts, hzero, hzero]

theorem getSession (slot : Nat) (localDiscr : U32) (udpKey : UdpKey)
    (hlt : m.sessions.length + 1 < 2 ^ 31) : (m.step (.getSession slot localDiscr udpKey)).1.Inv := by
  have hzero : ∀ k, refers k (some (bfdGetSession localDiscr udpKey)) = 0 := fun _ => rfl
  simp only [Keyring.step]
  split
  · rename_i hi
    refine ⟨fun k => ?_, by simpa using h.length_lt⟩
    have hsum := sum_map_set (refers k) hi (some (bfdGetSession localDiscr udpKey))
    rw [h.counts, ← show _ = (m.sessions.map (refers k)).sum from hsum]
    rfl
  · exact ⟨fun k => by simp [h.counts, hzero], by simpa using hlt⟩

theorem step (a : KeyEvent) (ha : a.Fits m) : (m.step a).1.Inv := by
  cases a with
  | setKey confKeyId authType keyData idx moves =>
    simp only [Keyring.step, bfdAuthSetKey]
    split
    · exact h
    split
    · exact h
    split
    · split
      · exact h
      · exact h.writeKey (by rfl) _
    · rename_i hnew
      cases moves
      · exact h.writeKey (by rfl) _
      · exact (h.move idx (ha hnew)).writeKey (by rfl) _
  | delKey confKeyId =>
    simp only [Keyring.step, bfdAuthDelKey]
    split
    · split
      · exact h
      · rename_i hzero
        exact h.writeKey (BitVec.le_zero_iff.mp (BitVec.not_lt.mp hzero)).symm _
    · exact h
  | getSession slot localDiscr udpKey => exact h.getSession slot localDiscr udpKey ha
  | putSession i => exact h.onSession fun _ _ => put_recounts
  | activate i confKeyId bfdKeyId isDelayed =>
    simp only [Keyring.step]
    split
    · exact h
    · refine h.onSession fun bs hbs => activate_recounts bfdKeyId fun hd => ?_
      subst hd
      exact ha bs hbs
  | deactivate i isDelayed => exact h.onSession fun _ _ => deactivate_recounts
  | switchToNext i => exact h.onSession fun _ _ => switch_recounts

theorem right : m.Right := by
  have hcounts : ∀ k, (m.authKeys k).useCount.toNat = (m.sessions.map (refers k)).sum := by
    intro k
    have hle : (m.sessions.map (refers k)).sum ≤ (m.sessions.map (refers k)).length • 2 := by
      refine List.sum_le_card_nsmul _ _ fun x hx => ?_
      obtain ⟨s, -, rfl⟩ := List.mem_map.mp hx
      cases s with
      | none => exact Nat.zero_le 2
      | some bs =>
        have hp : ∀ p, points k p ≤ 1 := fun p => by unfold points; split <;> decide
        exact Nat.add_le_add (hp _) (hp _)
    rw [List.length_map, nsmul_eq_mul, Nat.cast_id] at hle
    have := h.length_lt
    rw [h.counts, BitVec.toNat_ofNat, Nat.mod_eq_of_lt (by omega)]
  have hfree : ∀ k, ¬ 0 < (m.authKeys k).useCount ↔ ∀ s ∈ m.sessions, refers k s = 0 := by
    intro k
    rw [BitVec.lt_def, hcounts, ← List.forall_mem_map (P := (· = 0)), ← List.sum_eq_zero_iff]
    exact Nat.pos_iff_ne_zero.not_left
  refine ⟨hcounts, fun confKeyId k hk => ?_, fun confKeyId k hk authType keyData idx moves hne hlen hsup => ?_⟩
  · rw [← hfree, bfdAuthDelKey, hk]
    dsimp only
    split <;> simp_all
  · rw [← hfree, bfdAuthSetKey, if_neg (by simp [hne, hlen]), if_neg (not_not.mpr hsup), hk]
    dsimp only
    split <;> simp_all

end Keyring.Inv

/-- **The use counts are right** after every run in which no delayed activation replaces another next key, and
the pool of keys does not move under a session. -/
theorem use_counts_right (as : List KeyEvent) (has : Along Keyring.step (fun m a => a.Fits m) noKeys as) :
    (after Keyring.step noKeys as).Right :=
  (has.invariant Keyring.Inv (fun _ => True) (fun _ a h ha => ⟨h.step a ha, trivial⟩)
    ⟨fun _ => rfl, by decide⟩).1.right

def twoKeys : List KeyEvent :=
  [.setKey 1 .keyedSha1 [1] 0 false, .setKey 2 .keyedSha1 [2] 1 true, .getSession 0 1 ⟨0, 0, 0⟩,
    .activate 0 1 1 true]

theorem use_counts_right_twoKeys : (after Keyring.step noKeys twoKeys).Right := by
  refine use_counts_right twoKeys ⟨trivial, fun _ k s hs => ?_, (by decide : 0 + 1 < 2 ^ 31),
    fun bs hbs => .inl ?_, trivial⟩
  · cases hs
  · obtain rfl := Option.some.inj (Option.some.inj hbs)
    rfl

/-- The key that is replaced stays counted; and so does one whose session was left behind. -/
theorem replaced_key_counted :
    ¬ (after Keyring.step noKeys (twoKeys ++ [.activate 0 2 1 true])).Right ∧
      ¬ (after Keyring.step noKeys [.setKey 1 .keyedSha1 [1] 0 false, .getSession 0 1 ⟨0, 0, 0⟩,
        .activate 0 1 1 false, .setKey 2 .keyedSha1 [2] 1 true, .deactivate 0 false]).Right :=
  ⟨fun h => absurd (h.counts 1) (by decide), fun h => absurd (h.counts 1) (by decide)⟩

end Vpp.Bfd
