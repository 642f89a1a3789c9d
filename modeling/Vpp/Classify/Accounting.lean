import Vpp.Classify.ExactMatch

/-!
# The accounts of the classifier table

A table counts its entries and its linear buckets, and holds a lock on a FIB table for each entry whose
action sets its index. An addition that replaces an entry takes a lock and gives none back.
-/

namespace Vpp.Classify

open Lib
open Function (update update_of_ne)

variable {c : Config} {t : Table c} {s : State c} {x : Session} {M : Key c → Option Entry} {k : Key c}

/-- The number of linear buckets. -/
def Table.linearCount (t : Table c) : Nat :=
  ((List.range (2 ^ log2Nbuckets c)).map fun i => linears (t.buckets i)).sum

/-- The counters and the locks are those of the entries `L`. -/
structure Counts (s : State c) (L : List (Key c × Entry)) : Prop where
  active : s.table.activeElements = .ofNat 32 L.length
  linear : s.table.linearBuckets = .ofNat 32 s.table.linearCount
  locks : ∀ f, s.locks f = L.countP fun v => decide (v.2.fib? = some f)

/-- They are those of the entries of the table. -/
def Accounted (s : State c) : Prop := ∃ M L, TableInv s.table M ∧ Lists M L ∧ Counts s L

theorem addLock_apply (l : Locks) (e : Entry) (n : Int) (f : FibProtocol × U32) :
    addLock l e n f = l f + if e.fib? = some f then n else 0 := by
  unfold addLock
  cases hf : e.fib? with
  | none => simp
  | some g =>
    by_cases h : g = f
    · simp [h]
    · simp [h, update_of_ne (Ne.symm h)]

theorem Counted.linear_right {t' : Table c} {d : U32} (h : Counted t t' (bucketOf c k) d)
    (hlin : t.linearBuckets = .ofNat 32 t.linearCount) : t'.linearBuckets = .ofNat 32 t'.linearCount := by
  have hmem : bucketOf c k ∈ List.range (2 ^ log2Nbuckets c) :=
    List.mem_range.mpr (Nat.mod_lt _ (Nat.two_pow_pos _))
  obtain ⟨b, hb⟩ := h.buckets
  have hrest : ∀ i ∈ (List.range (2 ^ log2Nbuckets c)).erase (bucketOf c k),
      linears (t'.buckets i) = linears (t.buckets i) := fun i hi => by
    rw [hb, update_of_ne ((List.nodup_range.mem_erase_iff).mp hi).1]
  have hcount := h.linear
  rw [hlin] at hcount
  unfold Table.linearCount at *
  rw [← List.sum_map_erase _ hmem, BitVec.ofNat_add] at hcount ⊢
  rw [List.map_congr_left hrest]
  grind

/-- The call is for data that is not all ones, and replaces no entry that holds a lock. -/
def Quiet (s : State c) (x : Session) : Prop :=
  masked c x.data ≠ blankKey c ∧ (x.isAdd = true →
    ∀ v ∈ (findEntry s.table x.data (hashPacket c x.data) 0).2, v.2.fib? = none)

instance (s : State c) (x : Session) : Decidable (Quiet s x) := inferInstanceAs (Decidable (_ ∧ _))

def sessionStep (s : State c) (x : Session) : State c × Output c := step s (.session x)

theorem Counts.session {L : List (Key c × Entry)} (h : Counts s L) (hinv : TableInv s.table M)
    (hL : Lists M L) (hq : Quiet s x) :
    ∃ L', Lists (mapStep M (.session x)).1 L' ∧ Counts (sessionStep s x).1 L' := by
  obtain ⟨hk, hq⟩ := hq
  rw [(hinv.findEntry hk 0).1] at hq
  rw [mapStep, sessionStep]
  -- an entry that is there is the first of the list
  have hrest : ∀ e, M (masked c x.data) = some e → ∃ rest, L.Perm ((masked c x.data, e) :: rest) :=
    fun e he => ⟨_, List.perm_cons_erase ((hL.mem_iff _ e).mpr he)⟩
  cases hadd : x.isAdd with
  | true =>
    obtain ⟨t, ht, hc, -⟩ := TableInv.add (s := ⟨s.table, entryClaimResource s.locks x.entry⟩)
      (v := (masked c x.data, x.entry)) hinv hk
    rw [busyCopy_of_busy entry_busy] at ht
    rw [step_session (addDelSession_eq (hadd ▸ ht)), release_claim]
    have hactive := hc.active
    cases hM : M (masked c x.data) with
    | none =>
      refine ⟨_, hL.cons hM x.entry, ?_, hc.linear_right h.linear, fun f => ?_⟩
      · rw [hactive, if_pos hM, h.active, List.length_cons, BitVec.ofNat_add]
        rfl
      · change entryClaimResource s.locks x.entry f = _
        rw [entryClaimResource, addLock_apply, h.locks, List.countP_cons]
        simp
    | some e =>
      obtain ⟨rest, hp⟩ := hrest e hM
      have hnone : e.fib? = none := hq hadd _ (by rw [hM]; rfl)
      refine ⟨_, (hL.perm hp).replace x.entry, ?_, hc.linear_right h.linear, fun f => ?_⟩
      · rw [hactive, if_neg (by simp [hM]), h.active, hp.length_eq]
        exact BitVec.add_zero _
      · change entryClaimResource s.locks x.entry f = _
        rw [entryClaimResource, addLock_apply, h.locks, hp.countP_eq, List.countP_cons, List.countP_cons]
        simp [hnone]
  | false =>
    cases hM : M (masked c x.data) with
    | none =>
      rw [step_session (hinv.addDelSession_absent hadd hk hM)]
      exact ⟨L, hL, h⟩
    | some e =>
      obtain ⟨rest, hp⟩ := hrest e hM
      obtain ⟨t, ht, hc, -⟩ := (TableInv.del (s := ⟨s.table, entryClaimResource s.locks x.entry⟩)
        (v := (masked c x.data, x.entry)) hinv hk).2 e hM
      rw [step_session (addDelSession_eq (hadd ▸ ht))]
      refine ⟨rest, (hL.perm hp).uncons, ?_, hc.linear_right h.linear, fun f => ?_⟩
      · rw [hc.active, h.active, hp.length_eq, List.length_cons, BitVec.ofNat_add]
        grind
      · simp only [entryReleaseResource, entryClaimResource, addLock_apply, h.locks, hp.countP_eq,
          List.countP_cons, decide_eq_true_eq]
        split <;> split <;> push_cast <;> omega

/-- **The accounts of a table** are right in every state reached, as long as no session is for data of all
ones and no addition replaces an entry that holds a lock. -/
theorem accounts_right (c : Config) (xs : List Session)
    (hrun : Along sessionStep Quiet ⟨newTable c, fun _ => 0⟩ xs) :
    Accounted (after sessionStep ⟨newTable c, fun _ => 0⟩ xs) := by
  refine (hrun.invariant Accounted (fun _ => True) ?_ ?_).1
  · rintro s x ⟨M, L, hinv, hL, h⟩ hq
    obtain ⟨L', hL', h'⟩ := h.session hinv hL hq
    exact ⟨⟨_, L', (hinv.session hq.1).2, hL', h'⟩, trivial⟩
  · refine ⟨_, [], tableInv_newTable, ⟨List.nodup_nil, fun _ _ => by simp⟩, rfl, ?_, fun _ => rfl⟩
    simp [Table.linearCount, newTable, linears]

/-- A session that sets the FIB index 5. -/
def fibSession (n : U64) (isAdd : Bool) : Session := ⟨fun _ => n, 7, 9, 0, 1, 0, isAdd, 5⟩

theorem locks_follow :
    Accounted (after sessionStep ⟨newTable allBits, fun _ => 0⟩
      [fibSession 1 true, fibSession 2 true, fibSession 1 false]) :=
  accounts_right allBits _ (by decide +kernel)

/-- A session is added twice and deleted: no entry is left, but a lock is. -/
theorem lock_left :
    let s := after sessionStep ⟨newTable allBits, fun _ => 0⟩ [fibSession 1 true, fibSession 1 true,
      fibSession 1 false]
    (s.table.buckets 0).map (fun b => entries entryIsFree b.values (entriesPerPage * 2 ^ b.log2Pages)) =
        some [] ∧ s.locks (.ip4, 5) = 1 := by
  decide +kernel

end Vpp.Classify
