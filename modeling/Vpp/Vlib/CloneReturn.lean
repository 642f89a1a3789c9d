import Vpp.Vlib.Clone

/-!
# What becomes of the clones

The chains that `vlib_buffer_clone` returns are freed by calls of `vlib_buffer_free`, in any order. All
buffers come back, each with the last chain that uses it, as long as the chain that was cloned is part of
one of the clones. It is not if the last round is given no buffer for a head.
-/

namespace Vpp.Vlib

open Lib List

variable {vm vm' : Vm} {c : List Nat} {cs ks lost : List (List Nat)} {bytes : List U8}
  {bufs : List Nat} {len : Nat}

/-! ## Freeing the clones -/

section Freeing

variable {chain : Nat → List Nat}

/-- Several calls of `vlib_buffer_free`, one after the other. -/
def freeCalls (simd : Simd) (fuel : Nat) (vm : Vm) (calls : List (List Nat)) : Option Vm :=
  calls.foldlM (bufferFree simd fuel) vm

theorem freeCalls_spec (simd : Simd) (fuel : Nat) {calls : List (List Nat)}
    (h : Shared vm.buffer (calls.flatten.map chain ++ cs))
    (hchain : ∀ i ∈ calls.flatten, (chain i).head? = some i ∧ (chain i).length ≤ fuel) :
    ∃ vm', freeCalls simd fuel vm calls = some vm' ∧
      vm'.buffer = released (calls.flatten.map chain) cs vm.buffer ∧
      ∀ p x, (vm'.free p).count x =
        (vm.free p).count x + gained (calls.flatten.map chain) cs vm.buffer p x := by
  induction calls generalizing vm with
  | nil => exact ⟨vm, rfl, FreeState.released_nil.symm,
      fun p x => (congrArg (_ + ·) FreeState.gained_nil).symm⟩
  | cons is calls ih =>
    rw [flatten_cons, map_append, append_assoc] at h
    have hleft : ∀ i ∈ is, i ∈ (is :: calls).flatten := fun i hin => mem_append_left _ hin
    obtain ⟨vm1, hfree, hbuf, hcount, -⟩ := bufferFree_shared fuel is h (by
        rw [map_map]
        exact map_congr_left fun i hin => (hchain i (hleft i hin)).1)
      (fun d hd => by
        obtain ⟨i, hin, rfl⟩ := mem_map.mp hd
        exact (hchain i (hleft i hin)).2)
    have hsh : Shared vm1.buffer (calls.flatten.map chain ++ cs) := by
      rw [hbuf]
      exact h.release
    obtain ⟨vm2, hrun, hbuf2, hcount2⟩ := ih hsh fun i hin => hchain i (mem_append_right _ hin)
    refine ⟨vm2, ?_, ?_, fun p x => ?_⟩
    · unfold freeCalls at hrun ⊢
      rw [foldlM_cons, hfree]
      exact hrun
    · rw [hbuf2, hbuf, released_append, flatten_cons, map_append]
    · rw [hcount2, hcount, hbuf, Nat.add_assoc, gained_append, flatten_cons, map_append]

theorem exists_chain (hnd : bufs.Nodup) (hlen : ks.length = bufs.length) :
    ∃ chain : Nat → List Nat, bufs.map chain = ks := by
  refine ⟨fun i => ks.getD (bufs.idxOf i) [], ext_getElem (by rw [length_map, hlen]) ?_⟩
  intro j hj hk
  rw [getElem_map, hnd.idxOf_getElem, getD_eq_getElem?_getD, getElem?_eq_getElem hk,
    Option.getD_some]

theorem Cloned.nodup (h : Cloned vm vm' bytes len bufs ks lost cs) : bufs.Nodup := by
  rw [nodup_iff_count_le_one]
  intro i
  have hcount : bufs.count i = ks.countP fun k => k.head? == some i := by
    rw [← count_map_of_injective bufs some (fun _ _ he => Option.some.inj he), ← h.heads, List.count,
      countP_map]
    rfl
  have hle : bufs.count i ≤ uses ks i := by
    rw [hcount]
    refine countP_mono_left fun k _ hk => decide_eq_true ?_
    exact mem_of_mem_head? (eq_of_beq hk)
  by_cases hin : i ∈ bufs
  · obtain ⟨k, hk, hki⟩ : ∃ k ∈ ks, k.head? = some i := by
      have : some i ∈ ks.map List.head? := by
        rw [h.heads]
        exact mem_map_of_mem hin
      exact mem_map.mp this
    have hone := h.live.shared.head k (mem_append_left _ (mem_append_left _ hk)) i hki
    rw [uses_append, uses_append] at hone
    omega
  · rw [count_eq_zero.mpr hin]
    exact Nat.zero_le 1

end Freeing

/-! ## The result -/

section Result

variable (simd : Simd) (cacheLineBytes fuel : Nat) (vm : Vm) (c : List Nat) (src n headEndOffset : Nat)

/-- Freed in any order, the chains that begin with `bufs` return their buffers and those of `c`, each once and
with the last chain that uses it; `rest` begins those not freed yet. -/
def ReturnedOnce (vm' : Vm) (bufs : List Nat) (chain : Nat → List Nat) : Prop :=
  ∀ calls rest, (calls.flatten ++ rest).Perm bufs → ∃ vm'', freeCalls simd fuel vm' calls = some vm'' ∧
    ∀ x, (x ∈ c ∨ ∃ i ∈ bufs, x ∈ chain i) → ∀ p, (vm''.free p).count x =
      if p = (vm.buffer x).bufferPoolIndex ∧ ∀ i ∈ rest, x ∉ chain i then 1 else 0

def Unchanged (vm' : Vm) : Prop :=
  IsChain vm'.buffer c ∧ content vm'.buffer c = content vm.buffer c ∧
    ∀ x ∈ c, (vm'.buffer x).currentLength = (vm.buffer x).currentLength ∧
      (vm'.buffer x).totalLength = (vm.buffer x).totalLength

/-- What the clones of `c` are to be. -/
def CloneCorrect : Prop :=
  ∃ vm' bufs, bufferClone simd cacheLineBytes fuel vm src n headEndOffset = some (vm', bufs) ∧
    bufs.Nodup ∧
    (∃ chain : Nat → List Nat,
      (∀ i ∈ bufs, (chain i).head? = some i ∧ IsChain vm'.buffer (chain i) ∧
        content vm'.buffer (chain i) = content vm.buffer c) ∧
      (bufs ≠ [] → ReturnedOnce simd fuel vm c vm' bufs chain)) ∧
    (bufs = [] → Unchanged vm c vm')

/-- The supply is enough for each copy that a round begins with and for a clone in the last round; or there
is no clone at all, and no head. -/
def Accounted : Prop :=
  ∃ last earlier, vm.supply.allClones vm.numaPool (isShort cacheLineBytes vm src headEndOffset) c.length
      (vm.buffer src).bufferPoolIndex n = some (last, earlier) ∧
    (0 < last ∨ (earlier = 0 ∧ headEndOffset = 0))

variable {cacheLineBytes fuel vm c src n headEndOffset}

theorem returnedOnce_of_cloned {chain : Nat → List Nat}
    (h : Cloned vm vm' bytes len bufs (bufs.map chain) lost []) (hfuel : len ≤ fuel)
    (hpools : ∀ x, (vm'.buffer x).bufferPoolIndex = (vm.buffer x).bufferPoolIndex)
    (hused : ∀ x ∈ c, 0 < uses (bufs.map chain) x) (hhead : ∀ i ∈ bufs, (chain i).head? = some i) :
    ReturnedOnce simd fuel vm c vm' bufs chain := by
  intro calls rest hperm
  have hmap : (calls.flatten.map chain ++ rest.map chain).Perm (bufs.map chain) := by
    rw [← map_append]
    exact hperm.map chain
  have hlive : Live vm' (calls.flatten.map chain ++ (rest.map chain ++ lost)) := by
    rw [← append_assoc]
    refine h.live.perm ?_
    rw [append_nil]
    exact hmap.symm.append_right lost
  have hsub : ∀ i ∈ calls.flatten, i ∈ bufs := fun i hi =>
    hperm.mem_iff.mp (mem_append_left _ hi)
  obtain ⟨vm'', hrun, -, hcount⟩ := freeCalls_spec simd fuel hlive.shared fun i hi =>
    ⟨hhead i (hsub i hi), Nat.le_trans (h.length_le _ (mem_map_of_mem (hsub i hi))) hfuel⟩
  refine ⟨vm'', hrun, fun x hx p => ?_⟩
  have hpos : 0 < uses (bufs.map chain) x := by
    rcases hx with hx | ⟨i, hi, hx⟩
    · exact hused x hx
    · exact uses_pos.mpr ⟨chain i, mem_map_of_mem hi, hx⟩
  have hlost : uses lost x = 0 := Nat.eq_zero_of_not_pos fun hl => by
    have := h.lost_apart x hl
    omega
  have hsum := uses_perm hmap x
  have hrest : uses (rest.map chain) x = 0 ↔ ∀ i ∈ rest, x ∉ chain i := by
    rw [uses_eq_zero, forall_mem_map]
  have hzero : (vm'.free p).count x = 0 := count_eq_zero.mpr (h.live.apart x (by
    rw [uses_append, uses_append]
    omega) p)
  rw [uses_append] at hsum
  rw [hcount, hzero, Nat.zero_add, gained, uses_append, hlost, hpools]
  congr 1
  apply propext
  rw [← hrest]
  exact ⟨fun h => ⟨h.2.2, h.2.1⟩, fun h => ⟨by omega, h.2, h.1⟩⟩

/-- **Cloning.** The clones are chains of the same content that account for all buffers exactly if the supply
is enough for the copies of all rounds and for a clone in the last. -/
theorem clone_correct_iff (h : Live vm [c]) (hi : c.head? = some src) (hfuel : c.length < fuel)
    (hle : headEndOffset ≤ (vm.buffer src).currentLength) (hn : 1 ≤ n) (_hn : n ≤ 65535) :
    CloneCorrect simd cacheLineBytes fuel vm c src n headEndOffset ↔
      Accounted cacheLineBytes vm c src n headEndOffset := by
  have hcall := bufferClone_spec simd cacheLineBytes h hi (Nat.le_of_lt hfuel) hle hn
  unfold CloneCorrect Accounted
  cases hr : vm.supply.allClones vm.numaPool (isShort cacheLineBytes vm src headEndOffset) c.length
      (vm.buffer src).bufferPoolIndex n with
  | none =>
    rw [hr] at hcall
    refine ⟨fun ⟨vm', bufs, hrun, _⟩ => ?_, fun ⟨_, _, hnone, _⟩ => by cases hnone⟩
    rw [show bufferClone simd cacheLineBytes fuel vm src n headEndOffset = none from hcall] at hrun
    cases hrun
  | some r =>
    rw [hr] at hcall
    obtain ⟨last, earlier⟩ := r
    obtain ⟨vm', bufs, ks, lost, hrun, hlen, hpools, hcl, hused, hnone⟩ := hcall
    obtain ⟨chain, rfl⟩ := exists_chain hcl.nodup (by
      have := congrArg List.length hcl.heads
      simpa using this)
    have hhead : ∀ i ∈ bufs, (chain i).head? = some i := by
      have := hcl.heads
      rw [map_map] at this
      exact map_inj_left.mp this
    refine ⟨?_, ?_⟩
    · rintro ⟨vm1, bufs1, hrun1, -, ⟨chain1, -, hret⟩, hsame⟩
      rw [hrun] at hrun1
      obtain ⟨rfl, rfl⟩ : vm' = vm1 ∧ bufs = bufs1 := by simpa using hrun1
      refine ⟨last, earlier, rfl, ?_⟩
      by_contra hcon
      obtain rfl : last = 0 := by omega
      obtain ⟨hclost, hadv⟩ := hnone rfl
      have hsrc : src ∈ c := mem_of_mem_head? hi
      by_cases hzero : earlier = 0
      · -- no clone: the first buffer is shorter
        obtain ⟨-, -, hlens⟩ := hsame (length_eq_zero_iff.mp (by omega))
        have hcur := (hlens src hsrc).1
        rw [hadv.first] at hcur
        have hcur' : (vm.buffer src).currentLength - headEndOffset = (vm.buffer src).currentLength := hcur
        omega
      · -- the chain is not part of any clone
        have hne : bufs ≠ [] := fun hnil => hzero (by rw [hnil] at hlen; simpa using hlen.symm)
        obtain ⟨vm2, hfree, hcount⟩ := hret hne [bufs] [] (by simp)
        have hone := hcount src (.inl hsrc) (vm.buffer src).bufferPoolIndex
        rw [if_pos ⟨rfl, by simp⟩] at hone
        have hlive : Live vm' ([bufs].flatten.map chain ++ lost) := by
          have hl := hcl.live
          simpa using hl
        obtain ⟨vm3, hfree3, hbuf3, hcount3⟩ := freeCalls_spec simd fuel hlive.shared
          fun i hin => ⟨hhead i (by simpa using hin), Nat.le_trans
            (hcl.length_le _ (mem_map_of_mem (by simpa using hin))) hfuel⟩
        rw [hfree3] at hfree
        obtain rfl := Option.some.inj hfree
        have hin : src ∈ vm3.free (vm.buffer src).bufferPoolIndex := count_pos_iff.mp (by omega)
        exact (hlive.release hbuf3 hcount3).apart src (uses_pos.mpr ⟨c, hclost, hsrc⟩) _ hin
    · rintro ⟨last', earlier', hsome, hacc⟩
      obtain ⟨rfl, rfl⟩ : last = last' ∧ earlier = earlier' := by simpa using hsome
      refine ⟨vm', bufs, hrun, hcl.nodup, ⟨chain, fun i hin => ⟨hhead i hin, ?_, ?_⟩, fun hne => ?_⟩,
        fun hnil => ?_⟩
      · exact hcl.live.shared.chain _ (mem_append_left _ (mem_append_left _ (mem_map_of_mem hin)))
      · exact hcl.content_eq _ (mem_map_of_mem hin)
      · have hlast : last ≠ 0 := by
          have := length_pos_of_ne_nil hne
          omega
        exact returnedOnce_of_cloned simd hcl hfuel hpools (hused hlast) hhead
      · rw [hnil] at hlen
        have hlast : last = 0 := by
          have : 0 = earlier + last := hlen
          omega
        obtain ⟨hclost, hadv⟩ := hnone hlast
        obtain rfl : headEndOffset = 0 := by omega
        have hsame : ∀ x ∈ c, vm'.buffer x = vm.buffer x := fun x hx => by
          by_cases hxs : x = src
          · rw [hxs, hadv.first]
            unfold Buffer.advance
            simp
          · exact hadv.rest x hx hxs
        refine ⟨?_, content_congr hsame, fun x hx => by rw [hsame x hx]; exact ⟨rfl, rfl⟩⟩
        exact (h.shared.chain c mem_cons_self).congr fun x hx => by rw [hsame x hx]

end Result

/-- A packet of one buffer of 200 bytes, and two buffers in its pool. -/
def onePacket (grants : List Nat) : Vm where
  buffer i :=
    { currentData := 0
      currentLength := if i = 0 then 200 else 0
      flags := 0
      refCount := 1
      bufferPoolIndex := 0
      nextBuffer := 0
      opaqueData := []
      traceHandle := 0
      totalLength := 0
      opaqueData2 := []
      data := fun _ => 0 }
  free p := if p = 0 then [1, 2] else []
  numaPool := 0
  defaultDataSize := 2048
  grants := grants

theorem live_onePacket (grants : List Nat) : Live (onePacket grants) [[0]] := by
  have hfree : ∀ p, ∀ x ∈ (onePacket grants).free p, p = 0 ∧ x ≠ 0 := by
    intro p x hx
    change x ∈ (if p = 0 then [1, 2] else []) at hx
    split at hx
    · rename_i hp
      refine ⟨hp, ?_⟩
      rintro rfl
      simp at hx
    · cases hx
  have hnext : ∀ x, ((onePacket grants).buffer x).hasNext = false := fun x => by
    simp [Buffer.hasNext, onePacket]
  have huses : ∀ x, uses [[0]] x = if x = 0 then 1 else 0 := fun x => by simp [uses_cons]
  refine ⟨⟨fun k hk => ?_, fun k hk => ?_, fun x hx => ?_, fun x => ?_, fun k hk x hx => ?_⟩,
    fun p => ?_, fun p x hx => ?_, fun x hx p hin => ?_⟩
  · rw [mem_singleton.mp hk]
    exact if_neg (by rw [hnext]; exact Bool.false_ne_true)
  · rw [mem_singleton.mp hk]
    exact nodup_singleton 0
  · rw [huses] at hx ⊢
    split at hx
    · rw [if_pos ‹_›]
      rfl
    · omega
  · rw [huses]
    split <;> omega
  · rw [mem_singleton.mp hk] at hx
    rw [huses, if_pos (Option.some.inj hx).symm]
  · show (if p = 0 then [1, 2] else []).Nodup
    split <;> simp
  · exact ⟨(hfree p x hx).1.symm, rfl, hnext x, rfl⟩
  · rw [huses, if_neg (hfree p x hin).2] at hx
    omega

/-- Two clones with a head of 20 bytes each. -/
theorem two_clones : isShort 64 (onePacket [2]) 0 20 = false ∧
    CloneCorrect .scalar 64 2 (onePacket [2]) [0] 0 2 20 :=
  ⟨rfl, (clone_correct_iff .scalar (live_onePacket [2]) rfl (by decide) (by decide) (by decide)
    (by decide)).mpr ⟨2, 0, rfl, by decide⟩⟩

/-- Without any buffer for a head there is no clone, and yet the packet has lost its first 20 bytes. -/
theorem no_clone_advances : Live (onePacket [0]) [[0]] ∧
    ((bufferClone .scalar 64 2 (onePacket [0]) 0 2 20).map fun r =>
      (r.2, (r.1.buffer 0).currentLength)) = some ([], 180) ∧
    ¬ CloneCorrect .scalar 64 2 (onePacket [0]) [0] 0 2 20 := by
  have hrun : ((bufferClone .scalar 64 2 (onePacket [0]) 0 2 20).map fun r =>
      (r.2, (r.1.buffer 0).currentLength)) = some ([], 180) := rfl
  refine ⟨live_onePacket [0], hrun, ?_⟩
  rintro ⟨vm', bufs, heq, -, -, hsame⟩
  rw [heq] at hrun
  obtain ⟨rfl, hcur⟩ : bufs = [] ∧ (vm'.buffer 0).currentLength = 180 := by simpa using hrun
  have hlen := ((hsame rfl).2.2 0 mem_cons_self).1
  rw [hcur] at hlen
  exact absurd hlen (by decide)

end Vpp.Vlib
