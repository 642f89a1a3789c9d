import Vpp.Vlib.Copy

/-!
# Clones of a chain

`vlib_buffer_clone` makes several chains of the same content. A short first buffer is copied with the
chain; else each clone gets a head of its own, and the rest is shared between at most 256 clones, which is
what a count of eight bits allows. More clones are made in rounds: all but the last begin with a copy of
the chain, and the last one uses the chain itself.

What the allocator gives decides how many clones there are. The numbers can be told from the supply
alone, and with them whether the chain is still accounted for.
-/

namespace Vpp.Vlib

open Lib List
open Function (update update_self update_of_ne)

/-! ## The code -/

namespace Buffer

def advance (b : Buffer) (l : Nat) : Buffer :=
  { b with
    currentData := b.currentData + l
    currentLength := b.currentLength - l }

/-- `vlib_buffer_move`. -/
def move (b : Buffer) (offset : Int) : Buffer :=
  { b with
    currentData := offset
    data := blit b.data offset b.data b.currentData b.currentLength }

/-- The head of a clone, before the buffer `src`. -/
def cloneHead (s d : Buffer) (src headEndOffset : Nat) (offset : Int) : Buffer :=
  let currentData := if offset ≠ 0 then offset else s.currentData
  let rest := BitVec.ofNat 32 (s.currentLength - headEndOffset)
  { d with
    currentData := currentData
    currentLength := headEndOffset
    totalLength := if s.hasNext then rest + s.totalLength else rest
    flags := (s.flags &&& copyCloneFlagsMask) ||| nextPresent
    traceHandle := s.traceHandle
    opaqueData := s.opaqueData
    opaqueData2 := s.opaqueData2
    data := blit d.data currentData s.data s.currentData headEndOffset
    nextBuffer := src }

def setRefCount (b : Buffer) (n : Nat) : Buffer :=
  { b with refCount := if n ≠ 0 then BitVec.ofNat 8 n else b.refCount }

end Buffer

def copies (simd : Simd) (fuel : Nat) : Nat → Vm → Nat → Option (Vm × List Nat)
  | 0, vm, _ => some (vm, [])
  | k + 1, vm, b =>
    match bufferCopy simd fuel vm b with
    | none => none
    | some (vm', none) => some (vm', [])
    | some (vm', some d) => (copies simd fuel k vm' b).map fun r => (r.1, d :: r.2)

def cloneHeads (mem : Memory) (src headEndOffset : Nat) (offset : Int) (ds : List Nat) : Memory :=
  ds.foldl (fun m d => update m d ((m src).cloneHead (m d) src headEndOffset offset)) mem

/-- The counts of a chain that `n` clones share; without any they stay. -/
def setRefCounts (n : Nat) : Nat → Memory → Nat → Option Memory
  | 0, _, _ => none
  | fuel + 1, mem, i =>
    let mem' := update mem i ((mem i).setRefCount n)
    match (mem i).next? with
    | none => some mem'
    | some j => setRefCounts n fuel mem' j

section Code

-- the size of a cache line is that of the machine
variable (simd : Simd) (cacheLineBytes fuel : Nat)

def clone256 (vm : Vm) (src n headEndOffset : Nat) (offset : Int) : Option (Vm × List Nat) :=
  let s := vm.buffer src
  if s.currentLength ≤ headEndOffset + cacheLineBytes * 2 then
    let vm' := if offset ≠ 0 then vm.setBuffer src (s.move offset) else vm
    (copies simd fuel (n - 1) vm' src).map fun r => (r.1, src :: r.2)
  else if n = 1 ∧ offset = 0 then some (vm, [src])
  else
    let r := vm.allocFromPool n s.bufferPoolIndex
    let mem := cloneHeads r.2.buffer src headEndOffset offset r.1
    let mem' := update mem src ((mem src).advance headEndOffset)
    (setRefCounts r.1.length fuel mem' src).map fun m => ({ r.2 with buffer := m }, r.1)

/-- The rounds that begin with a copy. A copy that is refused is a null pointer, which the code then
follows. -/
def cloneRounds (src headEndOffset : Nat) (offset : Int) : Nat → Vm → Option (Vm × List Nat)
  | 0, vm => some (vm, [])
  | k + 1, vm =>
    match bufferCopy simd fuel vm src with
    | some (vm1, some copy) =>
      match clone256 simd cacheLineBytes fuel vm1 copy 256 headEndOffset offset with
      | some (vm2, buffers) =>
        (cloneRounds src headEndOffset offset k vm2).map fun r => (r.1, buffers ++ r.2)
      | none => none
    | _ => none

/-- `vlib_buffer_clone_at_offset`. There are rounds as long as more than 256 clones are missing. -/
def cloneAtOffset (vm : Vm) (src n headEndOffset : Nat) (offset : Int) : Option (Vm × List Nat) :=
  match cloneRounds simd cacheLineBytes fuel src headEndOffset offset ((n - 1) / 256) vm with
  | none => none
  | some (vm', buffers) =>
    (clone256 simd cacheLineBytes fuel vm' src (n - 256 * ((n - 1) / 256)) headEndOffset offset).map
      fun r => (r.1, buffers ++ r.2)

def bufferClone (vm : Vm) (src n headEndOffset : Nat) : Option (Vm × List Nat) :=
  cloneAtOffset simd cacheLineBytes fuel vm src n headEndOffset 0

end Code

/-! ## How many clones the supply is enough for -/

namespace Supply

variable (numaPool : U8) (short : Bool) (len : Nat)

/-- Copies of `len` buffers, up to the first that is refused. -/
def copies : Nat → Supply → Supply × Nat
  | 0, s => (s, 0)
  | k + 1, s =>
    if len ≤ s.available numaPool then
      let r := copies k (s.spend numaPool len)
      (r.1, r.2 + 1)
    else (s.spend numaPool 0, 0)

/-- The clones of one round, out of `n`. -/
def clones (pool : U8) (n : Nat) (s : Supply) : Supply × Nat :=
  if short then
    let r := s.copies numaPool len (n - 1)
    (r.1, r.2 + 1)
  else if n = 1 then (s, 1)
  else
    let m := min n (s.available pool)
    (s.spend pool m, m)

/-- The rounds that begin with a copy: `none` if a copy is refused. -/
def rounds : Nat → Supply → Option (Supply × Nat)
  | 0, s => some (s, 0)
  | k + 1, s =>
    if len ≤ s.available numaPool then
      let r := (s.spend numaPool len).clones numaPool short len numaPool 256
      (rounds k r.1).map fun t => (t.1, r.2 + t.2)
    else none

def allClones (pool : U8) (n : Nat) (s : Supply) : Option (Nat × Nat) :=
  (s.rounds numaPool short len ((n - 1) / 256)).map fun r =>
    ((r.1.clones numaPool short len pool (n - 256 * ((n - 1) / 256))).2, r.2)

end Supply

/-! ## Chains with the same content -/

variable {vm vm' vm'' : Vm} {c : List Nat} {cs ks lost : List (List Nat)} {bytes : List U8}
  {bufs : List Nat} {len : Nat}

/-- The chains `ks`, which begin with `bufs`, have been made; `lost` are in use, but nobody knows them.
The chains `cs` are as before. -/
structure Cloned (vm vm' : Vm) (bytes : List U8) (len : Nat) (bufs : List Nat)
    (ks lost cs : List (List Nat)) : Prop where
  live : Live vm' (ks ++ lost ++ cs)
  heads : ks.map List.head? = bufs.map some
  content_eq : ∀ k ∈ ks, content vm'.buffer k = bytes
  length_le : ∀ k ∈ ks, k.length ≤ len
  frame : ∀ x, 0 < uses cs x → vm'.buffer x = vm.buffer x
  apart : ∀ x, 0 < uses cs x → uses (ks ++ lost) x = 0
  lost_apart : ∀ x, 0 < uses lost x → uses ks x = 0

theorem content_congr {mem mem' : Memory} (h : ∀ x ∈ c, mem' x = mem x) :
    content mem' c = content mem c :=
  flatMap_congr fun x hx => by rw [h x hx]

namespace Cloned

theorem none (h : Live vm cs) (bytes : List U8) (len : Nat) : Cloned vm vm bytes len [] [] [] cs :=
  ⟨h, rfl, fun _ hk => (by cases hk), fun _ hk => (by cases hk), fun _ _ => rfl, fun _ _ => rfl,
    fun _ _ => rfl⟩

section

variable (h : Cloned vm vm' bytes len bufs ks lost cs)
include h

theorem perm {cs' : List (List Nat)}
    (hp : cs.Perm cs') : Cloned vm vm' bytes len bufs ks lost cs' :=
  ⟨h.live.perm (hp.append_left _), h.heads, h.content_eq, h.length_le,
    fun x hx => h.frame x (by rw [uses_perm hp]; exact hx),
    fun x hx => h.apart x (by rw [uses_perm hp]; exact hx), h.lost_apart⟩

theorem mono {len' : Nat} (hle : len ≤ len') : Cloned vm vm' bytes len' bufs ks lost cs :=
  { h with length_le := fun k hk => Nat.le_trans (h.length_le k hk) hle }

theorem append {bufs' : List Nat} {ks' lost' : List (List Nat)}
    (h' : Cloned vm' vm'' bytes len bufs' ks' lost' (ks ++ lost ++ cs)) :
    Cloned vm vm'' bytes len (bufs ++ bufs') (ks ++ ks') (lost ++ lost') cs := by
  have hcs : ∀ x, 0 < uses cs x → 0 < uses (ks ++ lost ++ cs) x := fun x hx => by
    rw [uses_append]
    omega
  refine ⟨h'.live.perm ?_, ?_, fun k hk => ?_, fun k hk => ?_, fun x hx => ?_, fun x hx => ?_,
    fun x hx => ?_⟩
  · calc ks' ++ lost' ++ (ks ++ lost ++ cs)
        = ks' ++ (lost' ++ (ks ++ (lost ++ cs))) := by simp only [append_assoc]
      _ |>.Perm (ks' ++ (ks ++ (lost ++ (lost' ++ cs)))) :=
        .append_left ks' ((perm_append_comm_assoc lost' ks _).trans
          (.append_left ks (perm_append_comm_assoc lost' lost cs)))
      _ |>.Perm (ks ++ (ks' ++ (lost ++ (lost' ++ cs)))) := perm_append_comm_assoc ks' ks _
      _ = ks ++ ks' ++ (lost ++ lost') ++ cs := by simp only [append_assoc]
  · rw [map_append, map_append, h.heads, h'.heads]
  · rcases mem_append.mp hk with hk | hk
    · rw [content_congr fun x hx => h'.frame x ?_]
      · exact h.content_eq k hk
      · exact uses_pos.mpr ⟨k, mem_append_left _ (mem_append_left _ hk), hx⟩
    · exact h'.content_eq k hk
  · rcases mem_append.mp hk with hk | hk
    · exact h.length_le k hk
    · exact h'.length_le k hk
  · rw [h'.frame x (hcs x hx), h.frame x hx]
  · have h1 := h.apart x hx
    have h2 := h'.apart x (hcs x hx)
    simp only [uses_append] at h1 h2 ⊢
    omega
  · have h1 := h.lost_apart x
    have h2 := h'.lost_apart x
    have h3 := h'.apart x
    simp only [uses_append] at hx h3 ⊢
    omega

end

end Cloned

theorem Copied.cloned {d : List Nat} {j : Nat} (h : Copied vm vm' c d cs) (hj : d.head? = some j) :
    Cloned vm vm' (content vm.buffer c) c.length [j] [d] [] (c :: cs) := by
  have hnot : ∀ x, 0 < uses (c :: cs) x → x ∉ d := fun x hx hin => by
    have := h.fresh x hin
    omega
  refine ⟨h.live, by simp [hj], fun k hk => ?_, fun k hk => ?_, fun x hx => h.frame x (hnot x hx),
    fun x hx => ?_, fun x hx => absurd hx (Nat.lt_irrefl 0)⟩
  · rw [mem_singleton.mp hk]
    exact h.content_eq
  · rw [mem_singleton.mp hk]
    exact Nat.le_of_eq h.length_eq
  · rw [append_nil, uses_cons, if_neg (hnot x hx)]
    rfl

variable {cacheLineBytes x fuel src headEndOffset n : Nat} {simd : Simd}

section Short

variable {i : Nat}

theorem copies_spec (k : Nat) (h : Live vm (c :: cs)) (hi : c.head? = some i) (hfuel : c.length ≤ fuel) :
    ∃ vm' bufs ks, copies simd fuel k vm i = some (vm', bufs) ∧
      bufs.length = (vm.supply.copies vm.numaPool c.length k).2 ∧
      Cloned vm vm' (content vm.buffer c) c.length bufs ks [] (c :: cs) ∧
      Env vm vm' (vm.supply.copies vm.numaPool c.length k).1 := by
  induction k generalizing vm cs with
  | zero => exact ⟨vm, [], [], rfl, rfl, .none h _ _, rfl, rfl, rfl, fun _ => rfl⟩
  | succ k ih =>
    unfold copies Supply.copies
    by_cases hg : c.length ≤ vm.supply.available vm.numaPool
    · obtain ⟨vm1, d, j, hcopy, hj, hcopied, henv⟩ := bufferCopy_granted simd h hi hfuel hg
      have hstep := hcopied.cloned hj
      obtain ⟨vm2, bufs, ks, hrest, hlen, hcl, henv2⟩ :=
        ih (hcopied.live.perm (List.Perm.swap c d cs))
      have hsame : content vm1.buffer c = content vm.buffer c :=
        content_congr fun x hx => hstep.frame x (uses_pos.mpr ⟨c, mem_cons_self, hx⟩)
      rw [henv.supply, henv.numaPool] at hlen henv2
      rw [hsame] at hcl
      rw [hcopy, if_pos hg]
      dsimp only
      rw [hrest]
      exact ⟨vm2, j :: bufs, d :: ks, rfl, by rw [length_cons, hlen],
        hstep.append (hcl.perm (List.Perm.swap d c cs)), henv.trans henv2⟩
    · obtain ⟨vm1, hcopy, hlive, hkeep, henv⟩ :=
        bufferCopy_refused simd h hi hfuel (Nat.lt_of_not_le hg)
      rw [hcopy, if_neg hg]
      exact ⟨vm1, [], [], rfl, rfl, { Cloned.none hlive _ _ with frame := hkeep }, henv⟩

end Short

/-! ## Heads before a shared chain -/

section Heads

variable {mem : Memory} {offset : Int} {ds : List Nat}

variable (mem headEndOffset offset) in
theorem cloneHeads_spec (hnd : ds.Nodup) (hsrc : src ∉ ds) (x : Nat) :
    cloneHeads mem src headEndOffset offset ds x =
      if x ∈ ds then (mem src).cloneHead (mem x) src headEndOffset offset else mem x := by
  unfold cloneHeads
  induction ds generalizing mem with
  | nil => simp
  | cons d ds ih =>
    have hne : src ≠ d := fun he => hsrc (he ▸ mem_cons_self)
    rw [foldl_cons, ih _ (nodup_cons.mp hnd).2 fun hin => hsrc (mem_cons_of_mem d hin),
      update_of_ne hne]
    by_cases hx : x = d
    · rw [hx, if_neg (nodup_cons.mp hnd).1, update_self, if_pos mem_cons_self]
    · rw [update_of_ne hx]
      simp only [mem_cons, hx, false_or]

theorem setRefCounts_spec (hc : IsChain mem c) (hnd : c.Nodup) (hi : c.head? = some src)
    (hfuel : c.length ≤ fuel) :
    ∃ mem', setRefCounts n fuel mem src = some mem' ∧
      ∀ x, mem' x = if x ∈ c then (mem x).setRefCount n else mem x := by
  induction c generalizing mem src fuel with
  | nil => cases hi
  | cons a l ih =>
    obtain rfl : a = src := Option.some.inj hi
    obtain ⟨fuel, rfl⟩ : ∃ k, fuel = k + 1 := ⟨fuel - 1, by simp at hfuel; omega⟩
    obtain ⟨ha, hndl⟩ := nodup_cons.mp hnd
    have hupd : ∀ x, x ≠ a → update mem a ((mem a).setRefCount n) x = mem x := fun x hx =>
      update_of_ne hx _ _
    unfold setRefCounts
    rcases hc.tail with ⟨hnone, rfl⟩ | ⟨b, l', rfl, hsome, hlinks⟩
    · rw [hnone]
      refine ⟨_, rfl, fun x => ?_⟩
      by_cases hx : x = a
      · rw [hx, update_self, if_pos mem_cons_self]
      · rw [hupd x hx, if_neg (by simpa using hx)]
    · rw [hsome]
      have hlinks' : IsChain (update mem a ((mem a).setRefCount n)) (b :: l') :=
        hlinks.congr fun x hx => by rw [hupd x fun he => ha (he ▸ hx)]
      have hfuel' : (b :: l').length ≤ fuel := by
        simp only [length_cons] at hfuel ⊢
        omega
      obtain ⟨mem', hmem', heq⟩ := ih hlinks' hndl rfl hfuel'
      refine ⟨mem', hmem', fun x => ?_⟩
      rw [heq x]
      by_cases hx : x = a
      · rw [hx, if_neg ha, update_self, if_pos mem_cons_self]
      · rw [hupd x hx]
        simp only [mem_cons, hx, false_or]

theorem uses_heads : uses (ds.map (· :: c)) x = if x ∈ c then ds.length else ds.count x := by
  induction ds with
  | nil => simp
  | cons d ds ih =>
    rw [map_cons, uses_cons, ih]
    by_cases hx : x ∈ c
    · rw [if_pos hx, if_pos hx, if_pos (mem_cons_of_mem d hx), length_cons]
    · rw [if_neg hx, if_neg hx]
      by_cases hxd : x = d
      · rw [hxd, count_cons_self, if_pos mem_cons_self]
      · rw [count_cons_of_ne (Ne.symm hxd), if_neg (by simp [hxd, hx]), Nat.add_zero]

structure HeadsAt (mem mem' : Memory) (c ds : List Nat) (src headEndOffset : Nat) : Prop where
  head : ∀ d ∈ ds, mem' d = (mem src).cloneHead (mem d) src headEndOffset 0
  first : mem' src = ((mem src).advance headEndOffset).setRefCount ds.length
  rest : ∀ x ∈ c, x ≠ src → mem' x = (mem x).setRefCount ds.length
  other : ∀ x, x ∉ ds → x ∉ c → mem' x = mem x

variable (headEndOffset) in
theorem heads_made (hc : IsChain mem c) (hnd : c.Nodup) (hi : c.head? = some src)
    (hfuel : c.length ≤ fuel) (hds : ds.Nodup) (hdisj : ∀ x ∈ c, x ∉ ds) :
    ∃ mem', setRefCounts ds.length fuel
        (update (cloneHeads mem src headEndOffset 0 ds) src
          ((cloneHeads mem src headEndOffset 0 ds src).advance headEndOffset)) src = some mem' ∧
      HeadsAt mem mem' c ds src headEndOffset := by
  have hsrc : src ∈ c := mem_of_mem_head? hi
  have hheads := cloneHeads_spec headEndOffset mem 0 hds (hdisj src hsrc)
  rw [hheads src, if_neg (hdisj src hsrc)]
  generalize hmem2 : update (cloneHeads mem src headEndOffset 0 ds) src
    ((mem src).advance headEndOffset) = mem2
  have hat : mem2 src = (mem src).advance headEndOffset := by rw [← hmem2, update_self]
  have hof : ∀ x, x ≠ src → mem2 x =
      if x ∈ ds then (mem src).cloneHead (mem x) src headEndOffset 0 else mem x := fun x hx => by
    rw [← hmem2, update_of_ne hx, hheads x]
  have hc2 : IsChain mem2 c := hc.congr fun x hx => by
    by_cases hxs : x = src
    · rw [hxs, hat]
      rfl
    · rw [hof x hxs, if_neg (hdisj x hx)]
  obtain ⟨mem', hmem', heq⟩ := setRefCounts_spec (n := ds.length) hc2 hnd hi hfuel
  refine ⟨mem', hmem', fun d hd => ?_, ?_, fun x hx hxs => ?_, fun x hx hxc => ?_⟩
  · have hdc : d ∉ c := fun hin => hdisj d hin hd
    rw [heq d, if_neg hdc, hof d fun he => hdc (he ▸ hsrc), if_pos hd]
  · rw [heq src, if_pos hsrc, hat]
  · rw [heq x, if_pos hx, hof x hxs, if_neg (hdisj x hx)]
  · rw [heq x, if_neg hxc, hof x fun he => hxc (he ▸ hsrc), if_neg hx]

namespace HeadsAt

variable {mem' : Memory}

section

variable (h : HeadsAt mem mem' c ds src headEndOffset)
include h

theorem next?_eq (hx : x ∈ c) : (mem' x).next? = (mem x).next? := by
  by_cases hxs : x = src
  · rw [hxs, h.first]
    rfl
  · rw [h.rest x hx hxs]
    rfl

theorem refCount_eq (hx : x ∈ c) :
    (mem' x).refCount = if ds.length ≠ 0 then BitVec.ofNat 8 ds.length else (mem x).refCount := by
  by_cases hxs : x = src
  · rw [hxs, h.first]
    rfl
  · rw [h.rest x hx hxs]
    rfl

theorem bufferPoolIndex_eq (x : Nat) : (mem' x).bufferPoolIndex = (mem x).bufferPoolIndex := by
  by_cases hd : x ∈ ds
  · rw [h.head x hd]
    rfl
  by_cases hxs : x = src
  · rw [hxs, h.first]
    rfl
  · by_cases hx : x ∈ c
    · rw [h.rest x hx hxs]
      rfl
    · rw [h.other x hd hx]

theorem content_eq (hi : c.head? = some src)
    (hnd : c.Nodup) (hle : headEndOffset ≤ (mem src).currentLength) {d : Nat} (hd : d ∈ ds) :
    content mem' (d :: c) = content mem c := by
  obtain ⟨ss, rfl⟩ : ∃ ss, c = src :: ss := by
    cases c with
    | nil => cases hi
    | cons a l => exact ⟨l, by rw [Option.some.inj hi]⟩
  have hss : ∀ x ∈ ss, (mem' x).bytes = (mem x).bytes := fun x hx => by
    rw [h.rest x (mem_cons_of_mem src hx) fun he => (nodup_cons.mp hnd).1 (he ▸ hx)]
    rfl
  have hhead : (mem' d).bytes = window (mem src).data (mem src).currentData headEndOffset := by
    rw [h.head d hd]
    exact window_blit
  have hfirst : (mem' src).bytes = window (mem src).data ((mem src).currentData + headEndOffset)
      ((mem src).currentLength - headEndOffset) := by
    rw [h.first]
    rfl
  unfold content
  rw [flatMap_cons, flatMap_cons, flatMap_congr hss, hhead, hfirst,
    ← append_assoc, ← window_add, Nat.add_sub_cancel' hle]
  rfl

theorem shared (hs : Shared mem (c :: cs))
    (hi : c.head? = some src) (hapart : ∀ x ∈ c, uses cs x = 0) (hpos : ds ≠ []) (hle : ds.length ≤ 256)
    (hnd : ds.Nodup) (hfresh : ∀ d ∈ ds, uses (c :: cs) d = 0) (hone : ∀ d ∈ ds, (mem d).refCount = 1) :
    Shared mem' (ds.map (· :: c) ++ cs) := by
  have hc := hs.chain c mem_cons_self
  have hlen : ds.length ≠ 0 := fun he => hpos (length_eq_zero_iff.mp he)
  have hcs : ∀ x, uses (c :: cs) x = uses cs x + if x ∈ c then 1 else 0 := uses_cons c cs
  have hdc : ∀ d ∈ ds, d ∉ c ∧ uses cs d = 0 := fun d hd => by
    have := hfresh d hd
    rw [hcs] at this
    refine ⟨fun hin => ?_, by omega⟩
    rw [if_pos hin] at this
    omega
  have hkeep : ∀ x, 0 < uses cs x → x ∉ ds ∧ x ∉ c := fun x hx =>
    ⟨fun hin => by have := (hdc x hin).2; omega, fun hin => by have := hapart x hin; omega⟩
  have huses : ∀ x, uses (ds.map (· :: c) ++ cs) x =
      (if x ∈ c then ds.length else ds.count x) + uses cs x := fun x => by
    rw [uses_append, uses_heads]
  refine ⟨fun k hk => ?_, fun k hk => ?_, fun x hx => ?_, fun x => ?_, fun k hk x hx => ?_⟩
  · rcases mem_append.mp hk with hk | hk
    · obtain ⟨d, hd, rfl⟩ := mem_map.mp hk
      have hc' : IsChain mem' c := hc.congr fun x hx => h.next?_eq hx
      obtain ⟨ss, rfl⟩ : ∃ ss, c = src :: ss := by
        cases c with
        | nil => cases hi
        | cons a l => exact ⟨l, by rw [Option.some.inj hi]⟩
      refine ⟨?_, hc'⟩
      dsimp only
      rw [h.head d hd]
      exact if_pos (by simp [Buffer.hasNext, Buffer.cloneHead, nextPresent])
    · refine (hs.chain k (mem_cons_of_mem c hk)).congr fun x hx => ?_
      obtain ⟨hxd, hxc⟩ := hkeep x (uses_pos.mpr ⟨k, hk, hx⟩)
      rw [h.other x hxd hxc]
  · rcases mem_append.mp hk with hk | hk
    · obtain ⟨d, hd, rfl⟩ := mem_map.mp hk
      exact nodup_cons.mpr ⟨(hdc d hd).1, hs.nodup c mem_cons_self⟩
    · exact hs.nodup k (mem_cons_of_mem c hk)
  · rw [huses] at hx ⊢
    by_cases hxc : x ∈ c
    · rw [h.refCount_eq hxc, if_pos hlen, if_pos hxc, hapart x hxc, Nat.add_zero]
    rw [if_neg hxc] at hx ⊢
    by_cases hxd : x ∈ ds
    · rw [h.head x hxd, count_eq_one_of_mem hnd hxd, (hdc x hxd).2]
      exact hone x hxd
    · rw [h.other x hxd hxc, count_eq_zero.mpr hxd, Nat.zero_add]
      rw [count_eq_zero.mpr hxd] at hx
      rw [hs.refCount x (by rw [hcs]; omega), hcs, if_neg hxc, Nat.add_zero]
  · rw [huses]
    by_cases hxc : x ∈ c
    · rw [if_pos hxc, hapart x hxc]
      exact hle
    rw [if_neg hxc]
    have h1 := hs.uses_le x
    rw [hcs] at h1
    by_cases hxd : x ∈ ds
    · rw [count_eq_one_of_mem hnd hxd, (hdc x hxd).2]
      decide
    · rw [count_eq_zero.mpr hxd]
      omega
  · rw [huses]
    rcases mem_append.mp hk with hk | hk
    · obtain ⟨d, hd, rfl⟩ := mem_map.mp hk
      obtain rfl : d = x := Option.some.inj hx
      rw [if_neg (hdc d hd).1, count_eq_one_of_mem hnd hd, (hdc d hd).2]
    have hpos := uses_pos.mpr ⟨k, hk, mem_of_mem_head? hx⟩
    have h1 := hs.head k (mem_cons_of_mem c hk) x hx
    obtain ⟨hxd, hxc⟩ := hkeep x hpos
    rw [hcs, if_neg hxc] at h1
    rw [if_neg hxc, count_eq_zero.mpr hxd, Nat.zero_add]
    exact h1

end

end HeadsAt

end Heads

/-! ## One round -/

/-- What a round leaves of the chain if it makes no clone. -/
structure Advanced (vm vm' : Vm) (c : List Nat) (src headEndOffset : Nat) : Prop where
  first : vm'.buffer src = (vm.buffer src).advance headEndOffset
  rest : ∀ x ∈ c, x ≠ src → vm'.buffer x = vm.buffer x

/-- **One round.** As many clones as the supply is enough for; without any, the chain begins after the
head. -/
theorem clone256_spec (h : Live vm (c :: cs)) (hi : c.head? = some src) (hfuel : c.length ≤ fuel)
    (hapart : ∀ x ∈ c, uses cs x = 0) (hle : headEndOffset ≤ (vm.buffer src).currentLength) (hn : 1 ≤ n)
    (hn256 : n ≤ 256) :
    ∃ vm' bufs ks lost,
      clone256 simd cacheLineBytes fuel vm src n headEndOffset 0 = some (vm', bufs) ∧
      bufs.length = (vm.supply.clones vm.numaPool
        (decide ((vm.buffer src).currentLength ≤ headEndOffset + cacheLineBytes * 2)) c.length
        (vm.buffer src).bufferPoolIndex n).2 ∧
      Env vm vm' (vm.supply.clones vm.numaPool
        (decide ((vm.buffer src).currentLength ≤ headEndOffset + cacheLineBytes * 2)) c.length
        (vm.buffer src).bufferPoolIndex n).1 ∧
      Cloned vm vm' (content vm.buffer c) (c.length + 1) bufs ks lost cs ∧
      (bufs ≠ [] → ∀ x ∈ c, 0 < uses ks x) ∧
      (bufs = [] → lost = [c] ∧ Advanced vm vm' c src headEndOffset) := by
  have hkeep : ∀ x, 0 < uses cs x → x ∉ c := fun x hx hin => by
    have := hapart x hin
    omega
  have hself : Cloned vm vm (content vm.buffer c) c.length [src] [c] [] cs :=
    ⟨h, by simp [hi], fun k hk => by rw [mem_singleton.mp hk],
      fun k hk => Nat.le_of_eq (by rw [mem_singleton.mp hk]), fun _ _ => rfl, fun x hx => by
        rw [append_nil, uses_cons, if_neg (hkeep x hx)]
        rfl, fun x hx => absurd hx (Nat.lt_irrefl 0)⟩
  have hfirst : ∀ ks', ∀ x ∈ c, 0 < uses (c :: ks') x := fun ks' x hx =>
    uses_pos.mpr ⟨c, mem_cons_self, hx⟩
  unfold clone256 Supply.clones
  dsimp only
  by_cases hshort : (vm.buffer src).currentLength ≤ headEndOffset + cacheLineBytes * 2
  · -- a short first buffer
    obtain ⟨vm', bufs, ks, hcopies, hlen, hcl, henv⟩ := copies_spec (n - 1) h hi hfuel
    rw [if_pos hshort, if_neg (by simp), hcopies, decide_eq_true hshort, if_pos rfl]
    exact ⟨vm', src :: bufs, c :: ks, [], rfl, by rw [length_cons, hlen], henv,
      (hself.append hcl).mono (Nat.le_succ _), fun _ => hfirst ks, fun hnil => by cases hnil⟩
  · rw [if_neg hshort, decide_eq_false hshort]
    by_cases hone : n = 1
    · rw [if_pos ⟨hone, rfl⟩, if_pos hone]
      exact ⟨vm, [src], [c], [], rfl, rfl, ⟨rfl, rfl, rfl, fun _ => rfl⟩, hself.mono (Nat.le_succ _),
        fun _ => hfirst [], fun hnil => by cases hnil⟩
    -- heads of their own
    rw [if_neg fun hand => hone hand.1, if_neg hone]
    obtain ⟨as, vm1, halloc, hlen, hlive, henv, hbuf, -, -, hmem, hfresh, hnot⟩ :=
      h.allocated
    rw [halloc]
    dsimp only
    have hdisj : ∀ x ∈ c, x ∉ as := fun x hx hin => by
      have := hfresh x hin
      rw [uses_cons, if_pos hx] at this
      omega
    have hnd : as.Nodup := nodup_of_live hlive
    have hfree : ∀ p, ∀ x ∈ vm1.free p, x ∉ as ∧ x ∉ c := fun p x hx =>
      ⟨hnot p x hx, fun hc =>
        hlive.apart x (uses_pos.mpr ⟨c, mem_append_right _ mem_cons_self, hc⟩) p hx⟩
    obtain ⟨mem', hmem', hat⟩ := heads_made headEndOffset
      (h.shared.chain c mem_cons_self) (h.shared.nodup c mem_cons_self) hi hfuel hnd hdisj
    rw [hbuf, hmem']
    have hframe : ∀ x, 0 < uses cs x → mem' x = vm.buffer x := fun x hx => by
      refine hat.other x (fun hin => ?_) (hkeep x hx)
      have := hfresh x hin
      rw [uses_cons] at this
      omega
    have henv' : Env vm { vm1 with buffer := mem' } (vm.supply.spend (vm.buffer src).bufferPoolIndex
        (min n (vm.supply.available (vm.buffer src).bufferPoolIndex))) :=
      ⟨henv.numaPool, henv.defaultDataSize, henv.supply, hat.bufferPoolIndex_eq⟩
    by_cases hnil : as = []
    · subst hnil
      have hs := h.shared
      have hshared : Shared mem' (c :: cs) := by
        refine ⟨fun k hk => (hs.chain k hk).congr fun x _ => ?_, hs.nodup,
          fun x hx => Eq.trans ?_ (hs.refCount x hx), hs.uses_le, hs.head⟩ <;> by_cases hx : x ∈ c
        · exact hat.next?_eq hx
        · rw [hat.other x (by simp) hx]
        · rw [hat.refCount_eq hx, if_neg (by simp)]
        · rw [hat.other x (by simp) hx]
      refine ⟨_, [], [], [c], rfl, hlen, henv', ⟨?_, rfl, fun k hk => (by cases hk),
        fun k hk => (by cases hk), hframe, fun x hx => ?_, fun _ _ => rfl⟩, fun hne => absurd rfl hne,
        fun _ => ⟨rfl, ?_⟩⟩
      · exact hlive.rebuild rfl
          (fun p x hx => by rw [hbuf]; exact hat.other x (by simp) (hfree p x hx).2) hshared
          fun x hx => hx
      · rw [nil_append, uses_cons, if_neg (hkeep x hx)]
        rfl
      · exact ⟨hat.first, hat.rest⟩
    · have hshared : Shared mem' (as.map (· :: c) ++ cs) := by
        refine hat.shared h.shared hi hapart hnil (by omega) hnd hfresh fun d hd => ?_
        exact (h.clean _ d (hmem d hd)).refCount
      refine ⟨_, as, as.map (· :: c), [], rfl, hlen, henv', ⟨?_, ?_, fun k hk => ?_, fun k hk => ?_,
        hframe, fun x hx => ?_, fun x hx => absurd hx (Nat.lt_irrefl 0)⟩, fun _ x hx => ?_,
        fun hne => absurd hne hnil⟩
      · rw [append_nil]
        refine hlive.rebuild rfl (fun p x hx => ?_) hshared fun x hx => ?_
        · rw [hbuf]
          exact hat.other x (hfree p x hx).1 (hfree p x hx).2
        rw [uses_append, uses_heads] at hx
        rw [uses_append, FreeState.uses_singletons, uses_cons]
        split at hx
        · rename_i hxc
          rw [if_pos hxc]
          omega
        · omega
      · rw [map_map]
        rfl
      · obtain ⟨d, hd, rfl⟩ := mem_map.mp hk
        exact hat.content_eq hi (h.shared.nodup c mem_cons_self) hle hd
      · obtain ⟨d, hd, rfl⟩ := mem_map.mp hk
        exact Nat.le_refl _
      · have hxd : x ∉ as := fun hin => by
          have := hfresh x hin
          rw [uses_cons] at this
          omega
        rw [append_nil, uses_heads, if_neg (hkeep x hx), count_eq_zero.mpr hxd]
      · rw [uses_heads, if_pos hx]
        exact length_pos_of_ne_nil hnil

/-! ## All rounds -/

theorem Live.forget (h : Live vm (c :: cs)) (hapart : ∀ x ∈ c, uses cs x = 0) : Live vm cs := by
  have hsame : ∀ x, 0 < uses cs x → uses (c :: cs) x = uses cs x := fun x hx => by
    rw [uses_cons, if_neg fun hin => by have := hapart x hin; omega, Nat.add_zero]
  refine ⟨⟨fun k hk => h.shared.chain k (mem_cons_of_mem c hk),
    fun k hk => h.shared.nodup k (mem_cons_of_mem c hk), fun x hx => ?_, fun x => ?_,
    fun k hk x hx => ?_⟩, h.nodup, h.clean, fun x hx => h.apart x (by rw [hsame x hx]; exact hx)⟩
  · rw [← hsame x hx]
    exact h.shared.refCount x (by rw [hsame x hx]; exact hx)
  · have := h.shared.uses_le x
    rw [uses_cons] at this
    omega
  · rw [← hsame x (uses_pos.mpr ⟨k, hk, mem_of_mem_head? hx⟩)]
    exact h.shared.head k (mem_cons_of_mem c hk) x hx

theorem cloneRounds_spec (simd : Simd) (cacheLineBytes k : Nat) (h : Live vm (c :: cs)) (hi : c.head? = some src)
    (hfuel : c.length ≤ fuel) (hapart : ∀ x ∈ c, uses cs x = 0)
    (hle : headEndOffset ≤ (vm.buffer src).currentLength) :
    ∀ short, short = decide ((vm.buffer src).currentLength ≤ headEndOffset + cacheLineBytes * 2) →
    match vm.supply.rounds vm.numaPool short c.length k with
    | none => cloneRounds simd cacheLineBytes fuel src headEndOffset 0 k vm = none
    | some r => ∃ vm' bufs ks lost,
        cloneRounds simd cacheLineBytes fuel src headEndOffset 0 k vm = some (vm', bufs) ∧
        bufs.length = r.2 ∧ Env vm vm' r.1 ∧
        Cloned vm vm' (content vm.buffer c) (c.length + 1) bufs ks lost (c :: cs) := by
  intro short hshort
  induction k generalizing vm cs with
  | zero => exact ⟨vm, [], [], [], rfl, rfl, ⟨rfl, rfl, rfl, fun _ => rfl⟩, .none h _ _⟩
  | succ k ih =>
    unfold Supply.rounds cloneRounds
    by_cases hg : c.length ≤ vm.supply.available vm.numaPool
    · obtain ⟨vm1, d, j, hcopy, hj, hcopied, henv⟩ := bufferCopy_granted simd h hi hfuel hg
      have hstep := hcopied.cloned hj
      have hlenj := hcopied.currentLength src hi j hj
      have hdapart : ∀ x ∈ d, uses (c :: cs) x = 0 := hcopied.fresh
      obtain ⟨vm2, bufs, ks, lost, hclone, hlen, henv2, hcl, -, -⟩ := clone256_spec hcopied.live hj (hcopied.length_eq ▸ hfuel) hdapart
        (hlenj ▸ hle) (by decide) (Nat.le_refl 256)
      rw [henv.supply, henv.numaPool, hlenj, hcopied.length_eq, ← hshort, hcopied.pool j hj] at hlen henv2
      rw [hcopied.content_eq, hcopied.length_eq] at hcl
      have hframe : ∀ x, 0 < uses (c :: cs) x → vm2.buffer x = vm.buffer x := fun x hx =>
        (hcl.frame x hx).trans (hstep.frame x hx)
      have hcl' : Cloned vm vm2 (content vm.buffer c) (c.length + 1) bufs ks lost (c :: cs) :=
        { hcl with frame := hframe }
      have hinc : ∀ x ∈ c, 0 < uses (c :: cs) x := fun x hx => uses_pos.mpr ⟨c, mem_cons_self, hx⟩
      have hsrc := hframe src (hinc src (mem_of_mem_head? hi))
      have hp : (ks ++ lost ++ c :: cs).Perm (c :: (ks ++ lost ++ cs)) := perm_middle
      have hrest := ih (hcl.live.perm hp) (fun x hx => by
          have h1 := hcl.apart x (hinc x hx)
          rw [uses_append, h1, hapart x hx])
        (by rw [hsrc]; exact hle) (by rw [hsrc]; exact hshort)
      rw [hcopy, if_pos hg]
      dsimp only
      rw [hclone]
      dsimp only
      rw [(henv.trans henv2).supply, (henv.trans henv2).numaPool] at hrest
      cases hr : ((vm.supply.spend vm.numaPool c.length).clones vm.numaPool short c.length vm.numaPool
          256).1.rounds vm.numaPool short c.length k with
      | none =>
        rw [hr] at hrest
        rw [show cloneRounds simd cacheLineBytes fuel src headEndOffset 0 k vm2 = none from hrest]
        rfl
      | some r =>
        rw [hr] at hrest
        obtain ⟨vm3, bufs', ks', lost', hrun, hlen', henv3, hcl3⟩ := hrest
        rw [content_congr fun x hx => hframe x (hinc x hx)] at hcl3
        rw [hrun]
        exact ⟨vm3, bufs ++ bufs', ks ++ ks', lost ++ lost', rfl,
          by rw [length_append, hlen, hlen'], (henv.trans henv2).trans henv3,
          hcl'.append (hcl3.perm hp.symm)⟩
    · obtain ⟨vm1, hcopy, -⟩ := bufferCopy_refused simd h hi hfuel (Nat.lt_of_not_le hg)
      rw [hcopy, if_neg hg]

/-- The first buffer of a chain decides whether the clones are copies. -/
def isShort (cacheLineBytes : Nat) (vm : Vm) (src headEndOffset : Nat) : Bool :=
  decide ((vm.buffer src).currentLength ≤ headEndOffset + cacheLineBytes * 2)

/-- **The call.** The clones are as many as the supply is enough for. If the last round makes none, the chain
itself is in use. -/
theorem bufferClone_spec (simd : Simd) (cacheLineBytes : Nat) {n : Nat} (h : Live vm [c]) (hi : c.head? = some src)
    (hfuel : c.length ≤ fuel) (hle : headEndOffset ≤ (vm.buffer src).currentLength) (hn : 1 ≤ n) :
    match vm.supply.allClones vm.numaPool (isShort cacheLineBytes vm src headEndOffset) c.length
      (vm.buffer src).bufferPoolIndex n with
    | none => bufferClone simd cacheLineBytes fuel vm src n headEndOffset = none
    | some r => ∃ vm' bufs ks lost,
        bufferClone simd cacheLineBytes fuel vm src n headEndOffset = some (vm', bufs) ∧
        bufs.length = r.2 + r.1 ∧
        (∀ x, (vm'.buffer x).bufferPoolIndex = (vm.buffer x).bufferPoolIndex) ∧
        Cloned vm vm' (content vm.buffer c) (c.length + 1) bufs ks lost [] ∧
        (r.1 ≠ 0 → ∀ x ∈ c, 0 < uses ks x) ∧
        (r.1 = 0 → c ∈ lost ∧ Advanced vm vm' c src headEndOffset) := by
  have hinc : ∀ x ∈ c, 0 < uses [c] x := fun x hx => uses_pos.mpr ⟨c, mem_cons_self, hx⟩
  have hrounds := cloneRounds_spec simd cacheLineBytes ((n - 1) / 256) h hi hfuel
    (fun _ _ => rfl) hle _ rfl
  unfold Supply.allClones bufferClone cloneAtOffset isShort
  cases hr : vm.supply.rounds vm.numaPool
      (decide ((vm.buffer src).currentLength ≤ headEndOffset + cacheLineBytes * 2)) c.length
      ((n - 1) / 256) with
  | none =>
    rw [hr] at hrounds
    rw [show cloneRounds simd cacheLineBytes fuel src headEndOffset 0 ((n - 1) / 256) vm = none
      from hrounds]
    rfl
  | some r =>
    rw [hr] at hrounds
    obtain ⟨vm1, bufs, ks, lost, hrun, hlen, henv, hcl⟩ := hrounds
    have hsame : ∀ x ∈ c, vm1.buffer x = vm.buffer x := fun x hx => hcl.frame x (hinc x hx)
    have hsrc := hsame src (mem_of_mem_head? hi)
    have hapart : ∀ x ∈ c, uses (ks ++ lost ++ []) x = 0 := fun x hx => by
      rw [append_nil]
      exact hcl.apart x (hinc x hx)
    have hle' : headEndOffset ≤ (vm1.buffer src).currentLength := by
      rw [hsrc]
      exact hle
    have hlive : Live vm1 (c :: (ks ++ lost ++ [])) := hcl.live.perm perm_middle
    obtain ⟨vm2, bufs', ks', lost', hclone, hlen', henv', hcl', hused, hnone⟩ := clone256_spec
      (n := n - 256 * ((n - 1) / 256)) hlive hi hfuel hapart hle' (by omega) (by omega)
    rw [henv.supply, henv.numaPool, hsrc] at hlen'
    rw [content_congr hsame] at hcl'
    have hfirst : Cloned vm vm1 (content vm.buffer c) (c.length + 1) bufs ks lost [] :=
      ⟨hlive.forget hapart, hcl.heads, hcl.content_eq, hcl.length_le,
        fun x hx => absurd hx (Nat.lt_irrefl 0), fun x hx => absurd hx (Nat.lt_irrefl 0),
        hcl.lost_apart⟩
    rw [hrun]
    dsimp only [Option.map_some]
    rw [hclone]
    refine ⟨vm2, bufs ++ bufs', ks ++ ks', lost ++ lost', rfl, ?_, (henv.trans henv').pools,
      hfirst.append hcl', fun hpos x hx => ?_, fun hzero => ?_⟩
    · rw [length_append, hlen, hlen']
    · rw [← hlen'] at hpos
      have := hused (fun hnil => hpos (by rw [hnil]; rfl)) x hx
      rw [uses_append]
      omega
    · rw [← hlen'] at hzero
      obtain ⟨rfl, hadv⟩ := hnone (length_eq_zero_iff.mp hzero)
      refine ⟨mem_append_right _ mem_cons_self, ?_, fun x hx hne => ?_⟩
      · rw [hadv.first, hsrc]
      · rw [hadv.rest x hx hne, hsame x hx]

end Vpp.Vlib
