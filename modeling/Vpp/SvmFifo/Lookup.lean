import Mathlib.Data.List.Nodup
import Vpp.SvmFifo.Chunks

/-!
# Chunk lookup of a fifo

The lookup trees of `svm_fifo.c`: chunks found by position when data is written past the tail or
read past the head. A tree is given by its nodes in key order, which is all that the search of
`f_find_node_rbtree` depends on; how the nodes are balanced is left out. A tree is filled lazily
along the chunks that are walked, and its entries go away as head and tail move on.

What the proofs follow is the run of chunks a tree holds: an initial part of the chunk list it
serves.
-/

namespace Vpp.SvmFifo

open Lib Lib.Blocks List
open Chunk (len)

/-- `rb_node_t`: the key and the chunk that `opaque` points at -/
structure RbNode where
  key : BitVec 32
  chunk : Nat
deriving DecidableEq, Repr

/-- `rb_tree_t`, and by chunk address whether `c->enq_rb_index` (or `deq_rb_index`) differs from
`RBTREE_TNIL_INDEX`. -/
structure Lookup where
  isInit : Bool
  nodes : List RbNode
  index : Nat → Bool

namespace Lookup

def empty (isInit : Bool) : Lookup := ⟨isInit, [], fun _ => false⟩

/-- `rb_tree_add_custom` with `f_pos_lt` -/
def rbTreeAddCustom (n : RbNode) : List RbNode → List RbNode
  | [] => [n]
  | x :: xs => if seqLt n.key x.key then n :: x :: xs else x :: rbTreeAddCustom n xs

def add (rt : Lookup) (c : Chunk) : Lookup :=
  { rt with
    nodes := rbTreeAddCustom ⟨c.startByte, c.addr⟩ rt.nodes
    index := Function.update rt.index c.addr true }

/-- `rb_tree_del_node` for a chunk that is in the tree -/
def del (rt : Lookup) (c : Chunk) : Lookup :=
  if rt.index c.addr then
    { rt with
      nodes := rt.nodes.eraseP fun n => n.chunk = c.addr
      index := Function.update rt.index c.addr false }
  else rt

@[simp] theorem isInit_del (rt : Lookup) (c : Chunk) : (rt.del c).isInit = rt.isInit := by
  unfold del
  split <;> rfl

/-- Forget the indices of chunks that are linked in again: `RBTREE_TNIL_INDEX` for each. -/
def reset (rt : Lookup) (cs : List Chunk) : Lookup :=
  { rt with index := fun a => rt.index a && !cs.any fun c => c.addr = a }

/-- `f_find_node_rbtree`: the node with the key `pos`, or its predecessor -/
def fFindNodeRbtree (rt : Lookup) (pos : BitVec 32) : Option RbNode :=
  (rt.nodes.takeWhile fun n => !seqLt pos n.key).getLast?

/-- `f_find_chunk_rbtree` -/
def fFindChunkRbtree (rt : Lookup) (chunks : List Chunk) (pos : BitVec 32) : Option Nat := do
  if rt.isInit then
    let n ← rt.fFindNodeRbtree pos
    let c ← (fCptr chunks (some n.chunk)).head?
    if c.fChunkIncludesPos pos then some c.addr else none
  else none

end Lookup

/-- The loop of `f_update_ooo_enq` and `f_update_ooo_deq`: chunks are added up to the one that holds
`end_pos`, unless one is in the tree already. -/
def registerLoop (startPos endPos : BitVec 32) : List Chunk → Lookup → Option Nat →
    Lookup × Option Nat
  | [], rt, cached => (rt, cached)
  | c :: cs, rt, cached =>
    if rt.index c.addr then (rt, cached)
    else
      let cached := if c.fChunkIncludesPos startPos then some c.addr else cached
      if c.fChunkIncludesPos endPos then (rt.add c, cached)
      else registerLoop startPos endPos cs (rt.add c) cached

/-- The same functions from the chunk `c` they start at. -/
def registerFrom (startPos endPos : BitVec 32) (cs : List Chunk) (rt : Lookup)
    (cached : Option Nat) : Option (Lookup × Option Nat) :=
  match cs with
  | [] => none
  | c :: cs =>
    let cached := if c.fChunkIncludesPos startPos then some c.addr else cached
    if c.fChunkIncludesPos endPos then some (rt, cached)
    else some (registerLoop startPos endPos cs rt cached)

/-- `f_update_ooo_enq` with the chunks from the tail chunk on, `f_update_ooo_deq` with those from the start
chunk on: the tree, and the cached pointer. -/
def fUpdateOoo (chunks first : List Chunk) (rt : Lookup) (cached : Option Nat)
    (startPos endPos : BitVec 32) : Option (Lookup × Option Nat) :=
  if rt.isInit then
    match rt.nodes, first with
    | [], [] => none
    | [], c :: _ => registerFrom startPos endPos first (rt.add c) cached
    | _ :: _, _ => do
      let cur ← rt.fFindNodeRbtree startPos
      registerFrom startPos endPos (fCptr chunks (some cur.chunk)) rt cached
  -- linear search if the tree is not initialised
  else some (rt, (first.find? (·.fChunkIncludesPos startPos)).map Chunk.addr)

/-- The loop of `f_lookup_clear_enq_chunks` and `f_lookup_clear_deq_chunks`: the tree, and the
chunks from the one that holds `end_pos` on. -/
def fLookupClearChunks (endPos : BitVec 32) : Lookup → List Chunk → Lookup × List Chunk
  | rt, [] => (rt, [])
  | rt, c :: cs =>
    if c.fChunkIncludesPos endPos then (rt, c :: cs) else fLookupClearChunks endPos (rt.del c) cs

/-- `f_lookup_clear_enq_chunks`; `oooEmpty` says that no out-of-order segment is left. -/
def fLookupClearEnqChunks (rt : Lookup) (start : List Chunk) (endPos : BitVec 32)
    (oooEmpty : Bool) : Lookup × List Chunk :=
  match fLookupClearChunks endPos rt start with
  | (rt, c :: cs) => (if oooEmpty then rt.del c else rt, c :: cs)
  | (rt, []) => (rt, [])

/-! ## The run of chunks a tree holds -/

def node (c : Chunk) : RbNode := ⟨c.startByte, c.addr⟩

/-- The tree holds the chunks of `run` in order, and of the chunks `all` of the fifo these are the
ones with an index. -/
structure Registers (rt : Lookup) (all run : List Chunk) : Prop where
  nodes : rt.nodes = run.map node
  index : ∀ c ∈ all, rt.index c.addr = true ↔ c ∈ run
  off : rt.isInit = false → run = []

theorem Registers.empty (isInit : Bool) (all : List Chunk) :
    Registers (Lookup.empty isInit) all [] :=
  ⟨rfl, fun _ _ => by simp [Lookup.empty], fun _ => rfl⟩

variable {cached : Option Nat}

section

variable {rt : Lookup} {all run pre post cs : List Chunk} {c : Chunk} {base p e : Nat}

theorem eq_of_addr_eq (hnd : (all.map Chunk.addr).Nodup) {d : Chunk} (hc : c ∈ all) (hd : d ∈ all)
    (h : c.addr = d.addr) : c = d :=
  inj_on_of_nodup_map hnd hc hd h

theorem Registers.add (h : Registers rt all run) (hnd : (all.map Chunk.addr).Nodup)
    (hinit : rt.isInit = true) (hc : c ∈ all)
    (hlt : ∀ d ∈ run, seqLt c.startByte d.startByte = false) :
    Registers (rt.add c) all (run ++ [c]) := by
  have hnodes : ∀ l : List Chunk, (∀ d ∈ l, seqLt c.startByte d.startByte = false) →
      Lookup.rbTreeAddCustom ⟨c.startByte, c.addr⟩ (l.map node) = (l ++ [c]).map node := by
    intro l hl
    induction l with
    | nil => rfl
    | cons d l ih =>
      have hd : seqLt c.startByte (node d).key = false := hl d mem_cons_self
      rw [map_cons, Lookup.rbTreeAddCustom, if_neg (by simp [hd]),
        ih fun x hx => hl x (mem_cons_of_mem _ hx)]
      rfl
  refine ⟨?_, fun d hd => ?_, fun hoff => ?_⟩
  · show Lookup.rbTreeAddCustom _ rt.nodes = _
    rw [h.nodes, hnodes run hlt]
  · show Function.update rt.index c.addr true d.addr = true ↔ _
    by_cases he : d.addr = c.addr
    · simp [eq_of_addr_eq hnd hd hc he]
    · rw [Function.update_of_ne he, h.index d hd]
      have : d ≠ c := fun h => he (h ▸ rfl)
      simp [this]
  · exact absurd (hinit.symm.trans hoff) (by simp)

theorem Registers.del (h : Registers rt all (c :: run)) (hnd : (all.map Chunk.addr).Nodup)
    (hc : c ∈ all) (hrun : c ∉ run) : Registers (rt.del c) all run := by
  have hidx : rt.index c.addr = true := (h.index c hc).mpr mem_cons_self
  unfold Lookup.del
  rw [if_pos hidx]
  refine ⟨?_, fun d hd => ?_, fun hoff => absurd (h.off hoff) (by simp)⟩
  · rw [h.nodes, map_cons, eraseP_cons_of_pos (by simp [node])]
  show Function.update rt.index c.addr false d.addr = true ↔ _
  by_cases he : d.addr = c.addr
  · rw [he, eq_of_addr_eq hnd hd hc he]
    simpa using hrun
  · rw [Function.update_of_ne he, h.index d hd]
    have : d ≠ c := fun h => he (h ▸ rfl)
    simp [this]

theorem Registers.del_of_notMem (h : Registers rt all run) (hc : c ∈ all) (hrun : c ∉ run) :
    rt.del c = rt := by
  unfold Lookup.del
  rw [if_neg fun hidx => hrun ((h.index c hc).mp hidx)]

theorem Laid.mem (h : Laid base cs) (hc : c ∈ cs) :
    ∃ s, base ≤ s ∧ s + c.len ≤ base + total len cs ∧ c.startByte = wrap32 s := by
  obtain ⟨pre, post, rfl⟩ := append_of_mem hc
  obtain ⟨hs, -, -⟩ := (laid_append.mp h).2
  refine ⟨_, Nat.le_add_right _ _, ?_, hs⟩
  simp only [total_append, total_cons]
  omega

/-- **The registering loop** adds the chunks up to the one that holds `e`, and on its way finds the
one that holds `p`. -/
theorem registerLoop_spec (hreg : Registers rt all run) (hall : (all.map Chunk.addr).Nodup)
    (hinit : rt.isInit = true) (hsub : ∀ c ∈ cs, c ∈ all) (hnd : (run ++ cs).Nodup)
    (hl : Laid base (run ++ cs)) (ht : total len (run ++ cs) < 2 ^ 31) (hp : base ≤ p)
    (hpe : p ≤ e) (hpl : p < base + total len (run ++ cs))
    (hre : base + total len run ≤ e) (he : e ≤ base + total len (run ++ cs)) (cached : Option Nat) :
    ∃ rt', registerLoop (wrap32 p) (wrap32 e) cs rt cached =
        (rt', if base + total len run ≤ p then ptr (base + total len run) cs p
          else cached) ∧
      rt'.isInit = true ∧
      Registers rt' all (run ++ through len (base + total len run) cs e) := by
  induction cs generalizing run rt cached with
  | nil =>
    refine ⟨rt, ?_, hinit, by simpa [through] using hreg⟩
    rw [append_nil] at hpl
    rw [registerLoop, if_neg (by omega)]
  | cons c cs ih =>
    obtain ⟨-, hnd₂, hdis⟩ := nodup_append.mp hnd
    have hcrun : c ∉ run := fun h => hdis c h c mem_cons_self rfl
    have hidx : ¬ rt.index c.addr = true := fun h =>
      hcrun ((hreg.index c (hsub c mem_cons_self)).mp h)
    obtain ⟨hlr, hs, hpos, hlc⟩ := laid_append.mp hl
    simp only [total_append, total_cons] at ht he hpl
    have hadd : Registers (rt.add c) all (run ++ [c]) := by
      refine hreg.add hall hinit (hsub c mem_cons_self) fun d hd => ?_
      obtain ⟨s, h₁, h₂, hds⟩ := hlr.mem hd
      rw [hs, hds, seqLt_wrap32 (by omega) (by omega), decide_eq_false_iff_not]
      omega
    have hincp := fChunkIncludesPos_eq (p := p) hs (by omega) (by omega)
    have hince := fChunkIncludesPos_eq (p := e) hs (by omega) (by omega)
    rw [registerLoop, if_neg hidx]
    simp only [hincp, hince, decide_eq_true_eq]
    rw [through]
    by_cases hec : e < base + total len run + c.len
    · rw [if_pos ⟨hre, hec⟩, if_pos hec]
      refine ⟨rt.add c, ?_, hinit, hadd⟩
      by_cases hpc : base + total len run ≤ p
      · rw [if_pos ⟨hpc, by omega⟩, if_pos hpc, ptr, seek, if_pos (by omega)]
        rfl
      · rw [if_neg fun h => hpc h.1, if_neg hpc]
    · rw [if_neg fun h => hec h.2, if_neg hec]
      have happ : run ++ c :: cs = (run ++ [c]) ++ cs := by simp
      have htot : base + total len (run ++ [c]) = base + total len run + c.len := by
        rw [total_concat, add_assoc]
      obtain ⟨rt', hrt', hinit', hreg'⟩ := ih hadd hinit
        (fun d hd => hsub d (mem_cons_of_mem _ hd)) (happ ▸ hnd) (happ ▸ hl)
        (by rw [← happ]; simp only [total_append, total_cons]; omega)
        (by simp only [total_append, total_cons]; omega) (by omega)
        (by rw [← happ]; simp only [total_append, total_cons]; omega)
        (if base + total len run ≤ p ∧ p < base + total len run + c.len then some c.addr
          else cached)
      rw [htot] at hrt' hreg'
      refine ⟨rt', ?_, hinit', by simpa using hreg'⟩
      rw [hrt', Prod.mk.injEq]
      refine ⟨rfl, ?_⟩
      by_cases h₁ : base + total len run + c.len ≤ p
      · rw [if_pos h₁, if_pos (by omega), ptr, ptr, seek, if_neg (by omega)]
      by_cases h₂ : base + total len run ≤ p
      · rw [if_neg h₁, if_pos ⟨h₂, by omega⟩, if_pos h₂, ptr, seek, if_pos (by omega)]
        rfl
      · rw [if_neg h₁, if_neg fun h => h₂ h.1, if_neg h₂]

theorem fFindNodeRbtree_spec (hl : Laid base run) (ht : total len run < 2 ^ 31)
    (hrun : run ≠ []) (hp : base ≤ p) (hp' : p < base + 2 ^ 31) :
    ∃ r₁ k r₂, run = r₁ ++ k :: r₂ ∧
      ((run.map node).takeWhile fun n => !seqLt (wrap32 p) n.key).getLast? = some (node k) ∧
      base + total len r₁ ≤ p ∧ (r₂ = [] ∨ p < base + total len r₁ + k.len) := by
  induction run generalizing base with
  | nil => exact absurd rfl hrun
  | cons c run ih =>
    obtain ⟨hs, hpos, hl⟩ := hl
    rw [total_cons] at ht
    have hc : (!seqLt (wrap32 p) (node c).key) = true := by
      show (!seqLt (wrap32 p) c.startByte) = true
      rw [hs, seqLt_wrap32 (by omega) (by omega)]
      simpa using hp
    rw [map_cons, takeWhile_cons, if_pos hc, getLast?_cons]
    cases run with
    | nil => exact ⟨[], c, [], rfl, rfl, by simpa using hp, .inl rfl⟩
    | cons d run =>
      by_cases hpc : p < base + c.len
      · have hd : (!seqLt (wrap32 p) (node d).key) = false := by
          show (!seqLt (wrap32 p) d.startByte) = false
          rw [hl.1, seqLt_wrap32 (by omega) (by omega)]
          simpa using hpc
        rw [map_cons, takeWhile_cons, if_neg (by simp [hd])]
        exact ⟨[], c, d :: run, rfl, rfl, by simpa using hp, .inr (by simpa using hpc)⟩
      · obtain ⟨r₁, k, r₂, heq, hlast, h₁, h₂⟩ := ih hl (by omega) (by simp) (by omega) (by omega)
        rw [hlast]
        refine ⟨c :: r₁, k, r₂, by rw [heq]; rfl, rfl, ?_, ?_⟩
        · rw [total_cons]
          omega
        · rw [total_cons]
          exact h₂.imp_right fun h => by omega

/-- **Registering from the last chunk of the run on.** -/
theorem registerFrom_last {k : Chunk} {r rest : List Chunk} (hreg : Registers rt all (r ++ [k]))
    (hall : (all.map Chunk.addr).Nodup) (hinit : rt.isInit = true) (hsub : ∀ c ∈ (r ++ [k]) ++ rest, c ∈ all)
    (hnd : ((r ++ [k]) ++ rest).Nodup) (hl : Laid base ((r ++ [k]) ++ rest))
    (ht : total len ((r ++ [k]) ++ rest) < 2 ^ 31) (hp : base + total len r ≤ p) (hpe : p ≤ e)
    (hpl : p < base + total len ((r ++ [k]) ++ rest)) (he : e ≤ base + total len ((r ++ [k]) ++ rest)) :
    ∃ rt', registerFrom (wrap32 p) (wrap32 e) (k :: rest) rt cached =
        some (rt', ptr base ((r ++ [k]) ++ rest) p) ∧
      rt'.isInit = true ∧ Registers rt' all (through len base ((r ++ [k]) ++ rest) e) := by
  have hk := (laid_append.mp (laid_append.mp hl).1).2.1
  have htot : base + total len (r ++ [k]) = base + total len r + k.len := by
    rw [total_concat, add_assoc]
  rw [total_append] at ht he hpl
  have hincp := fChunkIncludesPos_eq (p := p) hk (by omega) (by omega)
  have hince := fChunkIncludesPos_eq (p := e) hk (by omega) (by omega)
  have hptr : p < base + total len r + k.len → ptr base ((r ++ [k]) ++ rest) p = some k.addr := by
    intro h
    rw [append_assoc, ptr, singleton_append, seek_split hp h]
    rfl
  unfold registerFrom
  simp only [hincp, hince, decide_eq_true_eq]
  by_cases hek : e < base + total len r + k.len
  · rw [if_pos ⟨by omega, hek⟩, if_pos ⟨hp, by omega⟩, hptr (by omega)]
    refine ⟨rt, rfl, hinit, ?_⟩
    rwa [append_assoc, singleton_append, through_split (by omega) hek]
  rw [if_neg fun h => hek h.2]
  obtain ⟨rt', hrt', hinit', hreg'⟩ := registerLoop_spec hreg hall hinit
    (fun c hc => hsub c (mem_append_right _ hc)) hnd hl (by rw [total_append]; omega)
    (by omega) hpe (by rw [total_append]; omega) (by omega) (by rw [total_append]; omega)
    (if base + total len r ≤ p ∧ p < base + total len r + k.len then some k.addr
      else cached)
  refine ⟨rt', ?_, hinit', ?_⟩
  · rw [hrt']
    by_cases hpk : p < base + total len r + k.len
    · rw [if_neg (by omega), if_pos ⟨hp, hpk⟩, hptr hpk]
    · rw [if_pos (by omega), ptr, ptr, seek_append_right (by omega)]
  · rwa [through_append_right (by omega)]

/-- **`f_update_ooo_enq` and `f_update_ooo_deq`** find the chunk that holds `p`. The run in the tree grows up
to the chunk that holds `e`, unless it went past `p` already. -/
theorem fUpdateOoo_spec {front rest : List Chunk} (hreg : Registers rt all run)
    (hall : (all.map Chunk.addr).Nodup) (hsplit : all = front ++ (run ++ rest)) (hl : Laid base (run ++ rest))
    (ht : total len (run ++ rest) < 2 ^ 31) (hp : base ≤ p) (hpl : p < base + total len (run ++ rest))
    (hpe : p ≤ e) (he : e ≤ base + total len (run ++ rest)) :
    ∃ rt' run', fUpdateOoo all (run ++ rest) rt cached (wrap32 p) (wrap32 e) =
        some (rt', ptr base (run ++ rest) p) ∧
      rt'.isInit = rt.isInit ∧ Registers rt' all run' ∧ run' <+: run ++ rest ∧
      (rt.isInit = true → run <+: through len base (run ++ rest) p →
        run' = through len base (run ++ rest) e) ∧
      (¬ run <+: through len base (run ++ rest) p → run' = run) := by
  have hnd : (run ++ rest).Nodup :=
    (nodup_append.mp (hsplit ▸ List.Nodup.of_map _ hall)).2.1
  have hsub : ∀ c ∈ run ++ rest, c ∈ all := fun c hc => hsplit ▸ mem_append_right _ hc
  unfold fUpdateOoo
  cases hinit : rt.isInit with
  | false =>
    rw [find?_includesPos hl hp (by omega) ht]
    exact ⟨rt, run, rfl, hinit, hreg, prefix_append _ _, fun h => absurd h (by simp),
      fun _ => rfl⟩
  | true =>
    by_cases hrun : run = []
    · -- the tree is empty: the first chunk goes in
      subst hrun
      have hne : rest ≠ [] := by
        rintro rfl
        simp only [append_nil, total_nil] at hpl
        omega
      obtain ⟨c, rest, rfl⟩ := exists_cons_of_ne_nil hne
      have hc : c ∈ all := hsub c mem_cons_self
      have hadd : Registers (rt.add c) all ([] ++ [c]) :=
        hreg.add hall hinit hc fun _ h => nomatch h
      obtain ⟨rt', hrt', hinit', hreg'⟩ := registerFrom_last hadd hall hinit hsub hnd hl ht
        (by simpa using hp) hpe hpl he
      rw [hreg.nodes]
      exact ⟨rt', _, hrt', hinit', hreg', through_prefix, fun _ _ => rfl,
        fun h => absurd (List.nil_prefix ..) h⟩
    obtain ⟨r₁, k, r₂, rfl, hfind, h₁, h₂⟩ := fFindNodeRbtree_spec (laid_append.mp hl).1
      (by rw [total_append] at ht; omega) hrun hp (by omega)
    obtain ⟨n, ns, hn⟩ : ∃ n ns, rt.nodes = n :: ns :=
      exists_cons_of_ne_nil (by rw [hreg.nodes]; simp)
    have hfind' : rt.fFindNodeRbtree (wrap32 p) = some (node k) := by
      rw [Lookup.fFindNodeRbtree, hreg.nodes]
      exact hfind
    have hall' : all = (front ++ r₁) ++ (k :: (r₂ ++ rest)) := by
      rw [hsplit]
      simp
    have hcptr : fCptr all (some (node k).chunk) = k :: (r₂ ++ rest) := by
      have := fCptr_fCsptr (hall' ▸ hall)
      rw [hall']
      exact this
    simp only [hn, hfind', Option.bind_eq_bind, Option.bind_some, hcptr]
    cases r₂ with
    | nil =>
      have happ : r₁ ++ [k] ++ rest = r₁ ++ k :: rest := by simp
      obtain ⟨rt', hrt', hinit', hreg'⟩ := registerFrom_last hreg hall hinit hsub hnd hl ht h₁ hpe hpl
        he
      refine ⟨rt', _, hrt', hinit', hreg', through_prefix, fun _ _ => rfl, fun h => absurd ?_ h⟩
      by_cases hpk : p < base + total len r₁ + k.len
      · have hthrough : through len base (r₁ ++ [k] ++ rest) p = r₁ ++ [k] := by
          rw [happ, through_split h₁ hpk]
        exact hthrough.symm ▸ prefix_rfl
      · rw [through_append_right (by rw [total_concat]; omega)]
        exact prefix_append _ _
    | cons d r₂ =>
      -- the chunk that holds `p` is followed by one that is in the tree already
      have hpk : p < base + total len r₁ + k.len := h₂.resolve_left (by simp)
      have happ : r₁ ++ k :: d :: r₂ ++ rest = r₁ ++ k :: (d :: r₂ ++ rest) := by simp
      rw [happ] at hl ht he hpl hsub hnd ⊢
      have hk := (laid_append.mp hl).2.1
      have hidx : rt.index d.addr = true :=
        (hreg.index d (hsub d (by simp))).mpr (by simp)
      simp only [total_append, total_cons] at ht he
      have hincp : k.fChunkIncludesPos (wrap32 p) = true := by
        rw [fChunkIncludesPos_eq hk (by omega) (by omega)]
        exact decide_eq_true ⟨h₁, hpk⟩
      have hptr : ptr base (r₁ ++ k :: (d :: r₂ ++ rest)) p = some k.addr := by
        rw [ptr, seek_split h₁ hpk]
        rfl
      refine ⟨rt, r₁ ++ k :: d :: r₂, ?_, hinit, hreg, ⟨rest, happ⟩, fun _ h => ?_, fun _ => rfl⟩
      · rw [hptr]
        unfold registerFrom
        simp only [cons_append, registerLoop, if_true]
        split <;> rfl
      · rw [through_split h₁ hpk] at h
        have := h.length_le
        simp at this

theorem fLookupClearChunks_spec (hreg : Registers rt all run) (hall : (all.map Chunk.addr).Nodup)
    (hrun : run <+: cs) (hsub : ∀ c ∈ cs, c ∈ all) (hnd : cs.Nodup) (hl : Laid base cs)
    (ht : total len cs < 2 ^ 31) (hp : base ≤ p) (hpe : p ≤ base + total len cs) :
    ∃ rt', fLookupClearChunks (wrap32 p) rt cs = (rt', seek len base cs p) ∧
      rt'.isInit = rt.isInit ∧ Registers rt' all (seek len base run p) := by
  induction cs generalizing base run rt with
  | nil =>
    obtain rfl := prefix_nil.mp hrun
    exact ⟨rt, rfl, rfl, hreg⟩
  | cons c cs ih =>
    rw [total_cons] at ht hpe
    obtain ⟨hs, hpos, hlc⟩ := hl
    obtain ⟨hcc, hnd'⟩ := nodup_cons.mp hnd
    have hc : c ∈ all := hsub c mem_cons_self
    have hsub' : ∀ d ∈ cs, d ∈ all := fun d hd => hsub d (mem_cons_of_mem _ hd)
    have hinc := fChunkIncludesPos_eq (p := p) hs (by omega) (by omega)
    rw [fLookupClearChunks, hinc, seek]
    simp only [decide_eq_true_eq]
    by_cases hpc : p < base + c.len
    · rw [if_pos ⟨hp, hpc⟩, if_pos hpc]
      refine ⟨rt, rfl, rfl, ?_⟩
      rcases prefix_cons_iff.mp hrun with rfl | ⟨run, rfl, -⟩
      · exact hreg
      · rwa [seek, if_pos hpc]
    · rw [if_neg fun h => hpc h.2, if_neg hpc]
      rcases prefix_cons_iff.mp hrun with rfl | ⟨run, rfl, hrun'⟩
      · rw [hreg.del_of_notMem hc List.not_mem_nil]
        exact ih hreg (List.nil_prefix ..) hsub' hnd' hlc (by omega) (by omega) (by omega)
      have hdel := hreg.del hall hc fun h => hcc (hrun'.subset h)
      obtain ⟨rt', hrt', hinit', hreg'⟩ := ih hdel hrun' hsub' hnd' hlc (by omega) (by omega)
        (by omega)
      refine ⟨rt', hrt', hinit'.trans (Lookup.isInit_del ..), ?_⟩
      rwa [seek, if_neg hpc]

/-- **`f_lookup_clear_enq_chunks`** leaves the part of the run from the new tail chunk on, and
nothing once no out-of-order segment is left. -/
theorem fLookupClearEnqChunks_spec {oooEmpty : Bool} (hreg : Registers rt all run)
    (hall : (all.map Chunk.addr).Nodup) (hrun : run <+: cs) (hsub : ∀ c ∈ cs, c ∈ all)
    (hnd : cs.Nodup) (hl : Laid base cs) (ht : total len cs < 2 ^ 31) (hp : base ≤ p)
    (hpe : p ≤ base + total len cs) (hempty : oooEmpty = true → (seek len base run p).length ≤ 1) :
    ∃ rt', fLookupClearEnqChunks rt cs (wrap32 p) oooEmpty = (rt', seek len base cs p) ∧
      rt'.isInit = rt.isInit ∧
      Registers rt' all (if oooEmpty then [] else seek len base run p) := by
  obtain ⟨rt', hrt', hinit', hreg'⟩ :=
    fLookupClearChunks_spec hreg hall hrun hsub hnd hl ht hp hpe
  unfold fLookupClearEnqChunks
  rw [hrt']
  -- the part of the run that is left starts at the chunk that holds `p`
  have hhead : seek len base run p <+: seek len base cs p := seek_prefix hrun
  cases hseek : seek len base cs p with
  | nil =>
    rw [hseek] at hhead
    refine ⟨rt', rfl, hinit', ?_⟩
    rw [prefix_nil.mp hhead] at hreg' ⊢
    simpa using hreg'
  | cons c cs' =>
    refine ⟨_, rfl, ?_, ?_⟩
    · split
      · rwa [Lookup.isInit_del]
      · exact hinit'
    cases oooEmpty with
    | false => exact hreg'
    | true =>
      have hc : c ∈ all := hsub c (seek_suffix.subset (hseek ▸ mem_cons_self))
      rw [hseek] at hhead
      rcases prefix_cons_iff.mp hhead with h | ⟨r, h, -⟩
      · rw [h] at hreg'
        simpa [hreg'.del_of_notMem hc (fun h => nomatch h)] using hreg'
      · have hlen := hempty rfl
        rw [h] at hreg' hlen
        obtain rfl : r = [] := length_eq_zero_iff.mp (by simpa using hlen)
        simpa using hreg'.del hall hc (fun h => nomatch h)

end

end Vpp.SvmFifo
