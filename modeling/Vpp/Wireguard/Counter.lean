import Vpp.Lib.Replay
import Vpp.Lib.Word

/-!
# The WireGuard receive counter

`noise_counter_recv` of `plugins/wireguard/wireguard_noise.h`. The receiver keeps the highest counter
and a circular bitmap of 128 words of 64 bits: counter `n` has bit `n % 64` of word `n / 64`, modulo
the number of words. Moving ahead clears the words in between, at most one revolution. Of the 128
words, 127 always lie wholly behind the highest counter's word, which is the window. `unsigned long`
has 64 bits.
-/

namespace Vpp.Wireguard

open Vpp.Lib BitVec
open Function (update update_self update_of_ne)

def counterBits : BitVec 64 := 64#64

def counterNum : BitVec 64 := 128#64

def counterWindowSize : BitVec 64 := 8192#64 - counterBits

def rejectAfterMessages : BitVec 64 := ~~~0#64 - counterWindowSize - 1#64

/-- The receive side of `noise_counter_t`. -/
structure NoiseCounter where
  cRecv : BitVec 64
  cBacktrack : Fin 128 → BitVec 64

def initCounter : NoiseCounter := ⟨0#64, fun _ => 0#64⟩

/-- The word of the bitmap at an index already reduced below `COUNTER_NUM`. -/
def word (index : BitVec 64) : Fin 128 := Fin.ofNat 128 index.toNat

/-- The words skipped on the way from counter word `indexCtr` are zeroed, `top` of them. -/
def clearWords (indexCtr : BitVec 64) (top : Nat) (backtrack : Fin 128 → BitVec 64) :
    Fin 128 → BitVec 64 :=
  (List.range top).foldl
    (fun bt i => update bt
      (word ((BitVec.ofNat 64 (i + 1) + indexCtr) &&& (counterNum - 1#64))) 0#64) backtrack

/-- A counter ahead of the current one: the bitmap words between them are zeroed and the counter
moves up. -/
def moved (ctr : NoiseCounter) (recv : BitVec 64) : NoiseCounter :=
  let indexRecv := recv / counterBits
  let indexCtr := ctr.cRecv / counterBits
  if ctr.cRecv < recv then
    let top := min (indexRecv - indexCtr).toNat counterNum.toNat
    { cRecv := recv, cBacktrack := clearWords indexCtr top ctr.cBacktrack }
  else ctr

def noiseCounterRecv (ctr : NoiseCounter) (recv : BitVec 64) : NoiseCounter × Bool :=
  if rejectAfterMessages ≤ ctr.cRecv ∨ rejectAfterMessages ≤ recv then (ctr, false)
  else if recv + counterWindowSize < ctr.cRecv then (ctr, false)
  else
    let ctr := moved ctr recv
    let index := word (recv / counterBits % counterNum)
    let bit := 1#64 <<< (recv % counterBits).toNat
    if (ctr.cBacktrack index &&& bit) != 0#64 then (ctr, false)
    else
      ({ ctr with cBacktrack := update ctr.cBacktrack index (ctr.cBacktrack index ||| bit) },
        true)

/-! ## Words and bits -/

/-- The word that holds the bit of counter `n`. -/
def slot (n : Nat) : Fin 128 := Fin.ofNat 128 (n / 64)

theorem slot_eq_iff {m n : Nat} : slot m = slot n ↔ m / 64 % 128 = n / 64 % 128 := by
  rw [Fin.ext_iff]
  rfl

theorem word_mod (recv : BitVec 64) : word (recv / counterBits % counterNum) = slot recv.toNat := by
  rw [Fin.ext_iff]
  exact Nat.mod_mod _ _

theorem word_and {n : Nat} {recv : BitVec 64} (h : n + recv.toNat / 64 < 2 ^ 64) :
    word ((BitVec.ofNat 64 n + recv / counterBits) &&& (counterNum - 1#64)) =
      Fin.ofNat 128 (n + recv.toNat / 64) := by
  rw [Fin.ext_iff]
  show ((BitVec.ofNat 64 n + recv / counterBits) &&& (counterNum - 1#64)).toNat % 128 =
    (n + recv.toNat / 64) % 128
  rw [toNat_and, toNat_add, toNat_ofNat, Nat.mod_add_mod, toNat_udiv]
  rw [show counterBits.toNat = 64 from rfl, show (counterNum - 1#64).toNat = 2 ^ 7 - 1 from rfl,
    Nat.and_two_pow_sub_one_eq_mod, Nat.mod_eq_of_lt h, Nat.mod_mod]

/-- Whether the bit of counter `n` is set. -/
def Marked (backtrack : Fin 128 → BitVec 64) (n : Nat) : Prop :=
  (backtrack (slot n)).getLsbD (n % 64) = true

theorem clearWords_apply (recv : BitVec 64) {top : Nat} (h : top ≤ 128)
    (backtrack : Fin 128 → BitVec 64) (s : Fin 128) :
    (∃ i, 0 < i ∧ i ≤ top ∧ s = Fin.ofNat 128 (i + recv.toNat / 64)) ∧
        clearWords (recv / counterBits) top backtrack s = 0#64 ∨
      (∀ i, 0 < i → i ≤ top → s ≠ Fin.ofNat 128 (i + recv.toNat / 64)) ∧
        clearWords (recv / counterBits) top backtrack s = backtrack s := by
  let inv (t : Nat) (bt : Fin 128 → BitVec 64) : Prop := ∀ s,
    (∃ i, 0 < i ∧ i ≤ t ∧ s = Fin.ofNat 128 (i + recv.toNat / 64)) ∧ bt s = 0#64 ∨
      (∀ i, 0 < i → i ≤ t → s ≠ Fin.ofNat 128 (i + recv.toNat / 64)) ∧ bt s = backtrack s
  have h0 : inv 0 backtrack := fun s => .inr ⟨fun i hpos hle => by omega, rfl⟩
  refine foldl_range inv _ h0 (fun t ht bt hbt s => ?_) s
  rw [word_and (by omega)]
  by_cases he : s = Fin.ofNat 128 (t + 1 + recv.toNat / 64)
  · rw [he, update_self]
    exact .inl ⟨⟨t + 1, by omega, by omega, rfl⟩, rfl⟩
  rw [update_of_ne he]
  rcases hbt s with ⟨⟨i, hpos, hle, hs⟩, hz⟩ | ⟨hne, heq⟩
  · exact .inl ⟨⟨i, hpos, by omega, hs⟩, hz⟩
  refine .inr ⟨fun i hpos hle => ?_, heq⟩
  rcases Nat.lt_or_ge t i with hgt | hle'
  · obtain rfl : i = t + 1 := by omega
    exact he
  · exact hne i hpos hle'

variable {backtrack : Fin 128 → BitVec 64}

theorem marked_update {n m : Nat} (h : slot m = slot n → m / 64 = n / 64) :
    Marked (update backtrack (slot n) (backtrack (slot n) ||| (1#64 <<< (n % 64)))) m ↔
      Marked backtrack m ∨ m = n := by
  unfold Marked
  by_cases hs : slot m = slot n
  · rw [hs, update_self, getLsbD_or_one_shl _ (Nat.mod_lt _ (by decide)), Bool.or_eq_true,
      decide_eq_true_eq]
    exact or_congr Iff.rfl (by omega)
  · rw [update_of_ne hs]
    refine ⟨.inl, fun hm => hm.elim id fun he => ?_⟩
    subst he
    exact absurd rfl hs

/-! ## The bitmap is exact on the words of one revolution -/

/-- Every word at most one revolution behind the word `top / 64` holds exactly the accepted counters
of that word. -/
def Exact (top : Nat) (backtrack : Fin 128 → BitVec 64) (acc : List Nat) : Prop :=
  ∀ n, n / 64 ≤ top / 64 → top / 64 < n / 64 + 128 → (Marked backtrack n ↔ n ∈ acc)

variable {ctr : NoiseCounter} {acc : List Nat}

theorem Exact.advance {ctr recv : BitVec 64} (h : Exact ctr.toNat backtrack acc)
    (hacc : ∀ m ∈ acc, m ≤ ctr.toNat) (hlt : ctr.toNat < recv.toNat) :
    Exact recv.toNat
      (clearWords (ctr / counterBits)
        (min (recv / counterBits - ctr / counterBits).toNat counterNum.toNat) backtrack) acc := by
  have hd : (recv / counterBits - ctr / counterBits).toNat = recv.toNat / 64 - ctr.toNat / 64 :=
    toNat_sub_of_le (Nat.div_le_div_right (Nat.le_of_lt hlt))
  rw [hd, show counterNum.toNat = 128 from rfl]
  intro n hle hrev
  have hclear := clearWords_apply ctr
    (Nat.min_le_right (recv.toNat / 64 - ctr.toNat / 64) 128) backtrack (slot n)
  unfold Marked
  rcases Nat.lt_or_ge (ctr.toNat / 64) (n / 64) with hgt | hold
  · -- a word the receiver has not been in: it is cleared, and no accepted counter is there
    have hnot : n ∉ acc := fun hmem => by
      have := hacc n hmem
      omega
    rcases hclear with ⟨-, hz⟩ | ⟨hne, -⟩
    · rw [hz]
      simp [hnot]
    · refine absurd ?_ (hne ((n / 64 - ctr.toNat / 64 - 1) % 128 + 1) (by omega) (by omega))
      rw [Fin.ext_iff]
      show n / 64 % 128 = ((n / 64 - ctr.toNat / 64 - 1) % 128 + 1 + ctr.toNat / 64) % 128
      omega
  · -- a word still in reach: the cleared places are those of later words
    rcases hclear with ⟨⟨i, hpos, hi, hs⟩, -⟩ | ⟨-, heq⟩
    · rw [Fin.ext_iff] at hs
      change n / 64 % 128 = (i + ctr.toNat / 64) % 128 at hs
      omega
    · rw [heq]
      exact h n hold (by omega)

theorem Exact.mark {top n : Nat} (h : Exact top backtrack acc) (hn : n / 64 ≤ top / 64)
    (hrev : top / 64 < n / 64 + 128) :
    Exact top (update backtrack (slot n) (backtrack (slot n) ||| (1#64 <<< (n % 64))))
      (acc ++ [n]) := by
  intro m hm hmrev
  rw [marked_update, h m hm hmrev, List.mem_append, List.mem_singleton]
  intro hs
  rw [slot_eq_iff] at hs
  omega

/-- The receiver's state after the counters `acc` were accepted. -/
structure Bitmap (ctr : NoiseCounter) (acc : List Nat) : Prop where
  below : ctr.cRecv < rejectAfterMessages
  top_eq : ctr.cRecv.toNat = highest acc
  exact : Exact ctr.cRecv.toNat ctr.cBacktrack acc

/-! ## One counter -/

theorem toNat_rejectAfterMessages : rejectAfterMessages.toNat = 2 ^ 64 - 8130 := by decide

theorem noiseCounterRecv_of_inside {recv : BitVec 64} (hctr : ctr.cRecv < rejectAfterMessages)
    (hrecv : recv < rejectAfterMessages) (hw : ctr.cRecv.toNat ≤ recv.toNat + 8128) :
    noiseCounterRecv ctr recv =
      if ((moved ctr recv).cBacktrack (slot recv.toNat)).getLsbD (recv.toNat % 64) then
        (moved ctr recv, false)
      else
        ({ moved ctr recv with
            cBacktrack := update (moved ctr recv).cBacktrack (slot recv.toNat)
              ((moved ctr recv).cBacktrack (slot recv.toNat) ||| (1#64 <<< (recv.toNat % 64))) },
          true) := by
  have hlim := toNat_rejectAfterMessages
  have hsum : (recv + counterWindowSize).toNat = recv.toNat + 8128 := by
    rw [lt_def] at hrecv
    rw [toNat_add, show counterWindowSize.toNat = 8128 from rfl]
    omega
  have hno : ¬ (rejectAfterMessages ≤ ctr.cRecv ∨ rejectAfterMessages ≤ recv) := by
    rintro (h | h)
    · exact BitVec.not_lt.mpr h hctr
    · exact BitVec.not_lt.mpr h hrecv
  have hin : ¬ recv + counterWindowSize < ctr.cRecv := by
    rw [lt_def]
    omega
  have hbit : (recv % counterBits).toNat = recv.toNat % 64 := rfl
  simp only [noiseCounterRecv, if_neg hno, if_neg hin, word_mod, and_one_shl_ne_zero, hbit]

theorem noiseCounterRecv_of_outside {recv : BitVec 64} (hrecv : recv < rejectAfterMessages)
    (hw : recv.toNat + 8128 < ctr.cRecv.toNat) : noiseCounterRecv ctr recv = (ctr, false) := by
  have hin : recv + counterWindowSize < ctr.cRecv := by
    rw [lt_def] at hrecv ⊢
    rw [toNat_add, show counterWindowSize.toNat = 8128 from rfl]
    omega
  simp only [noiseCounterRecv, if_pos hin, ite_self]

theorem Bitmap.moved (h : Bitmap ctr acc) {recv : BitVec 64} (hrecv : recv < rejectAfterMessages) :
    (moved ctr recv).cRecv < rejectAfterMessages ∧
      (moved ctr recv).cRecv.toNat = max (highest acc) recv.toNat ∧
      Exact (moved ctr recv).cRecv.toNat (moved ctr recv).cBacktrack acc := by
  unfold Wireguard.moved
  rw [← h.top_eq]
  split
  · rename_i hlt
    exact ⟨hrecv, (Nat.max_eq_right (Nat.le_of_lt hlt)).symm,
      h.exact.advance (fun m hm => h.top_eq ▸ le_highest hm) hlt⟩
  · rename_i hlt
    exact ⟨h.below, (Nat.max_eq_left (Nat.le_of_not_lt hlt)).symm, h.exact⟩

theorem Bitmap.recv (h : Bitmap ctr acc) {recv : BitVec 64} (hrecv : recv < rejectAfterMessages) :
    ((noiseCounterRecv ctr recv).2 = true ↔ Fresh 8128 acc recv.toNat) ∧
      Bitmap (noiseCounterRecv ctr recv).1
        (if (noiseCounterRecv ctr recv).2 then acc ++ [recv.toNat] else acc) := by
  rcases Nat.lt_or_ge (recv.toNat + 8128) ctr.cRecv.toNat with hout | hin
  · rw [noiseCounterRecv_of_outside hrecv hout]
    refine ⟨⟨(fun hf => nomatch hf), fun hf => ?_⟩, h⟩
    have := hf.2
    rw [← h.top_eq] at this
    omega
  · obtain ⟨hbelow, htop, hexact⟩ := h.moved hrecv
    rw [noiseCounterRecv_of_inside h.below hrecv hin]
    have hrange : recv.toNat / 64 ≤ (Wireguard.moved ctr recv).cRecv.toNat / 64 ∧
        (Wireguard.moved ctr recv).cRecv.toNat / 64 < recv.toNat / 64 + 128 := by
      rw [htop, ← h.top_eq]
      omega
    have hbit := hexact recv.toNat hrange.1 hrange.2
    have hfresh : Fresh 8128 acc recv.toNat ↔ recv.toNat ∉ acc :=
      ⟨fun hf => hf.1, fun hm => ⟨hm, h.top_eq ▸ hin⟩⟩
    rw [hfresh]
    split
    · rename_i hset
      have hmem := hbit.mp hset
      refine ⟨⟨(fun hf => nomatch hf), fun hm => absurd hmem hm⟩, hbelow, ?_, hexact⟩
      rw [htop]
      exact Nat.max_eq_left (le_highest hmem)
    · rename_i hset
      refine ⟨⟨fun _ hm => hset (hbit.mpr hm), fun _ => rfl⟩, hbelow, ?_,
        hexact.mark hrange.1 hrange.2⟩
      rw [if_pos rfl, highest_concat]
      exact htop

/-! ## Whole runs -/

theorem bitmap_run {ns : List (BitVec 64)} (hns : ∀ n ∈ ns, n < rejectAfterMessages) :
    Bitmap (after (gate noiseCounterRecv) initCounter ns)
        ((accepted noiseCounterRecv initCounter ns).map BitVec.toNat) ∧
      ((accepted noiseCounterRecv initCounter ns).map BitVec.toNat).Nodup :=
  gate_run (fun _ _ _ h hn => (h.recv hn).1) (fun _ _ _ h hn => (h.recv hn).2)
    ⟨by decide, rfl, fun n _ _ => by simp [Marked, initCounter]⟩ (along_of_mem hns _)

/-- **The receive counter is exact.** After any counters below the reject limit, one is accepted exactly when
it was not accepted before and is at most `COUNTER_WINDOW_SIZE` older than the highest, and none has been
accepted twice. -/
theorem noiseCounterRecv_accepts_iff (ns : List (BitVec 64)) (n : BitVec 64)
    (hns : ∀ m ∈ ns, m < rejectAfterMessages) (hn : n < rejectAfterMessages) :
    ((noiseCounterRecv (after (gate noiseCounterRecv) initCounter ns) n).2 = true ↔
      n ∉ accepted noiseCounterRecv initCounter ns ∧
        highest ((accepted noiseCounterRecv initCounter ns).map BitVec.toNat) ≤
          n.toNat + counterWindowSize.toNat) ∧
    (accepted noiseCounterRecv initCounter ns).Nodup := by
  obtain ⟨hmap, hnd⟩ := bitmap_run hns
  refine ⟨?_, hnd.of_map _⟩
  rw [(hmap.recv hn).1, Fresh, List.mem_map_of_injective fun _ _ => eq_of_toNat_eq]
  rfl

/-- A jump over several revolutions and a replay; then the oldest counter of the window is accepted. -/
theorem noiseCounterRecv_accepts_iff_jump :
    (noiseCounterRecv (after (gate noiseCounterRecv) initCounter [0#64, 30000#64, 30000#64])
        21872#64).2 = true ∧
      (accepted noiseCounterRecv initCounter [0#64, 30000#64, 30000#64]).Nodup := by
  have hns : ∀ m ∈ [0#64, 30000#64, 30000#64], m < rejectAfterMessages := by
    simp only [List.forall_mem_cons, List.not_mem_nil, false_implies, implies_true]
    decide
  have h := noiseCounterRecv_accepts_iff _ 21872#64 hns (by decide)
  exact ⟨h.1.mpr (by decide +kernel), h.2⟩

end Vpp.Wireguard
