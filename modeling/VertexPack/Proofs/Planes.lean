import VertexPack.Plane
import VertexPack.Proofs.Steps
import VertexPack.Proofs.Words
import Mathlib.Data.List.FinRange

/-! Folded steps lead back to their words and words to their steps; a square of bits turned
over twice is as it was, and its mask names the planes that are not zero. -/
namespace VertexPack.Plane

theorem flip_shiftRight (d : UInt32) : flip d >>> 31 = d >>> 31 := by
  unfold flip
  split
  · rw [UInt32.shiftRight_xor, show foldMask >>> 31 = 0 by decide, UInt32.xor_zero]
  · rfl

theorem flip_flip (d : UInt32) : flip (flip d) = d := by
  by_cases h : d >>> 31 ≠ 0
  · rw [flip, flip_shiftRight, if_pos h, flip, if_pos h, UInt32.xor_assoc, UInt32.xor_self,
      UInt32.xor_zero]
  · rw [flip, flip_shiftRight, if_neg h, flip, if_neg h]

theorem unfold_fold (value last : UInt32) : unfold (fold value last) last = value := by
  rw [unfold, fold, flip_flip, UInt32.add_comm, UInt32.sub_add_cancel]

theorem fold_unfold (folded last : UInt32) : fold (unfold folded last) last = folded := by
  rw [fold, unfold, UInt32.add_comm, UInt32.add_sub_cancel, flip_flip]

theorem unfoldAll_foldAll (last : UInt32) (vs : List UInt32) :
    unfoldAll last (foldAll last vs) = vs := by
  induction vs generalizing last with
  | nil => rfl
  | cons v vs ih => rw [foldAll, unfoldAll, unfold_fold, ih]

theorem foldAll_unfoldAll (last : UInt32) (fs : List UInt32) :
    foldAll last (unfoldAll last fs) = fs := by
  induction fs generalizing last with
  | nil => rfl
  | cons f fs ih => rw [unfoldAll, foldAll, fold_unfold, ih]

@[simp] theorem foldAll_length (last : UInt32) (vs : List UInt32) :
    (foldAll last vs).length = vs.length := by
  induction vs generalizing last with
  | nil => rfl
  | cons v vs ih => simp [foldAll, ih]

theorem foldAll_eq_stepsFrom (last : UInt32) (vs : List UInt32) :
    foldAll last vs = stepsFrom (fun last v => fold v last) last vs := by
  induction vs generalizing last with
  | nil => rfl
  | cons v vs ih => simp [foldAll, stepsFrom, ih]

theorem getElem_foldAll {last : UInt32} {vs : List UInt32} {t : Nat}
    (ht : t < (foldAll last vs).length) :
    (foldAll last vs)[t] = fold (vs.getD t 0) (if t = 0 then last else vs.getD (t - 1) 0) := by
  simp only [foldAll_eq_stepsFrom, getElem_stepsFrom (0 : UInt32)]

theorem foldAll_repeatLast (last : UInt32) (m : Nat) (vs : List UInt32) :
    foldAll last (repeatLast last m vs) =
      (foldAll last vs ++ List.replicate (m - vs.length) 0).take m := by
  have hstay (v : UInt32) : fold v v = 0 := by simp [fold, flip]
  simp only [foldAll_eq_stepsFrom, stepsFrom_repeatLast (f := fun last v => fold v last) hstay]

open Word (testBit)

theorem testBit_or (w v : UInt32) (j : Nat) :
    testBit (w ||| v) j = (testBit w j || testBit v j) := by
  simp [testBit]

theorem testBit_shiftLeft (w : UInt32) {i j : Nat} (hi : i < 32) (hj : j < 32) :
    testBit (w <<< i.toUInt32) j = (decide (i ≤ j) && testBit w (j - i)) := by
  have hshift : i % 32 = i := Nat.mod_eq_of_lt hi
  by_cases h : i ≤ j
  · simp [testBit, hshift, hj, h, BitVec.getLsbD_eq_getElem (show j - i < 32 by omega)]
  · simp [testBit, hshift, h, Nat.lt_of_not_le h]

theorem testBit_bit (w : UInt32) {i j : Nat} (hi : i < 32) (hj : j < 32) :
    testBit (bit w i) j = (decide (j = 0) && testBit w i) := by
  have hshift : i % 32 = i := Nat.mod_eq_of_lt hi
  by_cases hzero : j = 0
  · subst hzero
    simp [testBit, bit, hshift]
  · simp [testBit, bit, hshift, hzero]

theorem bit_eq_zero_iff (w : UInt32) {i : Nat} (hi : i < 32) :
    bit w i = 0 ↔ testBit w i = false := by
  constructor
  · intro h
    have hbit := testBit_bit w hi (by decide : 0 < 32)
    rw [h] at hbit
    simpa [testBit] using hbit.symm
  · intro h
    apply Word.eq_of_testBit
    intro j hj
    rw [testBit_bit w hi hj, h]
    simp [testBit]

theorem testBit_bit_shiftLeft (w : UInt32) (r c d : Fin 32) :
    testBit (bit w r <<< c.val.toUInt32) d = (decide (c = d) && testBit w r) := by
  have hd : d.val - c.val < 32 := by omega
  rw [testBit_shiftLeft _ c.isLt d.isLt, testBit_bit _ r.isLt hd, ← Bool.and_assoc]
  congr 1
  rw [← Bool.decide_and, decide_eq_decide, Fin.ext_iff]
  omega

theorem testBit_foldl_or (f : Fin 32 → UInt32) (l : List (Fin 32)) (m : UInt32) (j : Nat) :
    testBit (l.foldl (fun m r => m ||| f r) m) j =
      (testBit m j || l.any fun r => testBit (f r) j) := by
  induction l generalizing m with
  | nil => simp
  | cons r l ih => rw [List.foldl_cons, ih, testBit_or, List.any_cons, Bool.or_assoc]

theorem any_finRange (p : Fin 32 → Bool) (d : Fin 32) :
    ((List.finRange 32).any fun c => decide (c = d) && p c) = p d := by
  rw [Bool.eq_iff_iff, List.any_eq_true]
  simp

theorem get_transpose (words : Square) (r : Fin 32) :
    (transpose words).get r = (List.finRange 32).foldl
      (fun plane c => plane ||| (bit (words.get c) r <<< c.val.toUInt32)) 0 := by
  rw [transpose, get_ofFn]
  rfl

theorem testBit_transpose (words : Square) (r c : Fin 32) :
    testBit ((transpose words).get r) c = testBit (words.get c) r := by
  rw [get_transpose, testBit_foldl_or]
  simp only [testBit_bit_shiftLeft, any_finRange (fun c => testBit (words.get c) r)]
  simp [testBit]

theorem eq_of_testBit {planes words : Square}
    (h : ∀ r c : Fin 32, testBit (planes.get r) c = testBit (words.get r) c) : planes = words := by
  apply Vector.ext
  intro r hr
  apply Word.eq_of_testBit
  intro c hc
  exact h ⟨r, hr⟩ ⟨c, hc⟩

theorem transpose_transpose (words : Square) : transpose (transpose words) = words := by
  apply eq_of_testBit
  intro r c
  rw [testBit_transpose, testBit_transpose]

/-- Turning a square over swaps the place of a bit with the number of its word, so that doing it
twice changes nothing; and from any last word a step leads to its word and a word to its step. -/
theorem transpose_fold_exact :
    (∀ (words : Square) (r c : Fin 32),
      testBit ((transpose words).get r) c = testBit (words.get c) r) ∧
    (∀ words : Square, transpose (transpose words) = words) ∧
    (∀ value last : UInt32, unfold (fold value last) last = value) ∧
    ∀ folded last : UInt32, fold (unfold folded last) last = folded :=
  ⟨testBit_transpose, transpose_transpose, unfold_fold, fold_unfold⟩

def maskBit (planes : Square) (r : Fin 32) : UInt32 :=
  if planes.get r = 0 then 0 else 1 <<< r.val.toUInt32

theorem mask_eq (planes : Square) :
    mask planes = (List.finRange 32).foldl (fun m r => m ||| maskBit planes r) 0 := by
  rw [mask]
  congr 1
  funext m r
  by_cases hr : planes.get r = 0
  · rw [maskBit, if_pos hr, UInt32.or_zero]
    exact if_pos hr
  · rw [maskBit, if_neg hr]
    exact if_neg hr

theorem testBit_maskBit (planes : Square) (r c : Fin 32) :
    testBit (maskBit planes r) c = (decide (r = c) && decide (planes.get r ≠ 0)) := by
  have hone := testBit_bit_shiftLeft 1 0 r c
  rw [show bit 1 (0 : Fin 32).val = 1 by decide, show testBit 1 (0 : Fin 32) = true by decide,
    Bool.and_true] at hone
  unfold maskBit
  split
  · simp_all [testBit]
  · simp_all

theorem testBit_mask (planes : Square) (r : Fin 32) :
    testBit (mask planes) r = decide (planes.get r ≠ 0) := by
  rw [mask_eq, testBit_foldl_or]
  simp only [testBit_maskBit, any_finRange (fun s => decide (planes.get s ≠ 0))]
  simp [testBit]

theorem bit_mask_eq_zero_iff (planes : Square) (r : Fin 32) :
    bit (mask planes) r = 0 ↔ planes.get r = 0 := by
  rw [bit_eq_zero_iff _ r.isLt, testBit_mask]
  simp

theorem countOnes_mask (planes : Square) : countOnes (mask planes) = (stored planes).length := by
  rw [stored, toList_eq_ofFn, List.ofFn_eq_map, ← List.countP_eq_length_filter, List.countP_map,
    countOnes]
  apply List.countP_congr
  intro r _
  simpa using (bit_mask_eq_zero_iff planes r).not

end VertexPack.Plane
