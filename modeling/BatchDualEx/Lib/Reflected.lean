import BatchDualEx.Lib.CarryLess
import Mathlib.Algebra.Polynomial.Reverse

/- Words as polynomials with the highest bit as the constant term. A shift to the right multiplies
   by a power of the variable, and a product without carries comes out one bit too low. -/
namespace BinaryField

open Polynomial

variable {w : ℕ}

noncomputable def reflected (a : BitVec w) : (ZMod 2)[X] := ofWord a.reverse

theorem reflected_coeff (a : BitVec w) (i : ℕ) :
    (reflected a).coeff i = if a.getMsbD i then 1 else 0 := by
  unfold reflected
  rw [ofWord_coeff, BitVec.getLsbD_reverse]

theorem reflected_injective : Function.Injective (reflected : BitVec w → (ZMod 2)[X]) := by
  intro a b same
  have words := ofWord_injective same
  rw [← a.reverse_reverse_eq, words, BitVec.reverse_reverse_eq]

theorem reflected_xor (a b : BitVec w) : reflected (a ^^^ b) = reflected a + reflected b := by
  ext i
  rw [coeff_add, reflected_coeff, reflected_coeff, reflected_coeff, BitVec.getMsbD_xor]
  cases a.getMsbD i <;> cases b.getMsbD i <;> decide

theorem reflected_twoPow (positive : 0 < w) : reflected (BitVec.twoPow w (w - 1)) = 1 := by
  ext i
  rw [reflected_coeff, coeff_one, BitVec.getMsbD_eq_getLsbD, BitVec.getLsbD_twoPow]
  by_cases first : i = 0
  · simp [first, positive]
  · have other : ¬(i < w ∧ w - 1 < w ∧ w - 1 = w - 1 - i) := by omega
    rw [← Bool.decide_and, ← Bool.decide_and, decide_eq_false other, if_neg Bool.false_ne_true,
      if_neg first]

theorem reflected_append (hi lo : BitVec w) :
    reflected (hi ++ lo) = reflected hi + X ^ w * reflected lo := by
  ext i
  rw [reflected_coeff, coeff_add, coeff_X_pow_mul', reflected_coeff, BitVec.getMsbD_append]
  by_cases inside : i < w
  · simp [Nat.not_le.mpr inside]
  · simp [Nat.not_lt.mp inside, reflected_coeff]

theorem degree_reflected_lt (a : BitVec w) : (reflected a).degree < w := by
  rw [degree_lt_iff_coeff_zero]
  intro i outside
  rw [reflected_coeff, BitVec.getMsbD_of_ge a i outside]
  rfl

theorem exists_word (bits : ℕ → Bool) : ∃ a : BitVec w, ∀ i < w, a.getLsbD i = bits i := by
  refine ⟨(BitVec.iunfoldr (fun i state => (state, bits i.val)) ()).2, ?_⟩
  intro i inside
  exact BitVec.iunfoldr_getLsbD (fun _ => ()) ⟨i, inside⟩ (fun _ => rfl)

theorem reflected_surjective {p : (ZMod 2)[X]} (short : p.degree < w) :
    ∃ a : BitVec w, reflected a = p := by
  obtain ⟨a, bits⟩ := exists_word (w := w) fun i => decide (p.coeff (w - 1 - i) = 1)
  refine ⟨a, ?_⟩
  ext i
  rw [reflected_coeff]
  by_cases inside : i < w
  · rw [BitVec.getMsbD_eq_getLsbD, decide_eq_true inside, Bool.true_and, bits _ (by omega),
      show w - 1 - (w - 1 - i) = i by omega]
    generalize p.coeff i = bit
    revert bit
    decide
  · have outside := Nat.not_lt.mp inside
    rw [BitVec.getMsbD_of_ge _ i outside, coeff_eq_zero_of_degree_lt
      (short.trans_le (by exact_mod_cast outside))]
    rfl

/-- The bits that a shift to the right pushes out are the highest terms of the product. -/
theorem reflected_shift (a : BitVec w) {k : ℕ} (less : k ≤ w) :
    X ^ k * reflected a = reflected (a >>> k) + X ^ w * reflected (a <<< (w - k)) := by
  ext i
  rw [coeff_X_pow_mul', coeff_add, coeff_X_pow_mul', reflected_coeff, reflected_coeff,
    reflected_coeff, BitVec.getMsbD_ushiftRight, BitVec.getMsbD_shiftLeft]
  by_cases high : i < w
  · rw [if_neg (Nat.not_le.mpr high), add_zero]
    by_cases low : i < k
    · simp [low, Nat.not_le.mpr low]
    · simp [low, Nat.not_lt.mp low, high]
  · have outside := Nat.not_lt.mp high
    rw [if_pos outside, if_pos (less.trans outside), show i - w + (w - k) = i - k by omega]
    simp [high]

/-- A product without carries, moved by one bit, is the product of the reflected words. -/
theorem reflected_product {a b : BitVec w} {c : BitVec (w + w)} (positive : 0 < w)
    (product : ofWord c = ofWord a * ofWord b) :
    reflected (c <<< 1) = reflected a * reflected b := by
  have turn (d : BitVec w) : reflected d = (ofWord d).reflect (w - 1) := by
    ext i
    rw [reflected_coeff, coeff_reflect, ofWord_coeff]
    by_cases inside : i ≤ w - 1
    · rw [revAt_le inside, BitVec.getMsbD_eq_getLsbD, decide_eq_true (show i < w by omega),
        Bool.true_and]
    · rw [revAt_eq_self_of_lt (by omega), BitVec.getMsbD_of_ge d i (by omega),
        BitVec.getLsbD_of_ge d i (by omega)]
  have short (d : BitVec w) : (ofWord d).natDegree ≤ w - 1 := by
    rw [natDegree_le_iff_coeff_eq_zero]
    intro i above
    rw [ofWord_coeff, BitVec.getLsbD_of_ge d i (by omega)]
    rfl
  rw [turn a, turn b, ← reflect_mul _ _ (short a) (short b), ← product]
  ext i
  rw [reflected_coeff, coeff_reflect, BitVec.getMsbD_shiftLeft]
  by_cases inside : i ≤ w - 1 + (w - 1)
  · rw [revAt_le inside, ofWord_coeff, BitVec.getMsbD_eq_getLsbD,
      decide_eq_true (show i + 1 < w + w by omega), Bool.true_and,
      show w + w - 1 - (i + 1) = w - 1 + (w - 1) - i by omega]
  · have above : (ofWord c).coeff i = 0 := by
      rw [product]
      apply coeff_eq_zero_of_natDegree_lt
      exact (natDegree_mul_le.trans (Nat.add_le_add (short a) (short b))).trans_lt (by omega)
    rw [revAt_eq_self_of_lt (by omega), above, BitVec.getMsbD_of_ge c (i + 1) (by omega)]
    rfl

end BinaryField
