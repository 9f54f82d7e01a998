import BatchDualEx.Lib.BinaryField
import BatchDualEx.Lib.Xor

/- Products without carries: a word stands for the polynomial of its bits, exclusive-or for the
   sum, and so every law of the products is a law of polynomials. -/
namespace BinaryField

open Polynomial WordXor

variable {w n : ℕ}

noncomputable def ofWord (a : BitVec w) : (ZMod 2)[X] := ofBits a.toNat

theorem ofWord_coeff (a : BitVec w) (i : ℕ) :
    (ofWord a).coeff i = if a.getLsbD i then 1 else 0 := ofBits_coeff a.toNat i

theorem ofWord_injective : Function.Injective (ofWord : BitVec w → (ZMod 2)[X]) :=
  fun _ _ same => BitVec.eq_of_toNat_eq (ofBits_injective same)

@[simp] theorem ofWord_zero : ofWord 0#w = 0 := by
  unfold ofWord
  rw [BitVec.toNat_ofNat, Nat.zero_mod]
  exact ofBits_zero

@[simp] theorem ofWord_xor (a b : BitVec w) : ofWord (a ^^^ b) = ofWord a + ofWord b := by
  ext i
  rw [coeff_add, ofWord_coeff, ofWord_coeff, ofWord_coeff, BitVec.getLsbD_xor]
  cases a.getLsbD i <;> cases b.getLsbD i <;> decide

theorem ofWord_shiftLeft (a : BitVec w) {k : ℕ} (room : w + k ≤ n) :
    ofWord (a.setWidth n <<< k) = X ^ k * ofWord a := by
  ext i
  rw [ofWord_coeff, coeff_X_pow_mul', BitVec.getLsbD_shiftLeft, BitVec.getLsbD_setWidth]
  by_cases low : i < k
  · simp [low]
  · rw [if_pos (Nat.not_lt.mp low), ofWord_coeff]
    by_cases inside : i < n
    · simp [low, inside, show i - k < n by omega]
    · rw [BitVec.getLsbD_of_ge a (i - k) (by omega)]
      simp

theorem ofWord_append (hi lo : BitVec w) : ofWord (hi ++ lo) = ofWord lo + X ^ w * ofWord hi := by
  ext i
  rw [ofWord_coeff, coeff_add, coeff_X_pow_mul', ofWord_coeff, BitVec.getLsbD_append]
  by_cases low : i < w
  · rw [if_pos low, if_neg (Nat.not_le.mpr low), add_zero]
  · rw [if_neg low, if_pos (Nat.not_lt.mp low), ofWord_coeff, BitVec.getLsbD_of_ge lo i (by omega)]
    simp

theorem ofWord_shift_halves (a : BitVec w) {k : ℕ} (less : k ≤ w) :
    ofWord (a >>> (w - k) ++ a <<< k) = X ^ k * ofWord a := by
  have joined : a >>> (w - k) ++ a <<< k = a.setWidth (w + w) <<< k := by
    apply BitVec.eq_of_getLsbD_eq
    intro i below
    rw [BitVec.getLsbD_append, BitVec.getLsbD_ushiftRight, BitVec.getLsbD_shiftLeft,
      BitVec.getLsbD_shiftLeft, BitVec.getLsbD_setWidth]
    by_cases low : i < w
    · simp [low, below, show i - k < w + w by omega]
    · simp [low, below, show ¬i < k by omega, show w - k + (i - w) = i - k by omega,
        show i - k < w + w by omega]
  rw [joined, ofWord_shiftLeft a (by omega)]

theorem ofWord_select (bit : Bool) (a : BitVec w) :
    ofWord (select bit a) = (if bit then 1 else 0) * ofWord a := by
  cases bit <;> simp

theorem ofWord_xorSum (k : ℕ) (word : ℕ → BitVec w) :
    ofWord (xorSum k word) = ∑ i ∈ Finset.range k, ofWord (word i) := by
  induction k with
  | zero => simp
  | succ k ih => rw [xorSum_succ, ofWord_xor, ih, Finset.sum_range_succ]

theorem ofWord_eq_sum (a : BitVec w) :
    ofWord a = ∑ i ∈ Finset.range w, (if a.getLsbD i then 1 else 0) * X ^ i := by
  ext i
  rw [ofWord_coeff, finsetSum_coeff]
  by_cases inside : i < w
  · rw [Finset.sum_eq_single i]
    · cases a.getLsbD i <;> simp
    · intro j _ other
      cases a.getLsbD j <;> simp [coeff_X_pow, Ne.symm other]
    · exact fun outside => absurd (Finset.mem_range.mpr inside) outside
  · rw [BitVec.getLsbD_of_ge a i (by omega), Finset.sum_eq_zero]
    · rfl
    · intro j listed
      have apart : i ≠ j := fun same => inside (same ▸ Finset.mem_range.mp listed)
      cases a.getLsbD j <;> simp [coeff_X_pow, apart]

/-- The product without carries, cut to `n` bits. -/
def carryLess (n : ℕ) (a b : BitVec w) : BitVec n :=
  xorSum w fun i => select (a.getLsbD i) (b.setWidth n <<< i)

theorem ofWord_carryLess (a b : BitVec w) (room : w + w ≤ n) :
    ofWord (carryLess n a b) = ofWord a * ofWord b := by
  have terms : ∀ i ∈ Finset.range w, ofWord (select (a.getLsbD i) (b.setWidth n <<< i)) =
      (if a.getLsbD i then 1 else 0) * X ^ i * ofWord b := by
    intro i listed
    have below := Finset.mem_range.mp listed
    rw [ofWord_select, ofWord_shiftLeft b (by omega), mul_assoc]
  unfold carryLess
  rw [ofWord_xorSum, Finset.sum_congr rfl terms, ← Finset.sum_mul, ← ofWord_eq_sum]

end BinaryField
