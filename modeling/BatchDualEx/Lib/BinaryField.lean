import Mathlib.RingTheory.AdjoinRoot
import Mathlib.Data.ZMod.Basic
import Mathlib.Algebra.Field.ZMod
import Mathlib.Data.Nat.Bitwise
import Mathlib.Data.Nat.Size

/- Numbers as elements of a quotient of `F_2[x]`: the bits of a number are the coefficients
   of a polynomial, which is then reduced modulo `f`. -/
namespace BinaryField

open Polynomial

noncomputable def ofBits (num : ℕ) : (ZMod 2)[X] :=
  ∑ i ∈ Finset.range num.size, if num.testBit i then X ^ i else 0

theorem ofBits_coeff (num i : ℕ) :
    (ofBits num).coeff i = if num.testBit i then 1 else 0 := by
  unfold ofBits
  rw [finsetSum_coeff]
  by_cases inside : i < num.size
  · rw [Finset.sum_eq_single i]
    · split <;> simp
    · intro j _ other
      split
      · rw [coeff_X_pow, if_neg (Ne.symm other)]
      · simp
    · intro outside
      exact absurd (Finset.mem_range.mpr inside) outside
  · have unset : num.testBit i = false :=
      Nat.testBit_eq_false_of_lt (Nat.size_le.mp (not_lt.mp inside))
    rw [unset, if_neg (by decide)]
    refine Finset.sum_eq_zero fun j below => ?_
    have apart : i ≠ j := by
      have := Finset.mem_range.mp below
      omega
    split
    · rw [coeff_X_pow, if_neg apart]
    · simp

theorem ofBits_injective : Function.Injective ofBits := by
  intro a b same
  apply Nat.eq_of_testBit_eq
  intro i
  have coefficient := congrArg (coeff · i) same
  simp only [ofBits_coeff] at coefficient
  by_cases bitA : a.testBit i <;> by_cases bitB : b.testBit i <;>
    simp [bitA, bitB] at coefficient ⊢

theorem ofBits_zero : ofBits 0 = 0 := by
  simp [ofBits]

noncomputable def point (f : (ZMod 2)[X]) (num : ℕ) : AdjoinRoot f :=
  AdjoinRoot.mk f (ofBits num)

/-- Numbers that agree above the `t` lowest bits stay apart modulo a polynomial of degree `t`. -/
theorem point_injOn_block {f : (ZMod 2)[X]} {t : ℕ} (degree : f.natDegree = t) (nonzero : f ≠ 0)
    (b : ℕ) : Set.InjOn (point f) {num | num / 2 ^ t = b} := by
  intro x inX y inY same
  have divides : f ∣ ofBits x - ofBits y := AdjoinRoot.mk_eq_mk.mp same
  have short : (ofBits x - ofBits y).degree < f.degree := by
    rw [degree_eq_natDegree nonzero, degree, degree_lt_iff_coeff_zero]
    intro i high
    have equal : x.testBit i = y.testBit i := by
      have bit := congrArg (·.testBit (i - t)) (inX.trans inY.symm)
      simpa only [Nat.testBit_div_two_pow, Nat.sub_add_cancel high] using bit
    rw [coeff_sub, ofBits_coeff, ofBits_coeff, equal, sub_self]
  exact ofBits_injective (sub_eq_zero.mp (eq_zero_of_dvd_of_degree_lt divides short))

theorem point_injOn {f : (ZMod 2)[X]} {t : ℕ} (degree : f.natDegree = t) (nonzero : f ≠ 0) :
    Set.InjOn (point f) {num | num < 2 ^ t} :=
  (point_injOn_block degree nonzero 0).mono fun _ small => Nat.div_eq_of_lt small

theorem point_ne_zero {f : (ZMod 2)[X]} {t num : ℕ} (degree : f.natDegree = t)
    (nonzero : f ≠ 0) (positive : 0 < num) (small : num < 2 ^ t) : point f num ≠ 0 := by
  intro vanishes
  have origin : point f 0 = 0 := by
    unfold point
    rw [ofBits_zero, map_zero]
  have same := point_injOn degree nonzero small (show 0 < 2 ^ t by positivity)
    (vanishes.trans origin.symm)
  omega

end BinaryField
