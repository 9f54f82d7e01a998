import Mathlib.Algebra.Field.ZMod
import Mathlib.Algebra.CharP.Two
import Mathlib.Data.Matrix.Basic
import Mathlib.LinearAlgebra.Matrix.Rank
import Mathlib.SetTheory.Cardinal.Finite

/- Affine functions of random elements of a finite field. Functions whose linear parts are
   independent take all values together, each for the same number of random elements. -/
namespace Probing

variable {K ι κ : Type*} [Field K] [Fintype ι] [Fintype κ]

/-- What is seen at a position: a sum of random elements and a fixed one. -/
def seen (rows : ι → κ → K) (shift : ι → K) (r : κ → K) (t : ι) : K := ∑ j, rows t j * r j + shift t

variable {rows : ι → κ → K}

theorem surjective_of_linearIndependent (independent : LinearIndependent K rows) :
    Function.Surjective (Matrix.of rows).mulVecLin := by
  have full : (Matrix.of rows).rank = Fintype.card ι := LinearIndependent.rank_matrix independent
  rw [← LinearMap.range_eq_top]
  apply Submodule.eq_top_of_finrank_eq
  rw [Module.finrank_fintype_fun_eq_card]
  exact full

theorem card_seen_mul [Finite K] (independent : LinearIndependent K rows) (shift v : ι → K) :
    Nat.card {r : κ → K // seen rows shift r = v} * Nat.card K ^ Nat.card ι =
      Nat.card K ^ Nat.card κ := by
  have onto := surjective_of_linearIndependent independent
  obtain ⟨base, reached⟩ := onto (v - shift)
  have linear (r : κ → K) (t : ι) : seen rows shift r t =
      (Matrix.of rows).mulVecLin r t + shift t := rfl
  have kernel : {r : κ → K // seen rows shift r = v} ≃
      LinearMap.ker (Matrix.of rows).mulVecLin := {
    toFun r := ⟨r.val - base, by
      rw [LinearMap.mem_ker, map_sub, reached]
      funext t
      have at_t := congrFun r.property t
      rw [linear] at at_t
      rw [Pi.sub_apply, Pi.sub_apply, Pi.zero_apply, ← at_t]
      ring⟩
    invFun r := ⟨r.val + base, by
      funext t
      rw [linear, map_add, LinearMap.mem_ker.mp r.property, reached]
      simp⟩
    left_inv r := by simp
    right_inv r := by simp }
  have quotient := Submodule.card_eq_card_quotient_mul_card
    (LinearMap.ker (Matrix.of rows).mulVecLin)
  have values := Nat.card_congr ((Matrix.of rows).mulVecLin.quotKerEquivOfSurjective onto).toEquiv
  rw [values, Nat.card_fun, Nat.card_fun] at quotient
  rw [Nat.card_congr kernel, quotient, Nat.mul_comm]

omit [Fintype κ] in
theorem linearIndependent_of_sums {rows : ι → κ → ZMod 2}
    (sums : ∀ T : Finset ι, T.Nonempty → ∑ t ∈ T, rows t ≠ 0) :
    LinearIndependent (ZMod 2) rows := by
  have binary : ∀ a : ZMod 2, a ≠ 0 → a = 1 := by decide
  rw [Fintype.linearIndependent_iff]
  intro g combination
  by_contra some
  push Not at some
  obtain ⟨t, nonzero⟩ := some
  apply sums {t | g t ≠ 0} ⟨t, by simpa using nonzero⟩
  rw [← combination, Finset.sum_filter]
  apply Finset.sum_congr rfl
  intro i _
  by_cases zero : g i = 0
  · rw [if_neg (not_not.mpr zero), zero, zero_smul]
  · rw [if_pos zero, binary _ zero, one_smul]

end Probing
