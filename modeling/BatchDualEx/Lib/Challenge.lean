import Mathlib.Algebra.BigOperators.Fin
import Mathlib.Algebra.Group.Pi.Basic
import Mathlib.Algebra.Ring.Basic
import Mathlib.Data.Fintype.BigOperators
import Mathlib.SetTheory.Cardinal.Finite

/- Sequences of random challenges that pass a linear check. A wrong coefficient leaves at most one
   value for its challenge once the others are drawn. -/
namespace Challenge

variable {n : ℕ} {W R : Type*}

def Determined (j : Fin n) (accepted : Set (Fin n → W)) : Prop :=
  ∀ χ ∈ accepted, ∀ χ' ∈ accepted, (∀ i, i ≠ j → χ i = χ' i) → χ j = χ' j

theorem Determined.card_le [Finite W] {j : Fin n} {accepted : Set (Fin n → W)}
    (determined : Determined j accepted) : Nat.card accepted ≤ Nat.card W ^ (n - 1) := by
  have indices : Nat.card {i : Fin n // i ≠ j} = n - 1 := by
    rw [Nat.card_eq_fintype_card, Fintype.card_subtype_compl, Fintype.card_fin,
      Fintype.card_subtype_eq]
  have others : Nat.card ({i : Fin n // i ≠ j} → W) = Nat.card W ^ (n - 1) := by
    rw [Nat.card_fun, indices]
  rw [← others]
  apply Nat.card_le_card_of_injective
    (fun χ : accepted => fun i : {i : Fin n // i ≠ j} => χ.val i.val)
  intro χ χ' same
  have apart (i : Fin n) (other : i ≠ j) : χ.val i = χ'.val i := congrFun same ⟨i, other⟩
  apply Subtype.ext
  funext i
  by_cases here : i = j
  · rw [here]
    exact determined χ.val χ.property χ'.val χ'.property apart
  · exact apart i here

theorem determined_of_linear [Ring R] [NoZeroDivisors R] {word : W → R}
    (injective : Function.Injective word) {a : Fin n → R} {b : R} {j : Fin n} (wrong : a j ≠ 0) :
    Determined j {χ : Fin n → W | ∑ i, a i * word (χ i) = b} := by
  intro χ passes χ' passes' same
  have sums : ∑ i, a i * word (χ i) = ∑ i, a i * word (χ' i) := passes.trans passes'.symm
  have rest : ∑ i ∈ Finset.univ.erase j, a i * word (χ i) =
      ∑ i ∈ Finset.univ.erase j, a i * word (χ' i) := by
    apply Finset.sum_congr rfl
    intro i listed
    rw [same i (Finset.ne_of_mem_erase listed)]
  rw [← Finset.add_sum_erase _ _ (Finset.mem_univ j), rest,
    ← Finset.add_sum_erase _ _ (Finset.mem_univ j)] at sums
  have products : a j * word (χ j) = a j * word (χ' j) := add_right_cancel sums
  have difference : a j * (word (χ j) - word (χ' j)) = 0 := by
    rw [mul_sub, products, sub_self]
  exact injective (sub_eq_zero.mp ((mul_eq_zero.mp difference).resolve_left wrong))

/-- With a nonzero coefficient one challenge in `|W|` passes. -/
theorem card_linear_le [Finite W] [Ring R] [NoZeroDivisors R] {word : W → R}
    (injective : Function.Injective word) {a : Fin n → R} {b : R} {j : Fin n} (wrong : a j ≠ 0) :
    Nat.card {χ : Fin n → W | ∑ i, a i * word (χ i) = b} ≤ Nat.card W ^ (n - 1) :=
  (determined_of_linear injective wrong).card_le

end Challenge
