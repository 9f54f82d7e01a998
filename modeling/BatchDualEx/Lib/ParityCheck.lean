import Mathlib.Algebra.BigOperators.Group.Finset.Basic
import Mathlib.Algebra.BigOperators.Pi
import Mathlib.Algebra.Field.ZMod
import Mathlib.Algebra.Order.BigOperators.Group.Finset
import Mathlib.Combinatorics.Pigeonhole
import Mathlib.Data.Fintype.Pi
import Mathlib.Data.ZMod.Basic
import Mathlib.Tactic.Abel

/- Columns of a parity check matrix: vectors of which no few sum to zero. -/
namespace ParityCheck

open Finset

variable {ι V : Type*} [DecidableEq ι]

/-- No nonempty set of fewer than `k` of the vectors sums to zero. -/
def Spread [AddCommMonoid V] (T : Finset ι) (k : ℕ) (b : ι → V) : Prop :=
  ∀ S ⊆ T, S.Nonempty → S.card < k → ∑ i ∈ S, b i ≠ 0

/-- When every vector is its own inverse, two sets with equal sums differ in a set with sum
    zero. -/
theorem sum_symmDiff_eq_zero [AddCommMonoid V] (two : ∀ v : V, v + v = 0) {b : ι → V}
    {A B : Finset ι} (same : ∑ i ∈ A, b i = ∑ i ∈ B, b i) : ∑ i ∈ symmDiff A B, b i = 0 := by
  have apart : Disjoint (A \ B) (B \ A) := disjoint_sdiff_sdiff
  calc ∑ i ∈ symmDiff A B, b i
      = ∑ i ∈ A \ B, b i + ∑ i ∈ B \ A, b i := sum_union apart
    _ = ∑ i ∈ A \ B, b i + ∑ i ∈ B \ A, b i
          + (∑ i ∈ A ∩ B, b i + ∑ i ∈ A ∩ B, b i) := by rw [two, add_zero]
    _ = (∑ i ∈ A ∩ B, b i + ∑ i ∈ A \ B, b i)
          + (∑ i ∈ B ∩ A, b i + ∑ i ∈ B \ A, b i) := by
        rw [inter_comm B A]
        abel
    _ = ∑ i ∈ A, b i + ∑ i ∈ A, b i := by
        rw [sum_inter_add_sum_sdiff, sum_inter_add_sum_sdiff, same]
    _ = 0 := two _

/-- More than `log2 |V|` vectors have a nonempty set with sum zero. -/
theorem exists_zero_sum [AddCommMonoid V] [Fintype V] [DecidableEq V] (two : ∀ v : V, v + v = 0)
    {T : Finset ι} (b : ι → V) (many : Fintype.card V < 2 ^ T.card) :
    ∃ S ⊆ T, S.Nonempty ∧ ∑ i ∈ S, b i = 0 := by
  have crowded : (univ : Finset V).card < T.powerset.card := by
    rw [card_powerset]
    exact many
  obtain ⟨A, inA, B, inB, apart, same⟩ := exists_ne_map_eq_of_card_lt_of_maps_to crowded
    (f := fun S => ∑ i ∈ S, b i) fun _ _ => mem_univ _
  refine ⟨symmDiff A B, ?_, ?_, sum_symmDiff_eq_zero two same⟩
  · exact (symmDiff_le_sup (a := A) (b := B)).trans
      (union_subset (mem_powerset.mp inA) (mem_powerset.mp inB))
  · rw [nonempty_iff_ne_empty]
    exact fun none => apart (symmDiff_eq_bot.mp none)

theorem self_inverse {r : ℕ} (v : Fin r → ZMod 2) : v + v = 0 := by
  funext l
  exact CharTwo.add_self_eq_zero (v l)

theorem Spread.le_succ {T : Finset ι} {k r : ℕ} {b : ι → Fin r → ZMod 2} (spread : Spread T k b)
    (more : r < T.card) : k ≤ r + 1 := by
  obtain ⟨few, inside, sized⟩ := exists_subset_card_eq more
  have crowded : Fintype.card (Fin r → ZMod 2) < 2 ^ few.card := by
    rw [Fintype.card_fun, ZMod.card, Fintype.card_fin, sized]
    exact Nat.pow_lt_pow_right (by decide) (Nat.lt_succ_self r)
  obtain ⟨S, within, nonempty, zero⟩ := exists_zero_sum self_inverse b crowded
  by_contra above
  refine spread S (within.trans inside) nonempty ?_ zero
  have := card_le_card within
  omega

theorem exists_spread {n r : ℕ} (room : n ≤ r) (k : ℕ) :
    ∃ b : ℕ → Fin r → ZMod 2, Spread (range n) k b := by
  refine ⟨fun i l => if l.val = i then 1 else 0, fun S inside ⟨i, member⟩ _ zero => ?_⟩
  have below : i < r := (mem_range.mp (inside member)).trans_le room
  have entry := congrFun zero ⟨i, below⟩
  rw [Finset.sum_apply, sum_ite_eq S i, if_pos member] at entry
  exact one_ne_zero entry

end ParityCheck
