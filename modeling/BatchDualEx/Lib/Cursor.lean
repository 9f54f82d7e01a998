import Mathlib.Data.Nat.Basic
import Mathlib.Algebra.BigOperators.Group.List.Basic
import Mathlib.Algebra.GroupWithZero.Nat
import Mathlib.Algebra.Order.BigOperators.Group.List

/- A cursor that hands out consecutive intervals, and the share of `n` items which the
   `t`-th of `parts` workers receives when the bounds are rounded down. -/
namespace Cursor

/-- The intervals `(first, size)` handed out from `start` on. -/
def intervals : Nat → List Nat → List (Nat × Nat)
  | _, [] => []
  | start, size :: sizes => (start, size) :: intervals (start + size) sizes

theorem intervals_append (start : Nat) (sizes more : List Nat) :
    intervals start (sizes ++ more) =
      intervals start sizes ++ intervals (start + sizes.sum) more := by
  induction sizes generalizing start with
  | nil => rfl
  | cons size sizes ih =>
    simp only [List.cons_append, intervals, ih, List.sum_cons, Nat.add_assoc]

theorem intervals_bounds {start : Nat} {sizes : List Nat} {i : Nat × Nat}
    (handed : i ∈ intervals start sizes) :
    start ≤ i.1 ∧ i.1 + i.2 ≤ start + sizes.sum := by
  induction sizes generalizing start with
  | nil => exact absurd handed List.not_mem_nil
  | cons size sizes ih =>
    rw [List.sum_cons]
    rcases List.mem_cons.mp handed with rfl | later
    · constructor <;> simp only <;> omega
    · have bounds := ih later
      omega

theorem intervals_ordered (start : Nat) (sizes : List Nat) :
    (intervals start sizes).Pairwise fun i j => i.1 + i.2 ≤ j.1 := by
  induction sizes generalizing start with
  | nil => exact List.Pairwise.nil
  | cons size sizes ih =>
    exact List.Pairwise.cons (fun j later => (intervals_bounds later).1) (ih _)

theorem share_le (n t : Nat) {parts : Nat} (some : 0 < parts) :
    (t + 1) * n / parts - t * n / parts ≤ (n + parts - 1) / parts := by
  have below : t * n < t * n / parts * parts + parts := Nat.lt_div_mul_add some
  have bound : (t + 1) * n ≤ parts * (t * n / parts) + (n + parts - 1) := by
    rw [Nat.add_one_mul, Nat.mul_comm parts]
    omega
  have quotient := Nat.div_le_div_right (c := parts) bound
  rw [Nat.mul_add_div some] at quotient
  exact Nat.sub_le_iff_le_add'.mpr quotient

theorem share_last (n : Nat) {parts : Nat} (some : 0 < parts) :
    parts * n / parts - (parts - 1) * n / parts = (n + parts - 1) / parts := by
  have le : (n + parts - 1) / parts ≤ n := by
    rw [Nat.div_le_iff_le_mul_add_pred some]
    have := Nat.le_mul_of_pos_left n some
    omega
  have floor := Nat.div_mul_le_self (n + parts - 1) parts
  have ceil : n + parts - 1 < (n + parts - 1) / parts * parts + parts := Nat.lt_div_mul_add some
  rw [Nat.mul_div_cancel_left n some]
  generalize (n + parts - 1) / parts = share at le floor ceil ⊢
  have whole := Nat.mul_le_mul_right parts le
  have before : (parts - 1) * n / parts = n - share := by
    apply Nat.div_eq_of_lt_le
    · rw [Nat.sub_mul, Nat.sub_one_mul, Nat.mul_comm parts n]
      omega
    · rw [Nat.add_one_mul, Nat.sub_one_mul, Nat.sub_mul, Nat.mul_comm parts n]
      omega
  rw [before]
  omega

theorem share_covers {n parts c t : Nat} (reached : c < t * n / parts) :
    ∃ u < t, u * n / parts ≤ c ∧ c < (u + 1) * n / parts := by
  induction t with
  | zero => simp at reached
  | succ t ih =>
    by_cases earlier : c < t * n / parts
    · obtain ⟨u, below, share⟩ := ih earlier
      exact ⟨u, by omega, share⟩
    · exact ⟨t, by omega, by omega, reached⟩

end Cursor
