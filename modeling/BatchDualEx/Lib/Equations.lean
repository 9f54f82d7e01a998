import Mathlib.Order.WellFounded

/- Systems with one equation for every unknown, each of which reads only unknowns of a lower
   rank: they have a solution. -/
namespace Equations

variable {N α : Type} (rank : N → Nat) (F : N → (N → α) → α)

def Acyclic : Prop :=
  ∀ n v v', (∀ p, rank p < rank n → v p = v' p) → F n v = F n v'

variable {rank F}

theorem exists_solution [Inhabited α] (acyclic : Acyclic rank F) : ∃ v, ∀ n, v n = F n v := by
  let below (n : N) (v : ∀ p, rank p < rank n → α) : α :=
    F n fun p => if lower : rank p < rank n then v p lower else default
  let v : N → α := (measure rank).wf.fix below
  refine ⟨v, fun n => ?_⟩
  have unfolded : v n = below n fun p _ => v p := (measure rank).wf.fix_eq below n
  rw [unfolded]
  exact acyclic n _ _ fun p lower => dif_pos lower

end Equations
