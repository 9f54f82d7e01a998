import Mathlib.Data.Fintype.Card
import Mathlib.Data.Fintype.EquivFin
import Mathlib.Logic.Relation

/- Relations on finite types that are well-founded have a rank in the natural numbers. -/
namespace Acyclic

open Relation

variable {α : Type} {r : α → α → Prop}

/-- The rank of an element is the number of elements below it. -/
theorem exists_rank [Finite α] (wf : WellFounded r) :
    ∃ rank : α → Nat, ∀ a b, r a b → rank a < rank b := by
  classical
  cases nonempty_fintype α
  refine ⟨fun b => (Finset.univ.filter fun a => TransGen r a b).card, ?_⟩
  intro a b below
  apply Finset.card_lt_card
  constructor
  · intro c under
    rw [Finset.mem_filter] at under ⊢
    exact ⟨under.1, under.2.tail below⟩
  · intro reversed
    have here := reversed (Finset.mem_filter.mpr ⟨Finset.mem_univ a, .single below⟩)
    have cycle := (Finset.mem_filter.mp here).2
    exact wf.transGen.asymmetric _ _ cycle cycle

end Acyclic
