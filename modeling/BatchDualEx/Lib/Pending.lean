import Mathlib.Data.Finset.Card
import Mathlib.Data.Finset.Range

/- The tasks `0, ..., n - 1` that are still to be done: what a counter that starts at `n` and
   goes down once for every task stands at. -/
namespace Pending

variable {n i : Nat} {done : Finset Nat}

def pending (n : Nat) (done : Finset Nat) : Nat := (Finset.range n \ done).card

@[simp] theorem pending_empty (n : Nat) : pending n ∅ = n := by
  unfold pending
  rw [Finset.sdiff_empty, Finset.card_range]

theorem pending_insert (below : i < n) (fresh : i ∉ done) :
    pending n (insert i done) = pending n done - 1 := by
  have member : i ∈ Finset.range n \ done :=
    Finset.mem_sdiff.mpr ⟨Finset.mem_range.mpr below, fresh⟩
  unfold pending
  rw [Finset.sdiff_insert, Finset.card_erase_of_mem member]

theorem pending_eq_zero_iff : pending n done = 0 ↔ ∀ i < n, i ∈ done := by
  unfold pending
  rw [Finset.card_eq_zero, Finset.sdiff_eq_empty_iff_subset]
  constructor
  · intro all i below
    exact all (Finset.mem_range.mpr below)
  · intro all i member
    exact all i (Finset.mem_range.mp member)

theorem pending_insert_lt (below : i < n) (fresh : i ∉ done) :
    pending n (insert i done) < pending n done := by
  have waiting : pending n done ≠ 0 := fun none => fresh (pending_eq_zero_iff.mp none i below)
  rw [pending_insert below fresh]
  omega

theorem pending_add_insert (below : i < n) (fresh : i ∉ done) (other : Nat) :
    other + pending n (insert i done) = other + pending n done - 1 := by
  have fewer := pending_insert_lt below fresh
  rw [pending_insert below fresh]
  omega

end Pending
