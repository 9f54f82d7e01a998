import Mathlib.Data.Option.Basic
import Mathlib.Logic.Function.Basic

/- Cells that are written once, such as promises: what is known for every way to fill the cells
   that are still empty stays known when one of them is filled. -/
namespace WriteOnce

open Function

variable {ι α : Type}

/-- `total` agrees with every cell that is written. -/
def Completes (cells : ι → Option α) (total : ι → α) : Prop :=
  ∀ i a, cells i = some a → total i = a

def Extends (later earlier : ι → Option α) : Prop :=
  ∀ i a, earlier i = some a → later i = some a

variable {earlier later : ι → Option α} {total : ι → α}

theorem Extends.completes (grows : Extends later earlier) (completes : Completes later total) :
    Completes earlier total :=
  fun i a written => completes i a (grows i a written)

theorem Extends.written (grows : Extends later earlier) {i : ι} (written : earlier i ≠ none) :
    later i ≠ none := by
  obtain ⟨a, value⟩ := Option.ne_none_iff_exists'.mp written
  rw [grows i a value]
  exact Option.some_ne_none a

theorem extends_update [DecidableEq ι] {i : ι} (empty : earlier i = none) (a : α) :
    Extends (update earlier i (some a)) earlier := by
  intro j a' written
  have apart : j ≠ i := by
    rintro rfl
    cases empty.symm.trans written
  rw [update_of_ne apart]
  exact written

end WriteOnce
