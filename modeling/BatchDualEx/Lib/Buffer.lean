import BatchDualEx.Lib.Lists
import BatchDualEx.Lib.Result

/- Buffers of a fixed size that are filled from the front, and the loops that fill them. -/
namespace Buffer

variable {α β ε : Type}

def readAt (fault : ε) (xs : List α) (i : Nat) : Except ε α :=
  match xs[i]? with
  | some x => .ok x
  | none => .error fault

def writeAt (fault : ε) (xs : List α) (i : Nat) (x : α) : Except ε (List α) :=
  if i < xs.length then .ok (xs.set i x) else .error fault

theorem readAt_ok {fault : ε} {xs : List α} {i : Nat} (inside : i < xs.length) (d : α) :
    readAt fault xs i = .ok (xs.getD i d) := by
  unfold readAt
  rw [List.getElem?_eq_getElem inside, List.getD_eq_getElem _ _ inside]

def Filled (f : Nat → α) (d : α) (n : Nat) (xs : List α) : Prop := ∀ i < n, xs.getD i d = f i

variable {f : Nat → α} {d : α} {n : Nat} {xs : List α}

theorem filled_zero : Filled f d 0 xs := fun _ none => absurd none (Nat.not_lt_zero _)

theorem Filled.writeAt (filled : Filled f d n xs) (fault : ε) (inside : n < xs.length) :
    ∃ ys, writeAt fault xs n (f n) = .ok ys ∧ ys.length = xs.length ∧ Filled f d (n + 1) ys := by
  refine ⟨xs.set n (f n), if_pos inside, List.length_set, fun i below => ?_⟩
  by_cases last : n = i
  · subst last
    exact Lists.getD_set_self inside _ _
  · rw [Lists.getD_set_ne _ last]
    exact filled i (by omega)

/-- A loop over consecutive indices runs through when every step does under the invariant. -/
theorem foldlM_range'_total (Inv : Nat → β → Prop) {step : β → Nat → Except ε β} {start n : Nat}
    (each : ∀ k, start ≤ k → k < start + n → ∀ b, Inv k b →
      ∃ c, step b k = .ok c ∧ Inv (k + 1) c) {b : β} (begins : Inv start b) :
    ∃ c, (List.range' start n).foldlM step b = .ok c ∧ Inv (start + n) c := by
  induction n generalizing start b with
  | zero => exact ⟨b, rfl, begins⟩
  | succ n ih =>
    obtain ⟨next, first, inv⟩ := each start (Nat.le_refl _) (by omega) b begins
    obtain ⟨c, rest, last⟩ := ih (fun k after before => each k (by omega) (by omega)) inv
    refine ⟨c, ?_, by rwa [show start + 1 + n = start + (n + 1) by omega] at last⟩
    rw [List.range'_succ, List.foldlM_cons, first]
    exact rest

end Buffer
