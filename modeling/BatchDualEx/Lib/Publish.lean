import BatchDualEx.Lib.Result
import Mathlib.Logic.Relation
import Mathlib.Data.Nat.Basic

/- A loop that fills slots, one after the other, and publishes below which index they are final.
   What is read below a published index is the same whenever it is read. -/
namespace Publish

variable {S E B : Type}

/-- A loop by its steps, with the slots that it fills. -/
structure Writer (S E B : Type) where
  finished : S → Prop
  step : S → Except E S
  done : S → Nat
  slot : S → Nat → B
  writes : S → Nat → Prop

namespace Writer

variable (w : Writer S E B)

def Next (s t : S) : Prop := ¬ w.finished s ∧ w.step s = .ok t

abbrev Reaches : S → S → Prop := Relation.ReflTransGen w.Next

/-- What is promised to the readers of the slots: the loop runs to its end, and slots below the
published index are final, at every step. -/
structure Publishes (start : S) (count : Nat) (value : Nat → B) : Prop where
  runs : ∀ s, w.Reaches start s → w.finished s ∨ ∃ t, w.step s = .ok t
  ends : ∃ t, w.Reaches start t ∧ w.finished t
  final : ∀ s, w.Reaches start s → w.done s ≤ count ∧ ∀ i < w.done s, w.slot s i = value i
  kept : ∀ s t, w.Reaches start s → w.Reaches s t → w.done s ≤ w.done t ∧
    ∀ i < w.done s, w.slot t i = w.slot s i ∧ ¬ w.writes t i
  whole : ∀ s, w.Reaches start s → w.finished s → w.done s = count

structure Keeps (Inv : S → Prop) : Prop where
  next : ∀ s, Inv s → ¬ w.finished s → ∃ t, w.step s = .ok t ∧ Inv t ∧ w.done s ≤ w.done t
  frame : ∀ s t i, w.step s = .ok t → ¬ w.writes s i → w.slot t i = w.slot s i
  above : ∀ s i, Inv s → w.writes s i → w.done s ≤ i

theorem reaches_range' {C : Type} (state : C → Nat → S) {turn : C → Nat → Except E C} {stop : Nat}
    (each : ∀ b r c, r < stop → turn b r = .ok c → w.Next (state b r) (state c (r + 1)))
    {r n : Nat} {b c : C} (inside : r + n ≤ stop)
    (run : (List.range' r n).foldlM turn b = .ok c) : w.Reaches (state b r) (state c (r + n)) := by
  induction n generalizing r b with
  | zero =>
    cases run
    exact .refl
  | succ n ih =>
    rw [List.range'_succ, List.foldlM_cons] at run
    obtain ⟨middle, first, run⟩ := Result.bind_ok run
    have later := ih (by omega) run
    rw [show r + 1 + n = r + (n + 1) by omega] at later
    exact .head (each b r middle (by omega) first) later

variable {w} {Inv : S → Prop} (keeps : w.Keeps Inv)
include keeps

theorem Keeps.of_next {s t : S} (inv : Inv s) (next : w.Next s t) :
    Inv t ∧ w.done s ≤ w.done t := by
  obtain ⟨t', step, inv', later⟩ := keeps.next s inv next.1
  obtain rfl := Except.ok.inj (step.symm.trans next.2)
  exact ⟨inv', later⟩

theorem Keeps.reaches {s t : S} (inv : Inv s) (run : w.Reaches s t) :
    Inv t ∧ w.done s ≤ w.done t := by
  induction run with
  | refl => exact ⟨inv, le_rfl⟩
  | tail _ next ih =>
    have later := keeps.of_next ih.1 next
    exact ⟨later.1, Nat.le_trans ih.2 later.2⟩

theorem Keeps.kept {s t : S} (inv : Inv s) (run : w.Reaches s t) {i : Nat} (below : i < w.done s) :
    w.slot t i = w.slot s i ∧ ¬ w.writes t i := by
  have unwritten : ∀ u, w.Reaches s u → ¬ w.writes u i := fun u run writes => by
    obtain ⟨inv', later⟩ := keeps.reaches inv run
    exact absurd (keeps.above u i inv' writes) (by omega)
  refine ⟨?_, unwritten t run⟩
  induction run with
  | refl => rfl
  | tail earlier next ih => rw [keeps.frame _ _ i next.2 (unwritten _ earlier), ih]

/-- A measure that every step lowers brings the loop to its end. -/
theorem Keeps.ends {measure : S → Nat} (lowers : ∀ s t, Inv s → w.Next s t → measure t < measure s)
    {s : S} (inv : Inv s) : ∃ t, w.Reaches s t ∧ w.finished t := by
  induction size : measure s using Nat.strong_induction_on generalizing s with
  | _ n ih =>
    subst size
    by_cases finished : w.finished s
    · exact ⟨s, .refl, finished⟩
    · obtain ⟨t, step, inv', -⟩ := keeps.next s inv finished
      obtain ⟨u, run, finished'⟩ := ih (measure t) (lowers s t inv ⟨finished, step⟩) inv' rfl
      exact ⟨u, .head ⟨finished, step⟩ run, finished'⟩

theorem Keeps.publishes {measure : S → Nat}
    (lowers : ∀ s t, Inv s → w.Next s t → measure t < measure s) {start : S} {count : Nat}
    {value : Nat → B}
    (final : ∀ s, Inv s → w.done s ≤ count ∧ ∀ i < w.done s, w.slot s i = value i)
    (whole : ∀ s, Inv s → w.finished s → w.done s = count) (inv : Inv start) :
    w.Publishes start count value := by
  refine ⟨fun s run => ?_, keeps.ends lowers inv, fun s run => final s (keeps.reaches inv run).1,
    fun s t run more => ?_, fun s run => whole s (keeps.reaches inv run).1⟩
  · by_cases finished : w.finished s
    · exact .inl finished
    · obtain ⟨t, step, -⟩ := keeps.next s (keeps.reaches inv run).1 finished
      exact .inr ⟨t, step⟩
  · have here := (keeps.reaches inv run).1
    exact ⟨(keeps.reaches here more).2, fun i below => keeps.kept here more below⟩

end Writer

end Publish
