import Mathlib.Data.List.Basic

/- Runs of a transition system in which every step is taken by an action, and the rule that
   carries an invariant along the runs whose steps all meet a condition. -/
namespace Run

variable {S A : Type}

/-- The states reached from `s` by steps that meet `meets` in the state before them. -/
inductive Along (step : S → A → Option S) (meets : S → A → Prop) (s : S) : S → Prop
  | refl : Along step meets s s
  | next {t u : S} (a : A) : Along step meets s t → meets t a → step t a = some u →
      Along step meets s u

variable {step : S → A → Option S} {meets : S → A → Prop}

theorem Along.invariant {Inv : S → Prop} {s t : S}
    (preserved : ∀ u a v, Inv u → meets u a → step u a = some v → Inv v)
    (run : Along step meets s t) (start : Inv s) : Inv t := by
  induction run with
  | refl => exact start
  | next a _ met taken ih => exact preserved _ a _ ih met taken

theorem Along.trans {s t u : S} (run : Along step meets s t) (more : Along step meets t u) :
    Along step meets s u := by
  induction more with
  | refl => exact run
  | next a _ met taken ih => exact ih.next a met taken

def exec (step : S → A → Option S) : S → List A → Option S
  | s, [] => some s
  | s, a :: as => (step s a).bind fun t => exec step t as

theorem Along.of_exec {s t : S} {as : List A} (all : ∀ a ∈ as, ∀ u, meets u a)
    (run : exec step s as = some t) : Along step meets s t := by
  induction as generalizing s with
  | nil =>
    cases run
    exact .refl
  | cons a as ih =>
    obtain ⟨u, taken, rest⟩ := Option.bind_eq_some_iff.mp run
    exact Along.trans (.next a .refl (all a List.mem_cons_self s) taken)
      (ih (fun b later => all b (List.mem_cons_of_mem a later)) rest)

/-- A measure that every step lowers bounds the length of a run. -/
theorem exec_length_le {measure : S → Nat}
    (lowers : ∀ s a t, step s a = some t → measure t < measure s) {s t : S} {as : List A}
    (run : exec step s as = some t) : as.length + measure t ≤ measure s := by
  induction as generalizing s with
  | nil =>
    cases run
    simp
  | cons a as ih =>
    obtain ⟨u, taken, rest⟩ := Option.bind_eq_some_iff.mp run
    have lower := lowers s a u taken
    have later := ih rest
    rw [List.length_cons]
    omega

theorem exists_stuck {measure : S → Nat}
    (lowers : ∀ s a t, step s a = some t → measure t < measure s) (s : S) :
    ∃ t, Along step (fun _ _ => True) s t ∧ ∀ a, step t a = none := by
  obtain ⟨n, bound⟩ : ∃ n, measure s ≤ n := ⟨_, Nat.le_refl _⟩
  induction n generalizing s with
  | zero =>
    refine ⟨s, .refl, fun a => ?_⟩
    cases taken : step s a with
    | none => rfl
    | some t =>
      have lower := lowers s a t taken
      omega
  | succ n ih =>
    by_cases stuck : ∀ a, step s a = none
    · exact ⟨s, .refl, stuck⟩
    · obtain ⟨a, moves⟩ := Classical.not_forall.mp stuck
      obtain ⟨t, taken⟩ := Option.ne_none_iff_exists'.mp moves
      have lower := lowers s a t taken
      obtain ⟨u, run, ends⟩ := ih t (by omega)
      exact ⟨u, Along.trans (.next a .refl trivial taken) run, ends⟩

end Run
