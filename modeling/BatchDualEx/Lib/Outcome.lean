import Mathlib.Logic.Function.Basic

/- Calls on objects in memory. A call returns, or it throws and leaves the object as it then is, or
   it does something that the language does not define. -/
inductive Outcome (S α : Type) where
  | returned (s : S) (a : α)
  | thrown (s : S)
  | undefined
  deriving DecidableEq

namespace Outcome

variable {S T α β ι : Type}

def bind (o : Outcome S α) (next : S → α → Outcome S β) : Outcome S β :=
  match o with
  | returned s a => next s a
  | thrown s => thrown s
  | undefined => undefined

def map (put : S → T) : Outcome S α → Outcome T α
  | returned s a => returned (put s) a
  | thrown s => thrown (put s)
  | undefined => undefined

def state? : Outcome S α → Option S
  | returned s _ => some s
  | thrown s => some s
  | undefined => none

@[simp] theorem state?_returned (s : S) (a : α) : (returned s a).state? = some s := rfl
@[simp] theorem state?_thrown (s : S) : (thrown s : Outcome S α).state? = some s := rfl
@[simp] theorem state?_undefined : (undefined : Outcome S α).state? = none := rfl

@[simp] theorem bind_returned (s : S) (a : α) (next : S → α → Outcome S β) :
    (returned s a).bind next = next s a := rfl

@[simp] theorem bind_thrown (s : S) (next : S → α → Outcome S β) :
    (thrown s : Outcome S α).bind next = thrown s := rfl

theorem bind_eq_returned {o : Outcome S α} {next : S → α → Outcome S β} {t : S} {b : β}
    (run : o.bind next = returned t b) : ∃ s a, o = returned s a ∧ next s a = returned t b := by
  cases o with
  | returned s a => exact ⟨s, a, rfl, run⟩
  | thrown s => cases run
  | undefined => cases run

/-- The call is defined, what it returns satisfies one condition and what it leaves behind when it
    throws another. -/
def Ends (o : Outcome S α) (returns : S → α → Prop) (throws : S → Prop) : Prop :=
  match o with
  | returned s a => returns s a
  | thrown s => throws s
  | undefined => False

def Keeps (o : Outcome S α) (Inv : S → Prop) : Prop := o.Ends (fun s _ => Inv s) Inv

section

variable {o : Outcome S α} {returns returns' : S → α → Prop} {throws throws' : S → Prop}

theorem Ends.defined (ends : o.Ends returns throws) : o ≠ undefined := by
  intro same
  rw [same] at ends
  exact ends

theorem Ends.mono (ends : o.Ends returns throws) (more : ∀ s a, returns s a → returns' s a)
    (moreThrown : ∀ s, throws s → throws' s) : o.Ends returns' throws' := by
  cases o with
  | returned s a => exact more s a ends
  | thrown s => exact moreThrown s ends
  | undefined => exact ends

theorem Ends.bind {next : S → α → Outcome S β} {returns' : S → β → Prop}
    (first : o.Ends returns throws) (later : ∀ s a, returns s a → (next s a).Ends returns' throws) :
    (o.bind next).Ends returns' throws := by
  cases o with
  | returned s a => exact later s a first
  | thrown s => exact first
  | undefined => exact first

theorem Ends.returned (ends : o.Ends returns throws) {s : S} {a : α} (run : o = .returned s a) :
    returns s a := by
  rw [run] at ends
  exact ends

theorem Ends.exists_returned (ends : o.Ends returns fun _ => False) :
    ∃ s a, o = .returned s a ∧ returns s a := by
  cases o with
  | returned s a => exact ⟨s, a, rfl, ends⟩
  | thrown s => exact ends.elim
  | undefined => exact ends.elim

theorem Keeps.state {Inv : S → Prop} (keeps : o.Keeps Inv) {s : S} (left : o.state? = some s) :
    Inv s := by
  cases o with
  | returned t a =>
    cases left
    exact keeps
  | thrown t =>
    cases left
    exact keeps
  | undefined => cases left

end

section Objects

variable [DecidableEq ι]

def on (i : ι) (call : S → Outcome S α) (objects : ι → S) : Outcome (ι → S) α :=
  (call (objects i)).map (Function.update objects i)

theorem Ends.on {i : ι} {call : S → Outcome S α} {objects : ι → S} {returns : S → α → Prop}
    {throws : S → Prop} (ends : (call (objects i)).Ends returns throws) :
    (Outcome.on i call objects).Ends
      (fun after a => ∃ s, after = Function.update objects i s ∧ returns s a)
      (fun after => ∃ s, after = Function.update objects i s ∧ throws s) := by
  unfold Outcome.on
  cases ended : call (objects i) with
  | returned s a =>
    rw [ended] at ends
    exact ⟨s, rfl, ends⟩
  | thrown s =>
    rw [ended] at ends
    exact ⟨s, rfl, ends⟩
  | undefined =>
    rw [ended] at ends
    exact ends

theorem Keeps.on {Inv : S → Prop} {i : ι} {call : S → Outcome S α} {objects : ι → S}
    (all : ∀ j, Inv (objects j)) (keeps : (call (objects i)).Keeps Inv) :
    (Outcome.on i call objects).Keeps fun after => ∀ j, Inv (after j) := by
  have others (s : S) (inv : Inv s) : ∀ j, Inv (Function.update objects i s j) :=
    (Function.forall_update_iff objects fun _ => Inv).mpr ⟨inv, fun j _ => all j⟩
  refine (Ends.on keeps).mono ?_ ?_
  · intro after _ ⟨s, same, inv⟩
    exact same ▸ others s inv
  · intro after ⟨s, same, inv⟩
    exact same ▸ others s inv

end Objects

end Outcome
