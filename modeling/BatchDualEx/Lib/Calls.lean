import BatchDualEx.Lib.Pending
import BatchDualEx.Lib.Run
import Mathlib.Algebra.Order.BigOperators.Group.Finset
import Mathlib.Data.Fintype.BigOperators
import Mathlib.Logic.Function.Basic

/- Calls of several kinds, each made once for every index, in any order in which none of them has
   to wait: what holds of all orders when a call returns as soon as the calls that it depends on
   have been made. -/
namespace Calls

open Function Pending

variable {S K E : Type} [DecidableEq K]

/-- A call is `none` while it waits. The state knows which calls have returned. -/
structure System (S K E : Type) where
  size : Nat
  call : S → K → Nat → Option (Except E S)
  made : S → K → Finset Nat
  record : S → (K → Finset Nat) → S

def mark (made : K → Finset Nat) (k : K) (idx : Nat) : K → Finset Nat :=
  update made k (insert idx (made k))

theorem mem_mark {made : K → Finset Nat} {k : K} {idx i : Nat} (other : i ≠ idx) (k' : K) :
    i ∈ mark made k idx k' ↔ i ∈ made k' := by
  unfold mark
  by_cases same : k' = k
  · rw [same, update_self, Finset.mem_insert, or_iff_right other]
  · rw [update_of_ne same]

theorem mark_self (made : K → Finset Nat) (k : K) (idx : Nat) :
    mark made k idx k = insert idx (made k) :=
  update_self _ _ _

theorem mark_of_ne {made : K → Finset Nat} {k k' : K} (other : k' ≠ k) (idx : Nat) :
    mark made k idx k' = made k' :=
  update_of_ne other _ _

namespace System

variable (sys : System S K E)

def due (s : S) (c : K × Nat) : Prop := c.2 < sys.size ∧ c.2 ∉ sys.made s c.1

instance (s : S) (c : K × Nat) : Decidable (sys.due s c) := inferInstanceAs (Decidable (_ ∧ _))

def step (s : S) (c : K × Nat) : Option S :=
  if sys.due s c then
    (sys.call s c.1 c.2).bind fun result =>
      result.toOption.map fun t => sys.record t (mark (sys.made s) c.1 c.2)
  else none

/-- Under the invariant a call returns when the calls it waits for have been made, and waits
    otherwise; and some call is always ready. -/
structure Honest (Ready : (K → Finset Nat) → Nat → K → Prop) (Inv : S → Prop) : Prop where
  records : ∀ s made, sys.made (sys.record s made) = made
  returns : ∀ s k idx, Inv s → idx < sys.size → idx ∉ sys.made s k → Ready (sys.made s) idx k →
    ∃ t, sys.call s k idx = some (.ok t) ∧ Inv (sys.record t (mark (sys.made s) k idx))
  waits : ∀ s k idx, Inv s → idx < sys.size → ¬ Ready (sys.made s) idx k →
    sys.call s k idx = none
  live : ∀ made : K → Finset Nat,
    (∀ k, ∀ idx < sys.size, idx ∉ made k → ¬ Ready made idx k) → ∀ k, ∀ idx < sys.size, idx ∈ made k

variable {sys}

theorem step_some {s t : S} {c : K × Nat} (taken : sys.step s c = some t) :
    sys.due s c ∧ ∃ u, sys.call s c.1 c.2 = some (.ok u) ∧
      t = sys.record u (mark (sys.made s) c.1 c.2) := by
  unfold step at taken
  split at taken
  case isTrue isDue =>
    obtain ⟨result, called, taken⟩ := Option.bind_eq_some_iff.mp taken
    cases result with
    | error fault => cases taken
    | ok u =>
      cases taken
      exact ⟨isDue, u, called, rfl⟩
  case isFalse => cases taken

variable {Ready : (K → Finset Nat) → Nat → K → Prop} {Inv : S → Prop} {s t : S}

theorem Honest.step (honest : sys.Honest Ready Inv) (inv : Inv s) {c : K × Nat}
    (taken : sys.step s c = some t) : Inv t := by
  obtain ⟨⟨below, fresh⟩, u, called, rfl⟩ := step_some taken
  by_cases ready : Ready (sys.made s) c.2 c.1
  · obtain ⟨u', called', after⟩ := honest.returns s c.1 c.2 inv below fresh ready
    cases called.symm.trans called'
    exact after
  · cases called.symm.trans (honest.waits s c.1 c.2 inv below ready)

theorem Honest.run (honest : sys.Honest Ready Inv) (inv : Inv s)
    (run : Run.Along sys.step (fun _ _ => True) s t) : Inv t :=
  run.invariant (fun _ _ _ inv _ taken => honest.step inv taken) inv

theorem Honest.not_thrown (honest : sys.Honest Ready Inv) (inv : Inv s) {c : K × Nat}
    (isDue : sys.due s c) (fault : E) : sys.call s c.1 c.2 ≠ some (.error fault) := by
  intro thrown
  by_cases ready : Ready (sys.made s) c.2 c.1
  · obtain ⟨u, called, _⟩ := honest.returns s c.1 c.2 inv isDue.1 isDue.2 ready
    cases thrown.symm.trans called
  · cases thrown.symm.trans (honest.waits s c.1 c.2 inv isDue.1 ready)

theorem Honest.all_made (honest : sys.Honest Ready Inv) (inv : Inv s)
    (stuck : ∀ c, sys.step s c = none) : ∀ k, ∀ idx < sys.size, idx ∈ sys.made s k := by
  refine honest.live (sys.made s) fun k idx below fresh ready => ?_
  obtain ⟨t, called, _⟩ := honest.returns s k idx inv below fresh ready
  have taken := stuck (k, idx)
  unfold System.step at taken
  rw [if_pos ⟨below, fresh⟩, called] at taken
  cases taken

def left [Fintype K] (n : Nat) (made : K → Finset Nat) : Nat := ∑ k, pending n (made k)

theorem left_mark [Fintype K] {n : Nat} {made : K → Finset Nat} {k : K} {idx : Nat}
    (below : idx < n) (fresh : idx ∉ made k) : left n (mark made k idx) < left n made := by
  have fewer := pending_insert_lt below fresh
  refine Finset.sum_lt_sum (fun k' _ => ?_) ⟨k, Finset.mem_univ k, ?_⟩
  · by_cases same : k' = k
    · rw [same, mark_self]
      exact fewer.le
    · rw [mark_of_ne same]
  · rw [mark_self]
    exact fewer

theorem exec_length_le [Fintype K] (records : ∀ s made, sys.made (sys.record s made) = made)
    (fresh : ∀ k, sys.made s k = ∅) {cs : List (K × Nat)} (run : Run.exec sys.step s cs = some t) :
    cs.length ≤ Fintype.card K * sys.size := by
  have lowers (s : S) (c : K × Nat) (t : S) (taken : sys.step s c = some t) :
      left sys.size (sys.made t) < left sys.size (sys.made s) := by
    obtain ⟨⟨below, new⟩, u, _, rfl⟩ := step_some taken
    rw [records]
    exact left_mark below new
  have bound := Run.exec_length_le lowers run
  have start : left sys.size (sys.made s) = Fintype.card K * sys.size := by
    unfold left
    simp [fresh]
  omega

end System

end Calls
