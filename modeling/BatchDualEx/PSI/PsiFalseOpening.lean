import BatchDualEx.PSI.Psi

/- `PsiReceiver::open` against a sender that opens other blocks than it has committed to. -/
namespace BatchDualEx.PsiReceiver

variable {Digest : Type} [DecidableEq Digest] (Commit : Block → Digest) (r : PsiReceiver Digest)
  (idx : Nat) (theirPse : List Block)

def Committed (j : Nat) : Prop := r.commit j idx = some (Commit (theirPse.getD j zeroBlock))

instance : DecidablePred (r.Committed Commit idx theirPse) := fun _ => by
  unfold Committed; infer_instance

def OwnValue (j : Nat) : Prop :=
  (r.mMyPSIValues.getD idx []).getD j zeroBlock = theirPse.getD j zeroBlock

def AllCommitted : Prop := ∀ j ∈ List.range r.mCommits.length, r.Committed Commit idx theirPse j

/-- `open` returns exactly on a true opening and throws `invalid_commitment` on any other. -/
def ChecksOpening : Prop :=
  ((∃ found, r.open Commit idx theirPse = .ok found) ↔ r.AllCommitted Commit idx theirPse) ∧
    (¬ r.AllCommitted Commit idx theirPse →
      r.open Commit idx theirPse = .error (.thrown "invalid_commitment"))

def beforeFalse : List Nat :=
  (List.range r.mCommits.length).takeWhile fun j => r.Committed Commit idx theirPse j

variable {Commit r idx theirPse}

theorem openLoop_cons_false {j : Nat} {js : List Nat}
    (isFalse : ¬ r.Committed Commit idx theirPse j) :
    r.openLoop Commit idx theirPse (j :: js) = .error (.thrown "invalid_commitment") := by
  have differs : some (Commit (theirPse.getD j zeroBlock)) ≠ r.commit j idx := by
    intro same
    exact isFalse same.symm
  rw [openLoop]
  exact if_pos differs

theorem openLoop_cons_own {j : Nat} {js : List Nat}
    (committed : r.Committed Commit idx theirPse j) (own : r.OwnValue idx theirPse j) :
    r.openLoop Commit idx theirPse (j :: js) = .ok true := by
  rw [openLoop, if_neg (not_not.mpr committed.symm)]
  exact if_pos own

theorem openLoop_cons_other {j : Nat} {js : List Nat}
    (committed : r.Committed Commit idx theirPse j) (other : ¬ r.OwnValue idx theirPse j) :
    r.openLoop Commit idx theirPse (j :: js) = r.openLoop Commit idx theirPse js := by
  rw [openLoop, if_neg (not_not.mpr committed.symm)]
  exact if_neg other

/-- The loop returns at the first own value, whatever stands behind it. -/
theorem openLoop_checks_iff (js : List Nat) :
    (((∃ found, r.openLoop Commit idx theirPse js = .ok found) ↔
          ∀ j ∈ js, r.Committed Commit idx theirPse j) ∧
        (¬ (∀ j ∈ js, r.Committed Commit idx theirPse j) →
          r.openLoop Commit idx theirPse js = .error (.thrown "invalid_commitment"))) ↔
      (∀ j ∈ js, r.Committed Commit idx theirPse j) ∨
        ∀ j ∈ js.takeWhile fun j => r.Committed Commit idx theirPse j,
          ¬ r.OwnValue idx theirPse j := by
  induction js with
  | nil => simp [openLoop]
  | cons j js ih =>
    by_cases committed : r.Committed Commit idx theirPse j
    · by_cases own : r.OwnValue idx theirPse j
      · rw [openLoop_cons_own committed own]
        simp only [List.forall_mem_cons, List.takeWhile_cons, committed, own, decide_true, if_true,
          true_and, not_true, false_and, or_false, reduceCtorEq, Except.ok.injEq, exists_eq',
          true_iff]
        constructor
        · intro checks
          exact checks.1
        · intro all
          exact ⟨all, fun missing => absurd all missing⟩
      · rw [openLoop_cons_other committed own]
        simp only [List.forall_mem_cons, List.takeWhile_cons, committed, own, decide_true, if_true,
          true_and, not_false_eq_true]
        exact ih
    · rw [openLoop_cons_false committed]
      simp [committed]

theorem open_checks_iff (sized : theirPse.length = r.mCommits.length) :
    r.ChecksOpening Commit idx theirPse ↔
      r.AllCommitted Commit idx theirPse ∨
        ∀ j ∈ r.beforeFalse Commit idx theirPse, ¬ r.OwnValue idx theirPse j := by
  have loop : r.open Commit idx theirPse =
      r.openLoop Commit idx theirPse (List.range r.mCommits.length) := by
    rw [PsiReceiver.open, if_neg (not_not.mpr sized)]
  rw [ChecksOpening, loop]
  exact openLoop_checks_iff _

/-- A receiver with two elements, whose own value for the first of them comes first. -/
def twoValues : PsiReceiver Block where
  mWordSize := 0
  mMyPermute := []
  mMyPSIValues := [[1, 2], [3, 4]]
  mCommits := [[1, 5], [5, 1]]
  mRemainingInputCommits := 0

theorem open_checks_iff_first_false :
    twoValues.ChecksOpening id 0 [6, 5] ↔
      twoValues.AllCommitted id 0 [6, 5] ∨
        ∀ j ∈ twoValues.beforeFalse id 0 [6, 5], ¬ twoValues.OwnValue 0 [6, 5] j :=
  open_checks_iff (by decide)

/-- The second block is not the committed one, and `open` returns at the first. -/
theorem open_misses_second_false :
    Function.Injective (id : Block → Block) ∧
      twoValues.open id 0 [1, 6] = .ok true ∧ ¬ twoValues.Committed id 0 [1, 6] 1 ∧
      ¬ twoValues.ChecksOpening id 0 [1, 6] := by
  have opens : twoValues.open id 0 [1, 6] = .ok true := by decide
  have second : ¬ twoValues.Committed id 0 [1, 6] 1 := by decide
  refine ⟨Function.injective_id, opens, second, ?_⟩
  intro checks
  exact second (checks.1.mp ⟨true, opens⟩ 1 (by decide))

end BatchDualEx.PsiReceiver
