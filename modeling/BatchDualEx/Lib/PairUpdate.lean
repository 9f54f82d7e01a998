import BatchDualEx.Lib.Lists

/- Updates in place of two entries at a time: when no entry is in two pairs, every pair is
   updated from the old values. -/
namespace PairUpdate

variable {α : Type} (f : α → α → α × α) (d : α)

def updatePair (rows : List α) (p : Nat × Nat) : List α :=
  let out := f (rows.getD p.1 d) (rows.getD p.2 d)
  (rows.set p.1 out.1).set p.2 out.2

def Outside (r : Nat) (p : Nat × Nat) : Prop := r ≠ p.1 ∧ r ≠ p.2

def Apart (p q : Nat × Nat) : Prop := Outside p.1 q ∧ Outside p.2 q

@[simp] theorem updatePair_length (rows : List α) (p : Nat × Nat) :
    (updatePair f d rows p).length = rows.length := by
  simp [updatePair]

@[simp] theorem foldl_updatePair_length (pairs : List (Nat × Nat)) (rows : List α) :
    (pairs.foldl (updatePair f d) rows).length = rows.length := by
  induction pairs generalizing rows with
  | nil => rfl
  | cons p pairs ih => rw [List.foldl_cons, ih, updatePair_length]

theorem updatePair_outside {p : Nat × Nat} {r : Nat} (outside : Outside r p) (rows : List α) :
    (updatePair f d rows p).getD r d = rows.getD r d := by
  unfold updatePair
  simp only
  rw [Lists.getD_set_ne _ (Ne.symm outside.2), Lists.getD_set_ne _ (Ne.symm outside.1)]

theorem foldl_updatePair_outside {pairs : List (Nat × Nat)} {r : Nat}
    (outside : ∀ p ∈ pairs, Outside r p) (rows : List α) :
    (pairs.foldl (updatePair f d) rows).getD r d = rows.getD r d := by
  induction pairs generalizing rows with
  | nil => rfl
  | cons p pairs ih =>
    rw [List.foldl_cons, ih fun q later => outside q (List.mem_cons_of_mem _ later),
      updatePair_outside f d (outside p List.mem_cons_self)]

theorem updatePair_self {p : Nat × Nat} (distinct : p.1 ≠ p.2) {rows : List α}
    (first : p.1 < rows.length) (second : p.2 < rows.length) :
    (updatePair f d rows p).getD p.1 d = (f (rows.getD p.1 d) (rows.getD p.2 d)).1 ∧
      (updatePair f d rows p).getD p.2 d = (f (rows.getD p.1 d) (rows.getD p.2 d)).2 := by
  unfold updatePair
  constructor
  · rw [Lists.getD_set_ne _ (Ne.symm distinct), Lists.getD_set_self first]
  · exact Lists.getD_set_self (by rwa [List.length_set]) _ _

theorem foldl_updatePair {pairs : List (Nat × Nat)} (apart : pairs.Pairwise Apart)
    {rows : List α} {p : Nat × Nat} (listed : p ∈ pairs) (distinct : p.1 ≠ p.2)
    (first : p.1 < rows.length) (second : p.2 < rows.length) :
    (pairs.foldl (updatePair f d) rows).getD p.1 d = (f (rows.getD p.1 d) (rows.getD p.2 d)).1 ∧
      (pairs.foldl (updatePair f d) rows).getD p.2 d =
        (f (rows.getD p.1 d) (rows.getD p.2 d)).2 := by
  induction pairs generalizing rows with
  | nil => exact absurd listed List.not_mem_nil
  | cons q pairs ih =>
    obtain ⟨away, rest⟩ := List.pairwise_cons.mp apart
    rw [List.foldl_cons]
    rcases List.mem_cons.mp listed with rfl | later
    · rw [foldl_updatePair_outside f d fun q later => (away q later).1,
        foldl_updatePair_outside f d fun q later => (away q later).2]
      exact updatePair_self f d distinct first second
    · obtain ⟨fromFirst, fromSecond⟩ := away p later
      have first' : p.1 < (updatePair f d rows q).length := by rwa [updatePair_length]
      have second' : p.2 < (updatePair f d rows q).length := by rwa [updatePair_length]
      have step := ih rest later first' second'
      rwa [updatePair_outside f d ⟨Ne.symm fromFirst.1, Ne.symm fromSecond.1⟩,
        updatePair_outside f d ⟨Ne.symm fromFirst.2, Ne.symm fromSecond.2⟩] at step

end PairUpdate
