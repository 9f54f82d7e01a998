import Mathlib.Data.List.Forall2

/- Two communication scripts run against each other: the `k`-th message sent meets the `k`-th
   message expected. Scripts are put together from pieces of equal length. -/
namespace Script

variable {α β ι : Type} {R : α → β → Prop}

theorem forall₂_append_iff {as cs : List α} {bs ds : List β} (sized : as.length = bs.length) :
    List.Forall₂ R (as ++ cs) (bs ++ ds) ↔ List.Forall₂ R as bs ∧ List.Forall₂ R cs ds := by
  induction as generalizing bs with
  | nil =>
    cases bs with
    | nil => simp
    | cons b bs => exact nomatch sized
  | cons a as ih =>
    cases bs with
    | nil => exact nomatch sized
    | cons b bs =>
      simp only [List.cons_append, List.forall₂_cons, ih (Nat.succ.inj sized), and_assoc]

def forEach (items : List ι) (piece : List α) : List α := items.flatMap fun _ => piece

theorem length_forEach (items : List ι) (piece : List α) :
    (forEach items piece).length = items.length * piece.length := by
  induction items with
  | nil => simp [forEach]
  | cons item items ih =>
    unfold forEach at ih ⊢
    rw [List.flatMap_cons, List.length_append, ih, List.length_cons, Nat.add_one_mul, Nat.add_comm]

theorem forall₂_forEach_iff {as : List α} {bs : List β} (sized : as.length = bs.length)
    (items : List ι) :
    List.Forall₂ R (forEach items as) (forEach items bs) ↔
      (items ≠ [] → List.Forall₂ R as bs) := by
  induction items with
  | nil => simp [forEach]
  | cons item items ih =>
    unfold forEach at ih ⊢
    rw [List.flatMap_cons, List.flatMap_cons, forall₂_append_iff sized, ih]
    constructor
    · intro both _
      exact both.1
    · intro piece
      exact ⟨piece (List.cons_ne_nil _ _), fun _ => piece (List.cons_ne_nil _ _)⟩

theorem forall₂_forEach_append_iff {as : List α} {bs : List β} (sized : as.length = bs.length)
    (items : List ι) {cs : List α} {ds : List β} :
    List.Forall₂ R (forEach items as ++ cs) (forEach items bs ++ ds) ↔
      (items ≠ [] → List.Forall₂ R as bs) ∧ List.Forall₂ R cs ds := by
  rw [forall₂_append_iff (by rw [length_forEach, length_forEach, sized]),
    forall₂_forEach_iff sized]

end Script
