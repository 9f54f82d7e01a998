import Mathlib.Combinatorics.Enumerative.DoubleCounting
import Mathlib.Data.Finset.Powerset
import Mathlib.Data.Nat.Choose.Basic
import Mathlib.Tactic.Ring

/- A reservoir of `s` items whose draw for item `n` is below `n`, one less than a fair one: how many
   runs end with each set. The runs are counted for any sampler that obeys the recurrence. -/
namespace Reservoir

open Finset

/-- `total n` runs have seen the items below `n`, and `kept n A` of them hold the set `A`. Item `n`
    takes the place of one held item in `s` of `n` draws. -/
structure Counts (s : ℕ) (total : ℕ → ℕ) (kept : ℕ → Finset ℕ → ℕ) : Prop where
  one : total s = 1
  initial : kept s (range s) = 1
  draws : ∀ n ≥ s, total (n + 1) = total n * n
  missed : ∀ n ≥ s, ∀ A ∈ (range (n + 1)).powersetCard s, n ∉ A →
    kept (n + 1) A = kept n A * (n - s)
  entered : ∀ n ≥ s, ∀ A ∈ (range (n + 1)).powersetCard s, n ∈ A →
    kept (n + 1) A = ∑ x ∈ range n \ A, kept n (insert x (A.erase n))

theorem mem_range_of_notMem {s n : ℕ} {A : Finset ℕ} (inside : A ∈ (range (n + 1)).powersetCard s)
    (absent : n ∉ A) : A ∈ (range n).powersetCard s := by
  obtain ⟨part, sized⟩ := mem_powersetCard.mp inside
  rw [mem_powersetCard]
  refine ⟨fun a listed => ?_, sized⟩
  have below := mem_range.mp (part listed)
  have different : a ≠ n := fun same => absent (same ▸ listed)
  exact mem_range.mpr (by omega)

theorem before_mem {s n x : ℕ} {A : Finset ℕ} (inside : A ∈ (range (n + 1)).powersetCard s)
    (entered : n ∈ A) (out : x ∈ range n \ A) :
    insert x (A.erase n) ∈ (range n).powersetCard s := by
  obtain ⟨part, sized⟩ := mem_powersetCard.mp inside
  obtain ⟨below, absent⟩ := mem_sdiff.mp out
  have fresh : x ∉ A.erase n := fun listed => absent (mem_of_mem_erase listed)
  have counted := card_erase_add_one entered
  rw [mem_powersetCard]
  constructor
  · intro a listed
    rcases mem_insert.mp listed with rfl | earlier
    · exact below
    · have different := ne_of_mem_erase earlier
      have bounded := mem_range.mp (part (mem_of_mem_erase earlier))
      exact mem_range.mpr (by omega)
  · rw [card_insert_of_notMem fresh]
    omega

theorem sum_card_erase {D E : Finset ℕ} (part : D ⊆ E) :
    ∑ x ∈ E, #(D.erase x) + #D = #E * #D := by
  have once : ∑ x ∈ E, (if x ∈ D then 1 else 0) = #D := by
    rw [← sum_filter, filter_mem_eq_inter, inter_eq_right.mpr part, card_eq_sum_ones]
  have each (x : ℕ) : #(D.erase x) + (if x ∈ D then 1 else 0) = #D := by
    by_cases listed : x ∈ D
    · rw [if_pos listed, card_erase_add_one listed]
    · rw [if_neg listed, erase_eq_of_notMem listed, Nat.add_zero]
  calc ∑ x ∈ E, #(D.erase x) + #D
      = ∑ x ∈ E, (#(D.erase x) + if x ∈ D then 1 else 0) := by rw [sum_add_distrib, once]
    _ = #E * #D := sum_const_nat fun x _ => each x

theorem sum_before {s n : ℕ} {A : Finset ℕ} (inside : A ∈ (range (n + 1)).powersetCard s)
    (entered : n ∈ A) (later : s ≤ n) :
    ∑ x ∈ range n \ A, #(range s \ insert x (A.erase n)) = (n - s) * #(range s \ A) := by
  obtain ⟨part, sized⟩ := mem_powersetCard.mp inside
  have outside : #(range n \ A) = n + 1 - s := by
    have whole : range n \ A = range (n + 1) \ A := by
      rw [range_add_one, insert_sdiff_of_mem _ entered]
    rw [whole, card_sdiff_of_subset part, card_range, sized]
  have erased (x : ℕ) : range s \ insert x (A.erase n) = (range s \ A).erase x := by
    ext a
    simp only [mem_sdiff, mem_range, mem_insert, mem_erase]
    grind
  have counted := sum_card_erase (D := range s \ A) (E := range n \ A)
    (sdiff_subset_sdiff (range_subset_range.mpr later) (subset_refl A))
  rw [sum_congr rfl fun x _ => congrArg card (erased x)]
  rw [outside, show n + 1 - s = n - s + 1 by omega, Nat.succ_mul] at counted
  exact Nat.add_right_cancel counted

namespace Counts

variable {s : ℕ} {total : ℕ → ℕ} {kept : ℕ → Finset ℕ → ℕ} (counts : Counts s total kept)
include counts

theorem kept_first {A : Finset ℕ} (inside : A ∈ (range (s + 1)).powersetCard s) :
    kept (s + 1) A = #(range s \ A) := by
  have whole {B : Finset ℕ} (member : B ∈ (range s).powersetCard s) : B = range s := by
    obtain ⟨part, sized⟩ := mem_powersetCard.mp member
    exact eq_of_subset_of_card_le part (by rw [sized, card_range])
  by_cases entered : s ∈ A
  · rw [counts.entered s (le_refl s) A inside entered, card_eq_sum_ones]
    apply sum_congr rfl
    intro x out
    rw [whole (before_mem inside entered out), counts.initial]
  · rw [counts.missed s (le_refl s) A inside entered, whole (mem_range_of_notMem inside entered)]
    simp

/-- A set is held the less often the more of the first items it has. -/
theorem kept_mul {n : ℕ} (later : s < n) {A : Finset ℕ} (inside : A ∈ (range n).powersetCard s) :
    kept n A * (s * (n - 1).choose s) = total n * #(range s \ A) := by
  obtain ⟨k, rfl⟩ : ∃ k, n = s + 1 + k := ⟨n - (s + 1), by omega⟩
  clear later
  induction k generalizing A with
  | zero =>
    rw [Nat.add_zero] at inside ⊢
    rw [counts.kept_first inside, counts.draws s (le_refl s), counts.one, Nat.add_sub_cancel,
      Nat.choose_self]
    ring
  | succ k ih =>
    obtain ⟨n, isN⟩ : ∃ n, n = s + 1 + k := ⟨_, rfl⟩
    rw [← isN] at ih
    rw [show s + 1 + (k + 1) = n + 1 by omega] at inside ⊢
    have pascal : (n - 1).choose s * n = n.choose s * (n - s) := by
      have identity := Nat.choose_mul_succ_eq (n - 1) s
      rwa [show n - 1 + 1 = n by omega] at identity
    have scaled : kept (n + 1) A * (s * (n - 1).choose s) =
        (n - s) * (total n * #(range s \ A)) := by
      by_cases entered : n ∈ A
      · rw [counts.entered n (by omega) A inside entered, sum_mul,
          sum_congr rfl fun x out => ih (before_mem inside entered out), ← mul_sum,
          sum_before inside entered (by omega)]
        ring
      · rw [counts.missed n (by omega) A inside entered, mul_right_comm,
          ih (mem_range_of_notMem inside entered), mul_comm]
    have room : 0 < n - s := by omega
    apply Nat.eq_of_mul_eq_mul_left room
    rw [Nat.add_sub_cancel, counts.draws n (by omega)]
    calc (n - s) * (kept (n + 1) A * (s * n.choose s))
        = kept (n + 1) A * s * (n.choose s * (n - s)) := by ring
      _ = kept (n + 1) A * (s * (n - 1).choose s) * n := by rw [← pascal]; ring
      _ = (n - s) * (total n * n * #(range s \ A)) := by rw [scaled]; ring

/-- The runs that hold none of the items of `B`: of the first items one is lost for certain. -/
theorem missing_mul {n : ℕ} (later : s < n) {B : Finset ℕ} (part : B ⊆ range n) :
    (∑ A ∈ (range n \ B).powersetCard s, kept n A) * (s * (n - 1).choose s) =
      total n * (#(range s \ B) * (n - 1 - #B).choose s + #(range s ∩ B) * (n - #B).choose s) := by
  have held (A : Finset ℕ) (listed : A ∈ (range n \ B).powersetCard s) :
      kept n A * (s * (n - 1).choose s) = total n * #(range s \ A) :=
    counts.kept_mul later (powersetCard_mono sdiff_subset listed)
  have exchanged : ∑ A ∈ (range n \ B).powersetCard s, #(range s \ A) =
      ∑ v ∈ range s, #{A ∈ (range n \ B).powersetCard s | v ∉ A} := by
    have pairs := sum_card_bipartiteAbove_eq_sum_card_bipartiteBelow
      (s := (range n \ B).powersetCard s) (t := range s) fun A v => v ∉ A
    exact (sum_congr rfl fun A _ => congrArg card (sdiff_eq_filter _ _)).trans pairs
  have avoiding (v : ℕ) : {A ∈ (range n \ B).powersetCard s | v ∉ A} =
      ((range n \ B).erase v).powersetCard s := by
    ext A
    simp only [mem_filter, mem_powersetCard, subset_erase]
    tauto
  have outside : #(range n \ B) = n - #B := by rw [card_sdiff_of_subset part, card_range]
  have bad (v : ℕ) (listed : v ∈ range s ∩ B) :
      #(((range n \ B).erase v).powersetCard s) = (n - #B).choose s := by
    have absent : v ∉ range n \ B := fun member =>
      (mem_sdiff.mp member).2 (mem_of_mem_inter_right listed)
    rw [erase_eq_of_notMem absent, card_powersetCard, outside]
  have good (v : ℕ) (listed : v ∈ range s \ B) :
      #(((range n \ B).erase v).powersetCard s) = (n - 1 - #B).choose s := by
    obtain ⟨early, absent⟩ := mem_sdiff.mp listed
    have present : v ∈ range n \ B :=
      mem_sdiff.mpr ⟨mem_range.mpr ((mem_range.mp early).trans later), absent⟩
    rw [card_powersetCard, card_erase_of_mem present, outside, Nat.sub_right_comm]
  have early : range s ∩ B ⊆ range s := inter_subset_left
  have divided : ∑ v ∈ range s, #{A ∈ (range n \ B).powersetCard s | v ∉ A} =
      #(range s \ B) * (n - 1 - #B).choose s + #(range s ∩ B) * (n - #B).choose s := by
    rw [sum_congr rfl fun v _ => congrArg card (avoiding v),
      ← sum_sdiff early, sdiff_inter_self_left,
      sum_const_nat good, sum_const_nat bad]
  rw [sum_mul, sum_congr rfl held, ← mul_sum, exchanged, divided]

end Counts

end Reservoir
