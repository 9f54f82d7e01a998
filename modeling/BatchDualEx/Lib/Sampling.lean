import Mathlib.Data.Finset.Card
import Mathlib.Data.Finset.Image
import Mathlib.Data.Finset.Prod
import Mathlib.Algebra.BigOperators.Group.Finset.Piecewise
import Mathlib.Algebra.Order.BigOperators.Group.Finset
import Mathlib.Data.List.GetD
import Mathlib.Order.Interval.Finset.Nat

/- Counting the runs of a sampler. A run is the list of its draws, the `k`-th of them a
   free choice below `bound k`; an output is uniform when all its targets have equally
   many runs. -/
namespace Sampling

open Finset

def sequences (bound : Nat → Nat) : Nat → Finset (List Nat)
  | 0 => {[]}
  | k + 1 => (sequences bound k ×ˢ range (bound k)).image fun p => p.1 ++ [p.2]

variable {bound : Nat → Nat}

theorem mem_sequences_succ {k : Nat} {l : List Nat} :
    l ∈ sequences bound (k + 1) ↔
      ∃ front ∈ sequences bound k, ∃ last < bound k, l = front ++ [last] := by
  simp only [sequences, mem_image, mem_product, mem_range, Prod.exists]
  constructor
  · rintro ⟨front, last, ⟨inFront, below⟩, rfl⟩
    exact ⟨front, inFront, last, below, rfl⟩
  · rintro ⟨front, inFront, last, below, rfl⟩
    exact ⟨front, last, ⟨inFront, below⟩, rfl⟩

theorem length_of_mem {k : Nat} {l : List Nat} (run : l ∈ sequences bound k) : l.length = k := by
  induction k generalizing l with
  | zero => simpa [sequences] using run
  | succ k ih =>
    obtain ⟨front, inFront, last, _, rfl⟩ := mem_sequences_succ.mp run
    simp [ih inFront]

theorem getD_lt_of_mem {k : Nat} {l : List Nat} (run : l ∈ sequences bound k) {j : Nat}
    (below : j < k) : l.getD j 0 < bound j := by
  induction k generalizing l with
  | zero => omega
  | succ k ih =>
    obtain ⟨front, inFront, last, small, rfl⟩ := mem_sequences_succ.mp run
    have sized := length_of_mem inFront
    by_cases final : j = k
    · subst final
      simpa [← sized] using small
    · rw [List.getD_append _ _ _ _ (by omega)]
      exact ih inFront (by omega)

theorem sequences_nonempty {k : Nat} (positive : ∀ i < k, 0 < bound i) :
    (sequences bound k).Nonempty := by
  induction k with
  | zero => exact ⟨[], by simp [sequences]⟩
  | succ k ih =>
    obtain ⟨front, inFront⟩ := ih fun i below => positive i (by omega)
    exact ⟨front ++ [0], mem_sequences_succ.mpr ⟨front, inFront, 0, positive k (by omega), rfl⟩⟩

/-- Runs whose last draw is below `m` make up a share `m / bound k`. -/
theorem card_last_lt {k m : Nat} (within : m ≤ bound k) :
    #{l ∈ sequences bound (k + 1) | l.getD k 0 < m} = #(sequences bound k) * m := by
  have split : {l ∈ sequences bound (k + 1) | l.getD k 0 < m} =
      (sequences bound k ×ˢ range m).image fun p => p.1 ++ [p.2] := by
    ext l
    simp only [mem_filter, mem_sequences_succ, mem_image, mem_product, mem_range, Prod.exists]
    constructor
    · rintro ⟨⟨front, inFront, last, below, rfl⟩, small⟩
      have sized := length_of_mem inFront
      exact ⟨front, last, ⟨inFront, by simpa [← sized] using small⟩, rfl⟩
    · rintro ⟨front, last, ⟨inFront, small⟩, rfl⟩
      have sized := length_of_mem inFront
      exact ⟨⟨front, inFront, last, by omega, rfl⟩, by simpa [← sized] using small⟩
  rw [split, card_image_of_injOn, card_product, card_range]
  intro p _ q _ same
  simpa [Prod.ext_iff] using same

theorem card_sequences_succ (k : Nat) :
    #(sequences bound (k + 1)) = #(sequences bound k) * bound k := by
  rw [← card_last_lt le_rfl, filter_true_of_mem]
  intro l run
  obtain ⟨front, inFront, last, below, rfl⟩ := mem_sequences_succ.mp run
  have sized := length_of_mem inFront
  simpa [← sized] using below

theorem card_filter_succ (k : Nat) (p : List Nat → Prop) [DecidablePred p] :
    #{l ∈ sequences bound (k + 1) | p l} =
      ∑ front ∈ sequences bound k, #{last ∈ range (bound k) | p (front ++ [last])} := by
  have split : {l ∈ sequences bound (k + 1) | p l} =
      {q ∈ sequences bound k ×ˢ range (bound k) | p (q.1 ++ [q.2])}.image
        fun q => q.1 ++ [q.2] := by
    ext l
    simp only [mem_filter, mem_sequences_succ, mem_image, mem_product, mem_range, Prod.exists]
    constructor
    · rintro ⟨⟨front, inFront, last, below, rfl⟩, holds⟩
      exact ⟨front, last, ⟨⟨inFront, below⟩, holds⟩, rfl⟩
    · rintro ⟨front, last, ⟨⟨inFront, below⟩, holds⟩, rfl⟩
      exact ⟨⟨front, inFront, last, below, rfl⟩, holds⟩
  rw [split, card_image_of_injOn]
  · simp only [card_filter, sum_product]
  · intro a _ b _ same
    simpa [Prod.ext_iff] using same

theorem card_forall_ge (m : Nat → Nat) {k : Nat} {J : Finset Nat} (inside : J ⊆ range k) :
    #{l ∈ sequences bound k | ∀ j ∈ J, m j ≤ l.getD j 0} * ∏ j ∈ J, bound j =
      #(sequences bound k) * ∏ j ∈ J, (bound j - m j) := by
  induction k generalizing J with
  | zero =>
    obtain rfl : J = ∅ := subset_empty.mp inside
    simp [sequences]
  | succ k ih =>
    have earlier : J.erase k ⊆ range k := by
      intro j listed
      have below := mem_range.mp (inside (mem_of_mem_erase listed))
      have different := ne_of_mem_erase listed
      exact mem_range.mpr (by omega)
    have front_getD {front : List Nat} (sized : front.length = k) (last : Nat) {j : Nat}
        (listed : j ∈ J.erase k) : (front ++ [last]).getD j 0 = front.getD j 0 :=
      List.getD_append _ _ _ _ (by rw [sized]; exact mem_range.mp (earlier listed))
    have before := ih earlier
    rw [card_filter_succ, card_sequences_succ]
    by_cases drawn : k ∈ J
    · have each (front : List Nat) (run : front ∈ sequences bound k) :
          #{last ∈ range (bound k) | ∀ j ∈ J, m j ≤ (front ++ [last]).getD j 0} =
            if ∀ j ∈ J.erase k, m j ≤ front.getD j 0 then bound k - m k else 0 := by
        have sized := length_of_mem run
        have last_getD (last : Nat) : (front ++ [last]).getD k 0 = last := by
          rw [← sized]
          simp
        have split (last : Nat) : (∀ j ∈ J, m j ≤ (front ++ [last]).getD j 0) ↔
            (∀ j ∈ J.erase k, m j ≤ front.getD j 0) ∧ m k ≤ last := by
          rw [← insert_erase drawn, forall_mem_insert, erase_insert (notMem_erase k J), last_getD,
            and_comm]
          exact and_congr_left' (forall₂_congr fun j listed => by rw [front_getD sized last listed])
        rw [filter_congr fun last _ => split last]
        by_cases holds : ∀ j ∈ J.erase k, m j ≤ front.getD j 0
        · have large : {last ∈ range (bound k) |
              (∀ j ∈ J.erase k, m j ≤ front.getD j 0) ∧ m k ≤ last} = Ico (m k) (bound k) := by
            ext last
            rw [mem_filter, mem_range, mem_Ico, and_iff_right holds, and_comm]
          rw [large, Nat.card_Ico, if_pos holds]
        · rw [if_neg holds, card_eq_zero, filter_eq_empty_iff]
          exact fun last _ both => holds both.1
      rw [sum_congr rfl each, ← sum_filter, sum_const_nat fun _ _ => rfl,
        ← mul_prod_erase J bound drawn, ← mul_prod_erase J (fun j => bound j - m j) drawn]
      calc _ = #{l ∈ sequences bound k | ∀ j ∈ J.erase k, m j ≤ l.getD j 0} *
              (∏ j ∈ J.erase k, bound j) * (bound k * (bound k - m k)) := by ac_rfl
        _ = _ := by
          rw [before]
          ac_rfl
    · have each (front : List Nat) (run : front ∈ sequences bound k) :
          #{last ∈ range (bound k) | ∀ j ∈ J, m j ≤ (front ++ [last]).getD j 0} =
            if ∀ j ∈ J, m j ≤ front.getD j 0 then bound k else 0 := by
        have sized := length_of_mem run
        rw [erase_eq_of_notMem drawn] at front_getD
        have same (last : Nat) : (∀ j ∈ J, m j ≤ (front ++ [last]).getD j 0) ↔
            ∀ j ∈ J, m j ≤ front.getD j 0 :=
          forall₂_congr fun j listed => by rw [front_getD sized last listed]
        rw [filter_congr fun last _ => same last]
        by_cases holds : ∀ j ∈ J, m j ≤ front.getD j 0
        · rw [if_pos holds, filter_true_of_mem fun _ _ => holds, card_range]
        · rw [if_neg holds, filter_false_of_mem fun _ _ => holds, card_empty]
      rw [erase_eq_of_notMem drawn] at before
      rw [sum_congr rfl each, ← sum_filter, sum_const_nat fun _ _ => rfl,
        Nat.mul_right_comm, before]
      ac_rfl

/-- Every target is the output of equally many runs. -/
def Uniform {α β : Type} [DecidableEq β] (runs : Finset α) (out : α → β)
    (targets : Finset β) : Prop :=
  ∀ a ∈ targets, ∀ b ∈ targets, #{r ∈ runs | out r = a} = #{r ∈ runs | out r = b}

/-- A uniform output falls into a family of targets in proportion to the family's size. -/
theorem Uniform.share {α β : Type} [DecidableEq β] {runs : Finset α} {out : α → β}
    {targets family : Finset β} (uniform : Uniform runs out targets)
    (lands : ∀ r ∈ runs, out r ∈ targets) (part : family ⊆ targets) :
    #{r ∈ runs | out r ∈ family} * targets.card = runs.card * family.card := by
  rcases family.eq_empty_or_nonempty with rfl | ⟨b, inFamily⟩
  · simp
  have fibre : ∀ sub ⊆ targets,
      #{r ∈ runs | out r ∈ sub} = sub.card * #{r ∈ runs | out r = b} := by
    intro sub inTargets
    rw [card_eq_sum_card_fiberwise (f := out) (t := sub) (fun r inSub => by
      simpa using (mem_filter.mp inSub).2)]
    refine sum_const_nat fun a inSub => ?_
    rw [← uniform a (inTargets inSub) b (part inFamily), filter_filter]
    congr 1
    ext r
    simp only [mem_filter]
    constructor
    · rintro ⟨run, _, same⟩; exact ⟨run, same⟩
    · rintro ⟨run, rfl⟩; exact ⟨run, inSub, rfl⟩
  have all : #{r ∈ runs | out r ∈ targets} = runs.card := by
    rw [filter_true_of_mem lands]
  rw [fibre family part, ← all, fibre targets subset_rfl]
  ac_rfl

end Sampling
