import Mathlib.Algebra.Field.ZMod
import Mathlib.GroupTheory.SpecificGroups.Cyclic.Basic
import Mathlib.Tactic.Abel

/- Pairs in a group of prime order, under exponents that are residues of the order. A pair that is
   no multiple of another masks every element with a combination that vanishes on the other. -/
namespace DualMode

variable {P : Type*} [AddCommGroup P] {q : ℕ}

def Multiple (g h g' h' : P) : Prop := ∃ k : ℕ, g' = k • g ∧ h' = k • h

theorem multiple_zero (g h : P) : Multiple g h 0 0 := ⟨0, (zero_nsmul g).symm, (zero_nsmul h).symm⟩

section

variable [NeZero q] (card : Nat.card P = q)
include card

theorem val_add_nsmul (a b : ZMod q) (p : P) : (a + b).val • p = a.val • p + b.val • p := by
  have reduced := mod_natCard_nsmul p (a.val + b.val)
  rw [card, ← ZMod.val_add] at reduced
  rw [reduced, add_nsmul]

omit [NeZero q] in
theorem val_natCast_nsmul (k : ℕ) (p : P) : (k : ZMod q).val • p = k • p := by
  have reduced := mod_natCard_nsmul p k
  rw [card, ← ZMod.val_natCast] at reduced
  exact reduced

theorem val_neg_nsmul (a : ZMod q) (p : P) : (-a).val • p = -(a.val • p) := by
  have cancelled := val_add_nsmul card (-a) a p
  rw [neg_add_cancel, ZMod.val_zero, zero_nsmul] at cancelled
  exact eq_neg_of_add_eq_zero_left cancelled.symm

end

section

variable [Fact q.Prime] (card : Nat.card P = q)
include card

theorem exists_nsmul {g : P} (generator : g ≠ 0) (p : P) : ∃ k : ℕ, p = k • g := by
  obtain ⟨k, reached⟩ : p ∈ AddSubmonoid.multiples g := mem_multiples_of_prime_card card generator
  exact ⟨k, reached.symm⟩

theorem nsmul_eq_of_generator {g : P} (generator : g ≠ 0) {x y : ℕ} (same : x • g = y • g) (p : P) :
    x • p = y • p := by
  obtain ⟨k, rfl⟩ := exists_nsmul card generator p
  rw [nsmul_left_comm, same, nsmul_left_comm]

theorem val_nsmul_inj {g : P} (generator : g ≠ 0) {a b : ZMod q} (same : a.val • g = b.val • g) :
    a = b := by
  have order : addOrderOf g = q := by
    apply addOrderOf_eq_prime _ generator
    rw [← card]
    exact card_nsmul_eq_zero'
  rw [nsmul_inj_mod, order, Nat.mod_eq_of_lt (ZMod.val_lt a), Nat.mod_eq_of_lt (ZMod.val_lt b)]
    at same
  exact ZMod.val_injective q same

theorem exists_mask {g h g' h' : P} (generator : g ≠ 0) (apart : ¬ Multiple g h g' h') (p : P) :
    ∃ s t : ZMod q, s.val • g + t.val • h = 0 ∧ s.val • g' + t.val • h' = p := by
  obtain ⟨x, isH⟩ := exists_nsmul card generator h
  have differ : h' - x • g' ≠ 0 := by
    intro same
    obtain ⟨k, isG'⟩ := exists_nsmul card generator g'
    apply apart
    refine ⟨k, isG', ?_⟩
    rw [sub_eq_zero.mp same, isH, isG', nsmul_left_comm]
  obtain ⟨t, isP⟩ := exists_nsmul card differ p
  refine ⟨-((t * x : ℕ) : ZMod q), (t : ZMod q), ?_, ?_⟩
  · rw [val_neg_nsmul card, val_natCast_nsmul card, val_natCast_nsmul card, isH, mul_nsmul',
      neg_add_cancel]
  · rw [val_neg_nsmul card, val_natCast_nsmul card, val_natCast_nsmul card, isP, mul_nsmul',
      nsmul_sub]
    abel

/-- Only the pair of zeros is a multiple of two pairs without a common factor. -/
theorem eq_zero_of_multiples {g h g₁ h₁ g' h' : P} (generator : g ≠ 0) (generator₁ : g₁ ≠ 0)
    (apart : ¬ ∃ x : ℕ, h = x • g ∧ h₁ = x • g₁) (first : Multiple g h g' h')
    (second : Multiple g₁ h₁ g' h') : g' = 0 ∧ h' = 0 := by
  obtain ⟨x, isH⟩ := exists_nsmul card generator h
  obtain ⟨y, isH₁⟩ := exists_nsmul card generator₁ h₁
  obtain ⟨k, isG', isH'⟩ := first
  obtain ⟨l, isG'₁, isH'₁⟩ := second
  have byFirst : h' = x • g' := by rw [isH', isH, isG', nsmul_left_comm]
  have bySecond : h' = y • g' := by rw [isH'₁, isH₁, isG'₁, nsmul_left_comm]
  by_cases zero : g' = 0
  · rw [byFirst, zero, nsmul_zero]
    exact ⟨rfl, rfl⟩
  · have same := nsmul_eq_of_generator card zero (byFirst.symm.trans bySecond) g₁
    exact absurd ⟨x, isH, isH₁.trans same.symm⟩ apart

end

end DualMode
