import BatchDualEx.Lib.BinaryField
import Mathlib.Algebra.Polynomial.FieldDivision

/- Polynomials whose coefficients are bits, and how often their values modulo an irreducible
   polynomial vanish on an initial segment of the numbers. -/
namespace BinaryField

open Polynomial Finset

/-- The value at `x` of the polynomial with these coefficients, the constant one first. -/
def horner {E : Type*} [Semiring E] : List Bool → E → E
  | [], _ => 0
  | bit :: bits, x => (if bit then 1 else 0) + x * horner bits x

theorem horner_X_coeff (bits : List Bool) (l : ℕ) :
    (horner bits (X : (ZMod 2)[X])).coeff l = if bits.getD l false then 1 else 0 := by
  induction bits generalizing l with
  | nil => simp [horner]
  | cons bit bits ih =>
    unfold horner
    cases l with
    | zero => cases bit <;> simp
    | succ l =>
      have constant : (if bit then 1 else 0 : (ZMod 2)[X]).coeff (l + 1) = 0 := by
        cases bit <;> simp [coeff_one]
      rw [coeff_add, constant, zero_add, coeff_X_mul, ih l, List.getD_cons_succ]

theorem horner_eq_aeval {E : Type*} [Semiring E] [Algebra (ZMod 2) E] (bits : List Bool) (x : E) :
    horner bits x = aeval x (horner bits (X : (ZMod 2)[X])) := by
  induction bits with
  | nil => simp [horner]
  | cons bit bits ih =>
    unfold horner
    rw [map_add, map_mul, aeval_X, ih]
    cases bit <;> simp

/-- The representative of the value at the element which the number stands for. -/
noncomputable def residue (f : (ZMod 2)[X]) (bits : List Bool) (num : ℕ) : (ZMod 2)[X] :=
  horner bits (ofBits num) % f

theorem sum_mod {ι : Type*} (f : (ZMod 2)[X]) (S : Finset ι) (g : ι → (ZMod 2)[X]) :
    ∑ i ∈ S, g i % f = (∑ i ∈ S, g i) % f := by
  classical
  induction S using Finset.induction_on with
  | empty => simp
  | insert i S new ih => rw [sum_insert new, sum_insert new, ih, add_mod]

theorem sum_residue {ι : Type*} (f : (ZMod 2)[X]) (S : Finset ι) (bits : ι → List Bool)
    (num : ℕ) : ∑ i ∈ S, residue f (bits i) num =
      aeval (ofBits num) (∑ i ∈ S, horner (bits i) (X : (ZMod 2)[X])) % f := by
  unfold residue
  rw [sum_mod, map_sum]
  congr 1
  exact sum_congr rfl fun i _ => horner_eq_aeval (bits i) _

theorem mod_eq_zero_iff_aeval {f : (ZMod 2)[X]} (q : (ZMod 2)[X]) (num : ℕ) :
    aeval (ofBits num) q % f = 0 ↔ aeval (point f num) q = 0 := by
  have mapped : aeval (point f num) q = AdjoinRoot.mkₐ f (aeval (ofBits num) q) :=
    aeval_algHom_apply (AdjoinRoot.mkₐ f) _ _
  rw [mapped, EuclideanDomain.mod_eq_zero]
  exact AdjoinRoot.mk_eq_zero.symm

/-- A nonzero polynomial vanishes at no more numbers that stand for different elements than its
    degree. -/
theorem card_zeros_le {f : (ZMod 2)[X]} (irreducible : Irreducible f) {A : Finset ℕ}
    (apart : Set.InjOn (point f) A) {q : (ZMod 2)[X]} (nonzero : q ≠ 0) :
    #{x ∈ A | aeval (ofBits x) q % f = 0} ≤ q.natDegree := by
  classical
  have : Fact (Irreducible f) := ⟨irreducible⟩
  have roots : ({x ∈ A | aeval (ofBits x) q % f = 0} : Finset ℕ).image (point f) ⊆
      (q.aroots (AdjoinRoot f)).toFinset := by
    intro y member
    obtain ⟨x, zero, rfl⟩ := mem_image.mp member
    rw [Multiset.mem_toFinset, mem_aroots]
    exact ⟨nonzero, (mod_eq_zero_iff_aeval q x).mp (mem_filter.mp zero).2⟩
  calc #{x ∈ A | aeval (ofBits x) q % f = 0}
      = #(({x ∈ A | aeval (ofBits x) q % f = 0} : Finset ℕ).image (point f)) :=
        (card_image_of_injOn (apart.mono fun _ member => (mem_filter.mp member).1)).symm
    _ ≤ #(q.aroots (AdjoinRoot f)).toFinset := card_le_card roots
    _ ≤ Multiset.card (q.aroots (AdjoinRoot f)) := Multiset.toFinset_card_le _
    _ ≤ (q.map (algebraMap (ZMod 2) (AdjoinRoot f))).natDegree := card_roots' _
    _ ≤ q.natDegree := natDegree_map_le

/-- The numbers up to `N` in each block of `2 ^ t` stand for different elements, so that a
    polynomial with `r` coefficients vanishes at so many of them at most. -/
def rootBound (t N r : ℕ) : ℕ :=
  ∑ b ∈ range (N / 2 ^ t + 1), min (r - 1) #{x ∈ Icc 1 N | x / 2 ^ t = b}

theorem card_zeros_le_rootBound {f : (ZMod 2)[X]} {t N r : ℕ} (irreducible : Irreducible f)
    (degree : f.natDegree = t) {q : (ZMod 2)[X]} (nonzero : q ≠ 0) (short : q.natDegree < r) :
    #{x ∈ Icc 1 N | aeval (ofBits x) q % f = 0} ≤ rootBound t N r := by
  have blocks : Set.MapsTo (· / 2 ^ t)
      (({x ∈ Icc 1 N | aeval (ofBits x) q % f = 0} : Finset ℕ) : Set ℕ)
      (range (N / 2 ^ t + 1)) := by
    intro x member
    have within := (mem_Icc.mp (mem_filter.mp member).1).2
    exact mem_range.mpr (Nat.lt_succ_of_le (Nat.div_le_div_right within))
  rw [card_eq_sum_card_fiberwise blocks]
  refine sum_le_sum fun b _ => ?_
  rw [filter_comm]
  refine le_min ?_ (card_filter_le _ _)
  have apart : Set.InjOn (point f) (({x ∈ Icc 1 N | x / 2 ^ t = b} : Finset ℕ) : Set ℕ) :=
    (point_injOn_block degree irreducible.ne_zero b).mono fun x member => (mem_filter.mp member).2
  exact (card_zeros_le irreducible apart nonzero).trans (Nat.le_sub_one_of_lt short)

theorem rootBound_le {t N : ℕ} (r : ℕ) (room : N < 2 ^ t) : rootBound t N r ≤ r - 1 := by
  unfold rootBound
  rw [Nat.div_eq_of_lt room, sum_range_one]
  exact min_le_left _ _

end BinaryField
