import BatchDualEx.Crypto.AESNI
import BatchDualEx.Lib.Reflected
import BatchDualEx.OT.Tools
import Mathlib.RingTheory.AdjoinRoot

/- `gfmul128`: the product of two blocks modulo `x^128 + x^7 + x^2 + x + 1` with the bits reflected.
   The shifts of a block are put together from shifts of its lanes. -/
namespace BatchDualEx

open AESNI BinaryField Polynomial

def mmSlliEpi32 (a : Block) (count : Nat) : Block :=
  ofLanes (laneAt a 3 <<< count) (laneAt a 2 <<< count) (laneAt a 1 <<< count)
    (laneAt a 0 <<< count)

def mmSrliEpi32 (a : Block) (count : Nat) : Block :=
  ofLanes (laneAt a 3 >>> count) (laneAt a 2 >>> count) (laneAt a 1 >>> count)
    (laneAt a 0 >>> count)

def gfred128 (tmp3 tmp6 : Block) : Block :=
  let tmp7 := mmSrliEpi32 tmp3 31
  let tmp8 := mmSrliEpi32 tmp6 31
  let tmp3 := mmSlliEpi32 tmp3 1
  let tmp6 := mmSlliEpi32 tmp6 1
  let tmp9 := mmSrliSi128 tmp7 12
  let tmp8 := mmSlliSi128 tmp8 4
  let tmp7 := mmSlliSi128 tmp7 4
  let tmp3 := tmp3 ||| tmp7
  let tmp6 := tmp6 ||| tmp8
  let tmp6 := tmp6 ||| tmp9
  let tmp7 := mmSlliEpi32 tmp3 31
  let tmp8 := mmSlliEpi32 tmp3 30
  let tmp9 := mmSlliEpi32 tmp3 25
  let tmp7 := tmp7 ^^^ tmp8
  let tmp7 := tmp7 ^^^ tmp9
  let tmp8 := mmSrliSi128 tmp7 4
  let tmp7 := mmSlliSi128 tmp7 12
  let tmp3 := tmp3 ^^^ tmp7
  let tmp2 := mmSrliEpi32 tmp3 1
  let tmp4 := mmSrliEpi32 tmp3 2
  let tmp5 := mmSrliEpi32 tmp3 7
  let tmp2 := tmp2 ^^^ tmp4
  let tmp2 := tmp2 ^^^ tmp5
  let tmp2 := tmp2 ^^^ tmp8
  let tmp3 := tmp3 ^^^ tmp2
  tmp6 ^^^ tmp3

def gfmul128 (a b : Block) : Block :=
  let (tmp3, tmp6) := mul128 a b
  gfred128 tmp3 tmp6

theorem ofLanes_bit (x3 x2 x1 x0 : BitVec 32) {i : Nat} (inside : i < 128) :
    (ofLanes x3 x2 x1 x0).getLsbD i =
      (if i / 32 = 0 then x0 else if i / 32 = 1 then x1 else if i / 32 = 2 then x2 else x3).getLsbD
        (i % 32) := by
  unfold ofLanes
  simp only [BitVec.getLsbD_append]
  obtain first | second | third | fourth :
      i / 32 = 0 ∨ i / 32 = 1 ∨ i / 32 = 2 ∨ i / 32 = 3 := by omega
  · simp [first, show i < 32 by omega, show i % 32 = i by omega]
  · simp [second, show ¬i < 32 by omega, show i - 32 < 32 by omega, show i % 32 = i - 32 by omega]
  · simp [third, show ¬i < 32 by omega, show ¬i - 32 < 32 by omega, show i - 32 - 32 < 32 by omega,
      show i % 32 = i - 32 - 32 by omega]
  · simp [fourth, show ¬i < 32 by omega, show ¬i - 32 < 32 by omega,
      show ¬i - 32 - 32 < 32 by omega, show i % 32 = i - 32 - 32 - 32 by omega]

theorem lanes_bit (a : Block) (f : BitVec 32 → BitVec 32) {i : Nat} (inside : i < 128) :
    (ofLanes (f (laneAt a 3)) (f (laneAt a 2)) (f (laneAt a 1)) (f (laneAt a 0))).getLsbD i =
      (f (laneAt a (i / 32))).getLsbD (i % 32) := by
  rw [ofLanes_bit _ _ _ _ inside]
  obtain lane | lane | lane | lane :
      i / 32 = 0 ∨ i / 32 = 1 ∨ i / 32 = 2 ∨ i / 32 = 3 := by omega
  all_goals simp [lane]

theorem mmSlliEpi32_bit (a : Block) {count i : Nat} (inside : i < 128) :
    (mmSlliEpi32 a count).getLsbD i = (decide (count ≤ i % 32) && a.getLsbD (i - count)) := by
  unfold mmSlliEpi32
  rw [lanes_bit a (· <<< count) inside, BitVec.getLsbD_shiftLeft]
  unfold laneAt
  rw [BitVec.getLsbD_extractLsb']
  by_cases above : count ≤ i % 32
  · simp [above, show i % 32 < 32 by omega, show ¬i % 32 < count by omega,
      show i % 32 - count < 32 by omega, show 32 * (i / 32) + (i % 32 - count) = i - count by omega]
  · simp [above, show i % 32 < count by omega]

theorem mmSrliEpi32_bit (a : Block) {count i : Nat} (inside : i < 128) :
    (mmSrliEpi32 a count).getLsbD i = (decide (i % 32 + count < 32) && a.getLsbD (i + count)) := by
  unfold mmSrliEpi32
  rw [lanes_bit a (· >>> count) inside, BitVec.getLsbD_ushiftRight]
  unfold laneAt
  rw [BitVec.getLsbD_extractLsb', show count + i % 32 = i % 32 + count by omega,
    show 32 * (i / 32) + (i % 32 + count) = i + count by omega]

theorem mmSlliSi128_bit (a : Block) {imm8 i : Nat} (inside : i < 128) :
    (mmSlliSi128 a imm8).getLsbD i = (decide (8 * imm8 ≤ i) && a.getLsbD (i - 8 * imm8)) := by
  unfold mmSlliSi128
  rw [BitVec.getLsbD_shiftLeft, decide_eq_true inside, Bool.true_and]
  by_cases above : 8 * imm8 ≤ i
  · rw [decide_eq_true above, decide_eq_false (Nat.not_lt.mpr above), Bool.not_false]
  · rw [decide_eq_false above, decide_eq_true (Nat.lt_of_not_le above), Bool.not_true]

theorem mmSrliSi128_bit (a : Block) (imm8 i : Nat) :
    (mmSrliSi128 a imm8).getLsbD i = a.getLsbD (i + 8 * imm8) := by
  unfold mmSrliSi128
  rw [BitVec.getLsbD_ushiftRight, Nat.add_comm]

theorem shiftLeft_lanes (a : Block) :
    mmSlliEpi32 a 1 ||| mmSlliSi128 (mmSrliEpi32 a 31) 4 = a <<< 1 := by
  apply BitVec.eq_of_getLsbD_eq
  intro i inside
  rw [BitVec.getLsbD_or, mmSlliEpi32_bit a inside, mmSlliSi128_bit _ inside,
    mmSrliEpi32_bit a (by omega), BitVec.getLsbD_shiftLeft, decide_eq_true inside, Bool.true_and]
  by_cases low : 1 ≤ i % 32
  · have within : ¬(8 * 4 ≤ i ∧ (i - 8 * 4) % 32 + 31 < 32) := by omega
    rw [← Bool.and_assoc, ← Bool.decide_and, decide_eq_false within, Bool.false_and, Bool.or_false,
      decide_eq_true low, decide_eq_false (show ¬i < 1 by omega), Bool.not_false]
  · by_cases first : i = 0
    · simp [first]
    · simp [low, first, show (i - 32) % 32 = 0 by omega, show 32 ≤ i by omega,
        show i - 32 + 31 = i - 1 by omega]

theorem shiftRight_lanes (a : Block) {count : Nat} (positive : 0 < count) (less : count < 32) :
    mmSrliEpi32 a count ^^^ mmSrliSi128 (mmSlliEpi32 a (32 - count)) 4 = a >>> count := by
  apply BitVec.eq_of_getLsbD_eq
  intro i inside
  rw [BitVec.getLsbD_xor, mmSrliEpi32_bit a inside, mmSrliSi128_bit, BitVec.getLsbD_ushiftRight,
    Nat.add_comm count i]
  by_cases last : i + 32 < 128
  · rw [mmSlliEpi32_bit a last, show (i + 32) % 32 = i % 32 by omega,
      show i + 32 - (32 - count) = i + count by omega]
    by_cases within : i % 32 + count < 32
    · simp [within, show ¬32 - count ≤ i % 32 by omega]
    · simp [within, show 32 - count ≤ i % 32 by omega]
  · rw [BitVec.getLsbD_of_ge _ (i + 32) (by omega)]
    by_cases within : i % 32 + count < 32
    · simp [within]
    · simp [within, BitVec.getLsbD_of_ge a (i + count) (by omega)]

theorem lowest_lane (a : Block) {count : Nat} (less : count ≤ 32) :
    mmSlliSi128 (mmSlliEpi32 a count) 12 = a <<< (96 + count) := by
  apply BitVec.eq_of_getLsbD_eq
  intro i inside
  rw [mmSlliSi128_bit _ inside, mmSlliEpi32_bit a (by omega), BitVec.getLsbD_shiftLeft,
    decide_eq_true inside, Bool.true_and]
  by_cases high : 96 + count ≤ i
  · simp [show 96 ≤ i by omega, show count ≤ (i - 96) % 32 by omega, show ¬i < 96 + count by omega,
      show i - 96 - count = i - (96 + count) by omega]
  · by_cases lane : 96 ≤ i
    · simp [lane, show ¬count ≤ (i - 96) % 32 by omega, show i < 96 + count by omega]
    · simp [lane, show i < 96 + count by omega]

/-- What one lane hands to the lane below depends on its lowest bits only. -/
theorem handed_down {a b : Block} {count : Nat} (less : count < 32)
    (low : ∀ i < 96 + count, a.getLsbD i = b.getLsbD i) :
    mmSrliSi128 (mmSlliEpi32 a (32 - count)) 4 = mmSrliSi128 (mmSlliEpi32 b (32 - count)) 4 := by
  apply BitVec.eq_of_getLsbD_eq
  intro i inside
  rw [mmSrliSi128_bit, mmSrliSi128_bit]
  by_cases last : i + 32 < 128
  · rw [mmSlliEpi32_bit a last, mmSlliEpi32_bit b last, low _ (by omega)]
  · rw [BitVec.getLsbD_of_ge _ (i + 32) (by omega), BitVec.getLsbD_of_ge _ (i + 32) (by omega)]

/-- What a shift of the low block by one to the left pushes into the high block. -/
theorem top_bit (a : Block) : mmSrliSi128 (mmSrliEpi32 a 31) 12 = a >>> 127 := by
  apply BitVec.eq_of_getLsbD_eq
  intro i inside
  rw [mmSrliSi128_bit, BitVec.getLsbD_ushiftRight]
  by_cases first : i = 0
  · rw [first, mmSrliEpi32_bit a (by decide)]
    rfl
  · rw [BitVec.getLsbD_of_ge a (127 + i) (by omega)]
    by_cases lane : i + 8 * 12 < 128
    · simp [mmSrliEpi32_bit a lane, show ¬(i + 8 * 12) % 32 + 31 < 32 by omega]
    · exact BitVec.getLsbD_of_ge _ _ (by omega)

theorem doubled (lo hi : Block) :
    ((hi <<< 1) ||| (lo >>> 127)) ++ (lo <<< 1) = (hi ++ lo) <<< 1 := by
  apply BitVec.eq_of_getLsbD_eq
  intro i inside
  rw [BitVec.getLsbD_append, BitVec.getLsbD_shiftLeft, BitVec.getLsbD_or, BitVec.getLsbD_shiftLeft,
    BitVec.getLsbD_ushiftRight, BitVec.getLsbD_shiftLeft, BitVec.getLsbD_append]
  by_cases low : i < 128
  · simp [low, show i < 256 by omega, show i - 1 < 128 by omega]
  · by_cases first : i = 128
    · simp [first]
    · simp [low, inside, show ¬i - 1 < 128 by omega, show i - 128 < 128 by omega,
        show i - 128 ≠ 0 by omega, show ¬i < 1 by omega, show i - 1 - 128 = i - 128 - 1 by omega,
        BitVec.getLsbD_of_ge lo (127 + (i - 128)) (by omega)]

/-- The bits of `lo` that a multiplication by `x`, `x^2` and `x^7` pushes out of the block. -/
def pushedOut (lo : Block) : Block := (lo <<< 127) ^^^ (lo <<< 126) ^^^ (lo <<< 121)

def folded (lo : Block) : Block := lo ^^^ (lo >>> 1) ^^^ (lo >>> 2) ^^^ (lo >>> 7)

theorem pushedOut_low (lo : Block) {i : Nat} (low : i < 121) :
    (pushedOut lo).getLsbD i = false := by
  unfold pushedOut
  simp [show i < 127 by omega, show i < 126 by omega, low]

theorem gfred128_eq (tmp3 tmp6 : Block) :
    gfred128 tmp3 tmp6 =
      ((tmp6 <<< 1) ||| (tmp3 >>> 127)) ^^^ folded ((tmp3 <<< 1) ^^^ pushedOut (tmp3 <<< 1)) := by
  unfold gfred128
  simp only [shiftLeft_lanes, top_bit]
  generalize tmp3 <<< 1 = lo
  generalize tmp6 <<< 1 ||| tmp3 >>> 127 = hi
  have pushed : mmSlliSi128 (mmSlliEpi32 lo 31 ^^^ mmSlliEpi32 lo 30 ^^^ mmSlliEpi32 lo 25) 12 =
      pushedOut lo := by
    unfold pushedOut
    rw [← lowest_lane lo (show 31 ≤ 32 by decide), ← lowest_lane lo (show 30 ≤ 32 by decide),
      ← lowest_lane lo (show 25 ≤ 32 by decide)]
    simp only [mmSlliSi128, BitVec.shiftLeft_xor_distrib]
  rw [pushed]
  have same {i : Nat} (low : i < 121) : lo.getLsbD i = (lo ^^^ pushedOut lo).getLsbD i := by
    rw [BitVec.getLsbD_xor, pushedOut_low lo low, Bool.xor_false]
  have carry : mmSrliSi128 (mmSlliEpi32 lo 31 ^^^ mmSlliEpi32 lo 30 ^^^ mmSlliEpi32 lo 25) 4 =
      mmSrliSi128 (mmSlliEpi32 (lo ^^^ pushedOut lo) (32 - 1)) 4 ^^^
        mmSrliSi128 (mmSlliEpi32 (lo ^^^ pushedOut lo) (32 - 2)) 4 ^^^
          mmSrliSi128 (mmSlliEpi32 (lo ^^^ pushedOut lo) (32 - 7)) 4 := by
    rw [← handed_down (show 1 < 32 by decide) (fun i low => same (show i < 121 by omega)),
      ← handed_down (show 2 < 32 by decide) (fun i low => same (show i < 121 by omega)),
      ← handed_down (show 7 < 32 by decide) (fun i low => same (show i < 121 by omega))]
    simp only [mmSrliSi128, BitVec.ushiftRight_xor_distrib]
  rw [carry]
  unfold folded
  generalize lo ^^^ pushedOut lo = lo
  rw [← shiftRight_lanes lo (show 0 < 1 by decide) (by decide),
    ← shiftRight_lanes lo (show 0 < 2 by decide) (by decide),
    ← shiftRight_lanes lo (show 0 < 7 by decide) (by decide)]
  ac_rfl

@[irreducible] noncomputable def gfModulus : (ZMod 2)[X] := X ^ 128 + X ^ 7 + X ^ 2 + X + 1

theorem reflected_doubled (a b : Block) :
    reflected a * reflected b =
      reflected (((mul128 a b).2 <<< 1) ||| ((mul128 a b).1 >>> 127)) +
        X ^ 128 * reflected ((mul128 a b).1 <<< 1) := by
  rw [← reflected_product (by decide) (ofWord_mul128 a b), ← doubled, reflected_append]

theorem reflected_steps (lo : Block) :
    (X + X ^ 2 + X ^ 7) * reflected lo =
      reflected ((lo >>> 1) ^^^ (lo >>> 2) ^^^ (lo >>> 7)) +
        X ^ 128 * reflected (pushedOut lo) := by
  have one := reflected_shift lo (show 1 ≤ 128 by decide)
  have two := reflected_shift lo (show 2 ≤ 128 by decide)
  have seven := reflected_shift lo (show 7 ≤ 128 by decide)
  simp only [show 128 - 1 = 127 from rfl, show 128 - 2 = 126 from rfl,
    show 128 - 7 = 121 from rfl] at one two seven
  unfold pushedOut
  rw [reflected_xor, reflected_xor, reflected_xor, reflected_xor]
  linear_combination one + two + seven

theorem pushedOut_pushedOut (lo : Block) : pushedOut (pushedOut lo) = 0#128 := by
  apply BitVec.eq_of_getLsbD_eq
  intro i inside
  rw [pushedOut]
  simp [pushedOut_low lo (show i - 127 < 121 by omega),
    pushedOut_low lo (show i - 126 < 121 by omega), pushedOut_low lo (show i - 121 < 121 by omega)]

theorem pushedOut_xor (a b : Block) : pushedOut (a ^^^ b) = pushedOut a ^^^ pushedOut b := by
  unfold pushedOut
  rw [BitVec.shiftLeft_xor_distrib, BitVec.shiftLeft_xor_distrib, BitVec.shiftLeft_xor_distrib]
  generalize a <<< 127 = a1, a <<< 126 = a2, a <<< 121 = a7
  generalize b <<< 127 = b1, b <<< 126 = b2, b <<< 121 = b7
  ac_rfl

/-- Folding the low half once is enough: it replaces `x^128` by `1 + x + x^2 + x^7`. -/
theorem reflected_folded (lo : Block) :
    reflected (folded (lo ^^^ pushedOut lo)) =
      X ^ 128 * reflected lo + gfModulus * (reflected lo + reflected (pushedOut lo)) := by
  have pushed : pushedOut (lo ^^^ pushedOut lo) = pushedOut lo := by
    rw [pushedOut_xor, pushedOut_pushedOut, BitVec.xor_zero]
  have steps := reflected_steps (lo ^^^ pushedOut lo)
  rw [pushed, reflected_xor lo] at steps
  have two : (2 : (ZMod 2)[X]) = 0 := CharTwo.two_eq_zero
  unfold folded gfModulus
  rw [BitVec.xor_assoc, BitVec.xor_assoc, reflected_xor, reflected_xor lo, ← BitVec.xor_assoc]
  linear_combination -steps - X ^ 128 * (reflected lo + reflected (pushedOut lo)) * two

theorem gfModulus_low : (X ^ 7 + X ^ 2 + X + 1 : (ZMod 2)[X]).degree < (128 : ℕ) := by
  have seven : (X ^ 7 + X ^ 2 + X + 1 : (ZMod 2)[X]).degree ≤ 7 := by compute_degree
  exact seven.trans_lt (by norm_num)

theorem gfModulus_eq : gfModulus = X ^ 128 + (X ^ 7 + X ^ 2 + X + 1) := by
  unfold gfModulus
  simp only [add_assoc]

theorem gfModulus_monic : gfModulus.Monic := by
  rw [gfModulus_eq]
  exact monic_X_pow_add gfModulus_low

theorem gfModulus_degree : gfModulus.degree = (128 : ℕ) := by
  rw [gfModulus_eq, degree_add_eq_left_of_degree_lt, degree_X_pow]
  rw [degree_X_pow]
  exact gfModulus_low

theorem gfmul128_residue (a b : Block) :
    ∃ q, reflected (gfmul128 a b) + gfModulus * q = reflected a * reflected b := by
  have two : (2 : (ZMod 2)[X]) = 0 := CharTwo.two_eq_zero
  have value : gfmul128 a b = gfred128 (mul128 a b).1 (mul128 a b).2 := rfl
  rw [value, gfred128_eq, reflected_xor, reflected_folded, reflected_doubled]
  generalize reflected ((mul128 a b).2 <<< 1 ||| (mul128 a b).1 >>> 127) = high
  generalize (mul128 a b).1 <<< 1 = lo
  generalize reflected lo = low, reflected (pushedOut lo) = pushed
  refine ⟨low + pushed, ?_⟩
  linear_combination gfModulus * (low + pushed) * two

theorem reflected_gfmul128 (a b : Block) :
    reflected (gfmul128 a b) = (reflected a * reflected b) %ₘ gfModulus := by
  have short : (reflected (gfmul128 a b)).degree < gfModulus.degree := by
    rw [gfModulus_degree]
    exact degree_reflected_lt (gfmul128 a b)
  obtain ⟨q, residue⟩ := gfmul128_residue a b
  rw [← residue, add_modByMonic, self_mul_modByMonic gfModulus_monic, add_zero,
    (modByMonic_eq_self_iff gfModulus_monic).mpr short]

noncomputable def residueClass (a : Block) : AdjoinRoot gfModulus :=
  AdjoinRoot.mk gfModulus (reflected a)

theorem residueClass_injective : Function.Injective residueClass := by
  intro a b same
  have divides : gfModulus ∣ reflected a - reflected b := AdjoinRoot.mk_eq_mk.mp same
  have short : (reflected a - reflected b).degree < gfModulus.degree := by
    rw [gfModulus_degree]
    exact (degree_sub_le _ _).trans_lt (max_lt (degree_reflected_lt a) (degree_reflected_lt b))
  exact reflected_injective (sub_eq_zero.mp (eq_zero_of_dvd_of_degree_lt divides short))

theorem residueClass_surjective : Function.Surjective residueClass := by
  intro y
  obtain ⟨p, rfl⟩ := AdjoinRoot.mk_surjective y
  have short : (p %ₘ gfModulus).degree < (128 : ℕ) := by
    rw [← gfModulus_degree]
    exact degree_modByMonic_lt p gfModulus_monic
  obtain ⟨a, word⟩ := reflected_surjective short
  refine ⟨a, ?_⟩
  unfold residueClass
  rw [word, AdjoinRoot.mk_eq_mk, modByMonic_eq_sub_mul_div, sub_sub_cancel_left, dvd_neg]
  exact dvd_mul_right _ _

theorem reflected_unit : reflected (mmSetEpi64x 0x8000000000000000 0) = 1 := by
  have power : mmSetEpi64x 0x8000000000000000 0 = BitVec.twoPow 128 127 := by decide
  rw [power]
  exact reflected_twoPow (by decide)

/-- The blocks with the exclusive or and `gfmul128` are the ring of the residue classes. -/
theorem gfmul128_residueClass :
    Function.Bijective residueClass ∧
      (∀ a b, residueClass (a ^^^ b) = residueClass a + residueClass b) ∧
      (∀ a b, residueClass (gfmul128 a b) = residueClass a * residueClass b) ∧
      residueClass (mmSetEpi64x 0x8000000000000000 0) = 1 := by
  refine ⟨⟨residueClass_injective, residueClass_surjective⟩, ?_, ?_, ?_⟩
  · intro a b
    unfold residueClass
    rw [reflected_xor, map_add]
  · intro a b
    unfold residueClass
    rw [reflected_gfmul128, ← map_mul, AdjoinRoot.mk_eq_mk, modByMonic_eq_sub_mul_div,
      sub_sub_cancel_left, dvd_neg]
    exact dvd_mul_right _ _
  · unfold residueClass
    rw [reflected_unit, map_one]

end BatchDualEx
