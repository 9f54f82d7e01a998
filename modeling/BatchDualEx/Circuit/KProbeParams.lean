import BatchDualEx.Circuit.Circuit
import BatchDualEx.Lib.BinaryField
import Mathlib.Analysis.SpecialFunctions.Log.Base

/- The parameters of `KProbeMatrix::build`. The source computes with `std::log2` and
   `std::ceil` on doubles, read here as the real functions; `buildParamsNat` is the same
   computation on numbers. -/
namespace BatchDualEx.KProbeMatrix

structure BuildParams where
  t : ℕ
  K : ℕ
  N : ℕ
  m : ℕ
  mEncodingSize : ℕ
  deriving DecidableEq, Repr

/-- `while (T > h / (t - 1)) { --t; T >>= 1; }`. For `t = 1` the quotient is infinite. -/
noncomputable def shrink (h : ℝ) : (t : ℕ) → (T : ℕ) → ℕ
  | 0, _ => 0
  | 1, _ => 1
  | t + 2, T => if (T : ℝ) > h / ((t + 2 : ℕ) - 1 : ℝ) then shrink h (t + 1) (T >>> 1) else t + 2

noncomputable def startT (inputSize secParam : ℕ) : ℕ :=
  ⌈max (Real.logb 2 ((4 * inputSize : ℕ) : ℝ)) (Real.logb 2 ((4 * secParam : ℕ) : ℝ))⌉₊

/-- The numbers `build` derives from a positive `inputSize`; `1 << (t - 1)` is an `int`. -/
noncomputable def buildParams (inputSize secParam : ℕ) : Except Fault BuildParams :=
  let t := startT inputSize secParam
  if 31 ≤ t - 1 then .error .undefined
  else
    let T := 1 <<< (t - 1)
    let h : ℝ := secParam + (Real.logb 2 inputSize + inputSize + secParam)
    let t := shrink h t T
    let K := ⌈(Real.logb 2 inputSize + inputSize + secParam) / t⌉₊
    let N := K + secParam - 1
    let m := N * t
    .ok ⟨t, K, N, m, m + inputSize⟩

/-- The loop with `T = 2 ^ (t - 1)` and the comparison multiplied out. -/
def shrinkNat (bound : ℕ) : ℕ → ℕ
  | 0 => 0
  | 1 => 1
  | t + 2 => if bound < 2 ^ (t + 1) * (t + 1) then shrinkNat bound (t + 1) else t + 2

def loopBound (inputSize secParam : ℕ) : ℕ := inputSize + 2 * secParam + Nat.log 2 inputSize
def codeBits (inputSize secParam : ℕ) : ℕ := inputSize + secParam + Nat.clog 2 inputSize

def startTNat (inputSize secParam : ℕ) : ℕ := Nat.clog 2 (4 * max inputSize secParam)

def finalT (inputSize secParam : ℕ) : ℕ :=
  shrinkNat (loopBound inputSize secParam) (startTNat inputSize secParam)

def buildParamsNat (inputSize secParam : ℕ) : Except Fault BuildParams :=
  if 31 ≤ startTNat inputSize secParam - 1 then .error .undefined
  else
    let t := finalT inputSize secParam
    let K := (codeBits inputSize secParam + t - 1) / t
    let N := K + secParam - 1
    let m := N * t
    .ok ⟨t, K, N, m, m + inputSize⟩

theorem startT_eq (inputSize secParam : ℕ) :
    startT inputSize secParam = startTNat inputSize secParam := by
  have rounded : ∀ n : ℕ, ⌈Real.logb 2 (n : ℝ)⌉₊ = Nat.clog 2 n := by
    intro n
    exact_mod_cast Real.natCeil_logb_natCast 2 n
  unfold startT startTNat
  rw [Nat.ceil_mono.map_max, rounded, rounded, ← (Nat.clog_monotone 2).map_max,
    Nat.mul_max_mul_left]

theorem logb_nonneg {n : ℕ} (positive : 1 ≤ n) : 0 ≤ Real.logb 2 (n : ℝ) :=
  Real.logb_nonneg (by norm_num) (by exact_mod_cast positive)

/-- Comparing the real sum with a number only sees the integer part of the logarithm. -/
theorem sum_lt_iff {inputSize : ℕ} (secParam bound : ℕ) (positive : 1 ≤ inputSize) :
    (secParam + (Real.logb 2 inputSize + inputSize + secParam) : ℝ) < (bound : ℝ) ↔
      loopBound inputSize secParam < bound := by
  have grouped : (secParam + (Real.logb 2 inputSize + inputSize + secParam) : ℝ) =
      Real.logb 2 inputSize + ((inputSize + 2 * secParam : ℕ) : ℝ) := by
    push_cast
    ring
  have log := logb_nonneg positive
  have floor : ⌊Real.logb 2 (inputSize : ℝ)⌋₊ = Nat.log 2 inputSize := by
    exact_mod_cast Real.natFloor_logb_natCast 2 inputSize
  rw [grouped, ← Nat.floor_lt (by positivity), Nat.floor_add_natCast log, floor, loopBound,
    Nat.add_comm]

/-- Multiplying the comparison out turns the real loop into the one on numbers. -/
theorem shrink_eq {inputSize : ℕ} (secParam : ℕ) (positive : 1 ≤ inputSize) (t : ℕ) :
    shrink (secParam + (Real.logb 2 inputSize + inputSize + secParam)) t (2 ^ (t - 1)) =
      shrinkNat (loopBound inputSize secParam) t := by
  have compared : ∀ t : ℕ,
      ((2 ^ (t + 1) : ℕ) : ℝ) > (secParam + (Real.logb 2 inputSize + inputSize + secParam)) /
        ((t + 2 : ℕ) - 1 : ℝ) ↔
      loopBound inputSize secParam < 2 ^ (t + 1) * (t + 1) := by
    intro t
    have divisor : ((t + 2 : ℕ) - 1 : ℝ) = ((t + 1 : ℕ) : ℝ) := by
      push_cast
      ring
    rw [divisor, gt_iff_lt, div_lt_iff₀ (by positivity), ← Nat.cast_mul]
    exact sum_lt_iff secParam _ positive
  induction t using shrinkNat.induct (loopBound inputSize secParam) with
  | case1 => rfl
  | case2 => rfl
  | case3 t shorter ih =>
    unfold shrink shrinkNat
    have halved : 2 ^ (t + 1) >>> 1 = 2 ^ t := by
      rw [Nat.shiftRight_eq_div_pow, pow_succ]
      omega
    rw [Nat.succ_sub_one, if_pos ((compared t).mpr shorter), if_pos shorter, halved]
    exact ih
  | case4 t stays =>
    unfold shrink shrinkNat
    rw [Nat.succ_sub_one, if_neg fun above => stays ((compared t).mp above), if_neg stays]

theorem ceil_div_eq {inputSize : ℕ} (secParam : ℕ) (positive : 1 ≤ inputSize) {t : ℕ}
    (divisor : 0 < t) :
    ⌈(Real.logb 2 inputSize + inputSize + secParam) / t⌉₊ =
      (codeBits inputSize secParam + t - 1) / t := by
  have ceiling : ⌈Real.logb 2 (inputSize : ℝ)⌉₊ = Nat.clog 2 inputSize := by
    exact_mod_cast Real.natCeil_logb_natCast 2 inputSize
  have log := logb_nonneg positive
  have grouped : Real.logb 2 inputSize + inputSize + secParam =
      Real.logb 2 inputSize + ((inputSize + secParam : ℕ) : ℝ) := by
    push_cast
    ring
  apply eq_of_forall_ge_iff
  intro c
  rw [Nat.ceil_le, div_le_iff₀ (by exact_mod_cast divisor), ← Nat.cast_mul, ← Nat.ceil_le, grouped,
    Nat.ceil_add_natCast log, ceiling, Nat.div_le_iff_le_mul_add_pred divisor]
  rw [Nat.mul_comm c t, codeBits]
  omega

theorem shrinkNat_pos (bound : ℕ) {t : ℕ} (positive : 0 < t) : 0 < shrinkNat bound t := by
  induction t using shrinkNat.induct bound with
  | case1 => omega
  | case2 => exact positive
  | case3 t shorter ih =>
    unfold shrinkNat
    rw [if_pos shorter]
    exact ih (by omega)
  | case4 t stays =>
    unfold shrinkNat
    rw [if_neg stays]
    omega

theorem startTNat_pos {inputSize : ℕ} (secParam : ℕ) (positive : 1 ≤ inputSize) :
    0 < startTNat inputSize secParam :=
  Nat.clog_pos (by decide) (by omega)

theorem finalT_pos {inputSize : ℕ} (secParam : ℕ) (positive : 1 ≤ inputSize) :
    0 < finalT inputSize secParam :=
  shrinkNat_pos _ (startTNat_pos secParam positive)

/-- The executable computation is the real one. -/
theorem buildParams_eq {inputSize : ℕ} (secParam : ℕ) (positive : 1 ≤ inputSize) :
    buildParams inputSize secParam = buildParamsNat inputSize secParam := by
  have divisor := finalT_pos secParam positive
  unfold finalT at divisor
  unfold buildParams buildParamsNat finalT
  simp only [startT_eq]
  split
  · rfl
  · rw [Nat.one_shiftLeft, shrink_eq secParam positive, ceil_div_eq secParam positive divisor]

/-- The points `int_to_GF2E(1), ..., int_to_GF2E(N)` fit below `2 ^ t` and are pairwise
    distinct and nonzero, whatever irreducible modulus of degree `t` is chosen. -/
def PointsSound (p : BuildParams) : Prop :=
  p.N ≤ 2 ^ p.t - 1 ∧
    ∀ f : Polynomial (ZMod 2), Irreducible f → f.natDegree = p.t →
      Set.InjOn (BinaryField.point f) {x | 1 ≤ x ∧ x ≤ p.N} ∧
      ∀ x, 1 ≤ x → x ≤ p.N → BinaryField.point f x ≠ 0

def Fits (inputSize secParam t : ℕ) : Prop :=
  1 ≤ t ∧ 2 ^ (t - 1) * (t - 1) ≤ loopBound inputSize secParam ∧
    codeBits inputSize secParam + t * secParam ≤ t * 2 ^ t

theorem pointsSound_iff (p : BuildParams) : PointsSound p ↔ p.N ≤ 2 ^ p.t - 1 := by
  constructor
  · exact fun sound => sound.1
  · intro bounded
    refine ⟨bounded, fun f irreducible degree => ?_⟩
    have room : ∀ x, x ≤ p.N → x < 2 ^ p.t := by
      intro x below
      have := Nat.two_pow_pos p.t
      omega
    constructor
    · intro x inX y inY same
      exact BinaryField.point_injOn degree irreducible.ne_zero (room x inX.2) (room y inY.2) same
    · intro x positive below
      exact BinaryField.point_ne_zero degree irreducible.ne_zero positive (room x below)

theorem growth {s t : ℕ} (le : s ≤ t) : 2 ^ (s - 1) * (s - 1) ≤ 2 ^ (t - 1) * (t - 1) :=
  Nat.mul_le_mul (Nat.pow_le_pow_right (by decide) (by omega)) (by omega)

theorem shrinkNat_le (bound t : ℕ) : shrinkNat bound t ≤ t := by
  induction t using shrinkNat.induct bound with
  | case1 => exact le_rfl
  | case2 => exact le_rfl
  | case3 t shorter ih =>
    unfold shrinkNat
    rw [if_pos shorter]
    omega
  | case4 t stays =>
    unfold shrinkNat
    rw [if_neg stays]

theorem shrinkNat_stops (bound t : ℕ) :
    2 ^ (shrinkNat bound t - 1) * (shrinkNat bound t - 1) ≤ bound := by
  induction t using shrinkNat.induct bound with
  | case1 => exact Nat.zero_le _
  | case2 => exact Nat.zero_le _
  | case3 t shorter ih =>
    unfold shrinkNat
    rwa [if_pos shorter]
  | case4 t stays =>
    unfold shrinkNat
    rw [if_neg stays]
    exact not_lt.mp stays

theorem shrinkNat_passed (bound t : ℕ) {s : ℕ} (above : shrinkNat bound t < s) (within : s ≤ t) :
    bound < 2 ^ (s - 1) * (s - 1) := by
  induction t using shrinkNat.induct bound with
  | case1 => exact absurd above (by omega)
  | case2 =>
    unfold shrinkNat at above
    omega
  | case3 t shorter ih =>
    unfold shrinkNat at above
    rw [if_pos shorter] at above
    by_cases top : s = t + 2
    · rw [top]
      exact shorter
    · exact ih above (by omega)
  | case4 t stays =>
    unfold shrinkNat at above
    rw [if_neg stays] at above
    omega

theorem points_bound_iff {t : ℕ} (positive : 1 ≤ t) (demand secParam : ℕ) (some : 1 ≤ demand) :
    (demand + t - 1) / t + secParam - 1 ≤ 2 ^ t - 1 ↔
      demand + t * secParam ≤ t * 2 ^ t := by
  have rounds : 1 ≤ (demand + t - 1) / t := (Nat.one_le_div_iff positive).mpr (by omega)
  have power := Nat.two_pow_pos t
  constructor
  · intro bounded
    have quotient : (demand + t - 1) / t ≤ 2 ^ t - secParam := by omega
    rw [Nat.div_le_iff_le_mul_add_pred positive] at quotient
    calc demand + t * secParam ≤ t * (2 ^ t - secParam) + t * secParam := by omega
      _ = t * 2 ^ t := by
        rw [← Nat.mul_add, Nat.sub_add_cancel (by omega)]
  · intro bounded
    have fits : secParam ≤ 2 ^ t := by
      by_contra larger
      have := Nat.mul_le_mul_left t (not_le.mp larger).le
      omega
    have quotient : (demand + t - 1) / t ≤ 2 ^ t - secParam := by
      rw [Nat.div_le_iff_le_mul_add_pred positive, Nat.mul_sub]
      omega
    omega

theorem points_bound_mono {s t demand secParam : ℕ} (le : s ≤ t)
    (bounded : demand + s * secParam ≤ s * 2 ^ s) (some : 1 ≤ demand) :
    demand + t * secParam ≤ t * 2 ^ t := by
  have fits : secParam ≤ 2 ^ s := by
    by_contra larger
    have := Nat.mul_le_mul_left s (not_le.mp larger).le
    omega
  have powers : 2 ^ s ≤ 2 ^ t := Nat.pow_le_pow_right (by decide) le
  have slack : s * (2 ^ s - secParam) ≤ t * (2 ^ t - secParam) :=
    Nat.mul_le_mul le (by omega)
  have room : demand ≤ s * (2 ^ s - secParam) := by
    rw [Nat.mul_sub]
    omega
  calc demand + t * secParam ≤ t * (2 ^ t - secParam) + t * secParam := by omega
    _ = t * 2 ^ t := by rw [← Nat.mul_add, Nat.sub_add_cancel (by omega)]

theorem points_bound_start {inputSize : ℕ} (secParam : ℕ) (positive : 1 ≤ inputSize) :
    codeBits inputSize secParam + startTNat inputSize secParam * secParam ≤
      startTNat inputSize secParam * 2 ^ startTNat inputSize secParam := by
  have start := startTNat_pos secParam positive
  have power : 4 * max inputSize secParam ≤ 2 ^ startTNat inputSize secParam :=
    Nat.le_pow_clog (by decide) _
  have log : Nat.clog 2 inputSize ≤ inputSize :=
    Nat.clog_le_of_le_pow Nat.lt_two_pow_self.le
  unfold codeBits
  calc inputSize + secParam + Nat.clog 2 inputSize + startTNat inputSize secParam * secParam
      ≤ 3 * max inputSize secParam + startTNat inputSize secParam * max inputSize secParam := by
        have := Nat.mul_le_mul_left (startTNat inputSize secParam)
          (le_max_right inputSize secParam)
        omega
    _ ≤ startTNat inputSize secParam * (4 * max inputSize secParam) := by
        have := Nat.mul_le_mul_right (max inputSize secParam) start
        rw [Nat.mul_left_comm]
        omega
    _ ≤ _ := Nat.mul_le_mul_left _ power

/-- The loop ends at the largest `t` it may, so any `t` that fits shows that its result does. -/
theorem fits_finalT {inputSize secParam s : ℕ} (positive : 1 ≤ inputSize)
    (fits : Fits inputSize secParam s) :
    Fits inputSize secParam (finalT inputSize secParam) := by
  obtain ⟨least, shrunk, bounded⟩ := fits
  refine ⟨finalT_pos secParam positive, shrinkNat_stops _ _, ?_⟩
  by_cases low : s ≤ startTNat inputSize secParam
  · have reached : s ≤ finalT inputSize secParam := by
      by_contra beyond
      have passed := shrinkNat_passed (loopBound inputSize secParam) _ (not_le.mp beyond) low
      omega
    have demand : 1 ≤ codeBits inputSize secParam := by
      unfold codeBits
      omega
    exact points_bound_mono reached bounded demand
  · have kept : finalT inputSize secParam = startTNat inputSize secParam := by
      by_contra moved
      have smaller : finalT inputSize secParam < startTNat inputSize secParam :=
        lt_of_le_of_ne (shrinkNat_le _ _) moved
      have passed := shrinkNat_passed (loopBound inputSize secParam) _ smaller le_rfl
      have larger := growth (not_le.mp low).le
      omega
    rw [kept]
    exact points_bound_start secParam positive

theorem shift_defined_iff {inputSize secParam : ℕ} (positive : 1 ≤ inputSize) :
    ¬ 31 ≤ startTNat inputSize secParam - 1 ↔ max inputSize secParam ≤ 2 ^ 29 := by
  have start := startTNat_pos secParam positive
  have clog : startTNat inputSize secParam ≤ 31 ↔ 4 * max inputSize secParam ≤ 2 ^ 31 :=
    Nat.clog_le_iff_le_pow (by decide)
  omega

/-- `build` chooses enough points for its field exactly when the sizes stay below the range
    of the shift and some `t` the loop does not walk past has room for `N`. -/
theorem buildParams_sound_iff {inputSize secParam : ℕ} (positive : 1 ≤ inputSize) :
    (∃ p, buildParams inputSize secParam = .ok p ∧ PointsSound p) ↔
      max inputSize secParam ≤ 2 ^ 29 ∧ ∃ t, Fits inputSize secParam t := by
  have demand : 1 ≤ codeBits inputSize secParam := by
    unfold codeBits
    omega
  have bound := points_bound_iff (finalT_pos secParam positive) (codeBits inputSize secParam)
    secParam demand
  rw [buildParams_eq secParam positive, ← shift_defined_iff positive]
  unfold buildParamsNat
  constructor
  · rintro ⟨p, built, sound⟩
    rw [pointsSound_iff] at sound
    split at built
    · exact nomatch built
    · rename_i small
      cases built
      exact ⟨small, _, finalT_pos secParam positive, shrinkNat_stops _ _, bound.mp sound⟩
  · rintro ⟨small, t, fits⟩
    rw [if_neg small]
    refine ⟨_, rfl, (pointsSound_iff _).mpr ?_⟩
    exact bound.mpr (fits_finalT positive fits).2.2

theorem buildParams_sound_eighty :
    (∃ p, buildParams 80 40 = .ok p ∧ PointsSound p) ↔
      max 80 40 ≤ 2 ^ 29 ∧ ∃ t, Fits 80 40 t :=
  buildParams_sound_iff (by decide)

theorem buildParams_one_forty : buildParams 1 40 = .ok ⟨5, 9, 48, 240, 241⟩ := by
  rw [buildParams_eq 40 le_rfl]
  decide +kernel

/-- One input bit and security parameter 40: 48 points in a field of 32 elements. -/
theorem buildParams_one_forty_unsound :
    ¬ ∃ p, buildParams 1 40 = .ok p ∧ PointsSound p := by
  rintro ⟨p, built, sound⟩
  rw [buildParams_one_forty] at built
  cases built
  exact absurd sound.1 (by decide)

end BatchDualEx.KProbeMatrix
