import BatchDualEx.Circuit.KProbeDecode
import BatchDualEx.Circuit.KProbeMatrix
import BatchDualEx.Circuit.KProbeParams
import BatchDualEx.Crypto.PRNG
import BatchDualEx.Lib.BitPolynomial
import BatchDualEx.Lib.ParityCheck
import BatchDualEx.Lib.Result
import Mathlib.Algebra.Polynomial.SpecificDegree

/- `KProbeMatrix::build` and the condition under which some stream of the generator gives a
   matrix that is k-probe resistant. NTL's field elements are polynomials modulo the modulus,
   `rep` is the remainder. -/
namespace BatchDualEx

namespace KProbeMatrix

open Polynomial BinaryField Finset ParityCheck Result

def drawCoefficients : ℕ → PRNG → List Bool × PRNG
  | 0, prng => ([], prng)
  | count + 1, prng =>
    let (bit, prng) := prng.getBit
    let (bits, prng) := drawCoefficients count prng
    (decide (bit = 1) :: bits, prng)

noncomputable def evalRow (modulus : (ZMod 2)[X]) (N t : ℕ) (bits : List Bool) : List Bool :=
  (List.range N).flatMap fun x =>
    let v := residue modulus bits (x + 1)
    (List.range t).map fun j => decide (v.coeff j = 1)

noncomputable def drawRows (modulus : (ZMod 2)[X]) (p : BuildParams) :
    ℕ → PRNG → List (List Bool) × PRNG
  | 0, prng => ([], prng)
  | rows + 1, prng =>
    let (bits, prng) := drawCoefficients (p.K - 1) prng
    let (mtx, prng) := drawRows modulus p rows prng
    (evalRow modulus p.N p.t bits :: mtx, prng)

section Resistant

variable (M : KProbeMatrix)

def extended (i j : ℕ) : Bool := if j < M.h then M.entry i j else decide (j = M.h + i)

def weight (S : Finset ℕ) : ℕ :=
  #{j ∈ range M.mEncodingSize | Odd #{i ∈ S | M.extended i j = true}}

def Resistant (k : ℕ) : Prop := ∀ S ⊆ range M.n, S.Nonempty → k ≤ M.weight S

end Resistant

/-- There are `n` vectors of `r` bits of which no nonempty set of fewer than `k` has XOR zero:
    a binary code of length `n`, redundancy `r` and distance at least `k`. -/
def Columns (n k r : ℕ) : Prop := ∃ b : ℕ → Fin r → ZMod 2, Spread (range n) k b

section Draws

def bitAt (prng : PRNG) (i : ℕ) : Bool := decide (prng.get i &&& 1 = 1)

theorem drawCoefficients_eq (count : ℕ) (prng : PRNG) :
    drawCoefficients count prng = ((List.range count).map (bitAt prng), prng.drop count) := by
  induction count generalizing prng with
  | zero => rfl
  | succ count ih =>
    simp only [drawCoefficients, PRNG.getBit, PRNG.getUchar, ih]
    rw [List.range_succ_eq_map, List.map_cons, List.map_map]
    rfl

def rowBits (r : ℕ) (prng : PRNG) (i : ℕ) : List Bool :=
  (List.range r).map fun l => bitAt prng (i * r + l)

theorem drawRows_eq (modulus : (ZMod 2)[X]) (p : BuildParams) (rows : ℕ) (prng : PRNG) :
    (drawRows modulus p rows prng).1 =
      (List.range rows).map fun i => evalRow modulus p.N p.t (rowBits (p.K - 1) prng i) := by
  induction rows generalizing prng with
  | zero => rfl
  | succ rows ih =>
    simp only [drawRows, drawCoefficients_eq, ih]
    rw [List.range_succ_eq_map, List.map_cons, List.map_map]
    congr 1
    · simp [rowBits]
    · refine List.map_congr_left fun i _ => ?_
      simp only [Function.comp, rowBits, bitAt]
      congr 1
      refine List.map_congr_left fun l _ => ?_
      have index : i * (p.K - 1) + l + (p.K - 1) = (i + 1) * (p.K - 1) + l := by
        rw [Nat.succ_mul]
        omega
      rw [Stream'.get_drop, Nat.add_comm (p.K - 1), index]

/-- Every choice of coefficients is drawn from some stream. -/
theorem exists_rowBits (r : ℕ) (c : ℕ → ℕ → Bool) :
    ∃ prng, ∀ i, rowBits r prng i = (List.range r).map (c i) := by
  refine ⟨fun m => if c (m / r) (m % r) then 1 else 0, fun i =>
    List.map_congr_left fun l inRow => ?_⟩
  have below := List.mem_range.mp inRow
  have row : (i * r + l) / r = i := by
    rw [Nat.mul_comm, Nat.mul_add_div (by omega), Nat.div_eq_of_lt below, Nat.add_zero]
  have column : (i * r + l) % r = l := by
    rw [Nat.mul_comm, Nat.mul_add_mod, Nat.mod_eq_of_lt below]
  change decide ((if c ((i * r + l) / r) ((i * r + l) % r) then 1 else 0 : UInt8) &&& 1 = 1) = _
  rw [row, column]
  cases c i l <;> decide

theorem buildParams_size {p : BuildParams} {inputSize secParam : ℕ}
    (params : buildParams inputSize secParam = .ok p) : p.N = p.K + secParam - 1 ∧
      p.m = p.N * p.t ∧ p.mEncodingSize = p.m + inputSize := by
  unfold buildParams at params
  dsimp only at params
  split at params
  case isTrue => cases params
  case isFalse =>
    cases params
    exact ⟨rfl, rfl, rfl⟩

theorem drawRows_length (modulus : (ZMod 2)[X]) (p : BuildParams) (n : ℕ) (prng : PRNG) :
    (drawRows modulus p n prng).1.length = n ∧
      ∀ row ∈ (drawRows modulus p n prng).1, row.length = p.N * p.t := by
  rw [drawRows_eq]
  constructor
  · rw [List.length_map, List.length_range]
  · intro row listed
    obtain ⟨i, -, rfl⟩ := List.mem_map.mp listed
    simp [evalRow, List.length_flatMap]

end Draws

end KProbeMatrix

namespace KProbeMembers

open Polynomial Result

def holdRow (m : ℕ) (entries : List Bool) : Except Fault BitVector := do
  let row ← BitVector.empty.resize m
  return (List.range entries.length).foldl
    (fun row idx => row.set idx (entries.getD idx false)) row

/-- `build`, with `BuildIrred_GF2X` as a parameter. -/
noncomputable def build (buildIrred : ℕ → (ZMod 2)[X]) (M : KProbeMembers)
    (inputSize secParam : ℕ) (prng : PRNG) : Except Fault (KProbeMembers × PRNG) :=
  if inputSize = 0 then .ok (M, prng)
  else do
    let p ← KProbeMatrix.buildParams inputSize secParam
    let (rows, prng) := KProbeMatrix.drawRows (buildIrred p.t) p inputSize prng
    let mMtx ← rows.mapM (holdRow p.m)
    return ({ M with mMtx, mEncodingSize := p.mEncodingSize }, prng)

/-- What a matrix is, apart from how its rows are held. -/
def matrix (M : KProbeMembers) : KProbeMatrix := ⟨M.mMtx.map BitVector.bits, M.mEncodingSize⟩

section Rows

theorem resize_empty_ok {n : ℕ} {row : BitVector} (run : BitVector.empty.resize n = .ok row) :
    n + 8 < 2 ^ 31 ∧ row = ⟨List.replicate ((n + 7) / 8) 0, n, by simp⟩ := by
  have small : n + 8 < 2 ^ 31 := by
    by_contra large
    have short : BitVector.empty.mData.length < (n + 7) / 8 := by
      change 0 < _
      omega
    obtain ⟨fault, failed⟩ := BitVector.resize_large (Nat.not_lt.mp large) short
    cases run.symm.trans failed
  rw [BitVector.resize_empty small] at run
  cases run
  exact ⟨small, rfl⟩

theorem holdRow_total {m : ℕ} (small : m + 8 < 2 ^ 31) (entries : List Bool) :
    ∃ row, holdRow m entries = .ok row := by
  unfold holdRow
  rw [BitVector.resize_empty small]
  exact ⟨_, rfl⟩

theorem holdRow_ok {entries : List Bool} {row : BitVector}
    (run : holdRow entries.length entries = .ok row) :
    entries.length + 8 < 2 ^ 31 ∧ row.mNumBits = entries.length ∧ row.bits = entries := by
  unfold holdRow at run
  obtain ⟨fresh, first, run⟩ := bind_ok run
  obtain ⟨small, rfl⟩ := resize_empty_ok first
  cases run
  obtain ⟨size, -, written⟩ := BitVector.get_setLoop
    ⟨List.replicate ((entries.length + 7) / 8) 0, entries.length, by simp⟩ 0
    (fun idx => entries.getD idx false) entries.length (by rw [List.length_replicate]; omega)
  simp only [Nat.zero_add, Nat.zero_le, true_and, Nat.sub_zero] at size written
  refine ⟨small, size, ?_⟩
  unfold BitVector.bits
  rw [size]
  refine (List.map_congr_left ?_).trans (Lists.map_range_getD_self entries false)
  intro i listed
  exact (written i).trans (if_pos (List.mem_range.mp listed))

theorem mapM_holdRow {m : ℕ} {drawn : List (List Bool)} {rows : List BitVector}
    (run : drawn.mapM (holdRow m) = .ok rows) (lengths : ∀ entries ∈ drawn, entries.length = m) :
    rows.map BitVector.bits = drawn ∧ ∀ row ∈ rows, row.mNumBits = m ∧ m + 8 < 2 ^ 31 := by
  have each := mapM_ok run
  clear run
  induction each with
  | nil => exact ⟨rfl, fun row listed => absurd listed List.not_mem_nil⟩
  | cons first _ ih =>
    obtain ⟨same, width⟩ := ih fun entries later => lengths entries (List.mem_cons_of_mem _ later)
    have length := lengths _ List.mem_cons_self
    rw [← length] at first
    obtain ⟨small, size, bits⟩ := holdRow_ok first
    rw [length] at small size
    refine ⟨by rw [List.map_cons, bits, same], ?_⟩
    intro row listed
    rcases List.mem_cons.mp listed with rfl | listed
    · exact ⟨size, small⟩
    · exact width row listed

end Rows

section Stores

variable {buildIrred : ℕ → (ZMod 2)[X]} {M B : KProbeMembers} {inputSize secParam : ℕ}
  {prng rest : PRNG}

theorem build_stores (positive : inputSize ≠ 0)
    (run : M.build buildIrred inputSize secParam prng = .ok (B, rest)) :
    ∃ p, KProbeMatrix.buildParams inputSize secParam = .ok p ∧ p.m + 8 < 2 ^ 31 ∧
      B.matrix = ⟨(KProbeMatrix.drawRows (buildIrred p.t) p inputSize prng).1, p.mEncodingSize⟩ ∧
      B.mMtx.length = inputSize ∧ ∀ row ∈ B.mMtx, row.mNumBits = p.m := by
  unfold build at run
  rw [if_neg positive] at run
  obtain ⟨p, params, run⟩ := bind_ok run
  obtain ⟨_, measured, _⟩ := KProbeMatrix.buildParams_size params
  obtain ⟨count, lengths⟩ := KProbeMatrix.drawRows_length (buildIrred p.t) p inputSize prng
  rw [← measured] at lengths
  obtain ⟨rows, held, run⟩ := bind_ok run
  cases run
  obtain ⟨bits, width⟩ := mapM_holdRow held lengths
  have length : rows.length = inputSize := by
    rw [← List.length_map (f := BitVector.bits), bits, count]
  obtain ⟨row, listed⟩ := List.exists_mem_of_length_pos (by omega : 0 < rows.length)
  refine ⟨p, params, (width row listed).2, ?_, length, fun row listed => (width row listed).1⟩
  unfold matrix
  rw [bits]

theorem build_total (buildIrred : ℕ → (ZMod 2)[X]) (M : KProbeMembers)
    {p : KProbeMatrix.BuildParams}
    (params : KProbeMatrix.buildParams inputSize secParam = .ok p) (small : p.m + 8 < 2 ^ 31)
    (prng : PRNG) : ∃ B rest, M.build buildIrred inputSize secParam prng = .ok (B, rest) := by
  unfold build
  by_cases none : inputSize = 0
  · exact ⟨M, prng, if_pos none⟩
  · obtain ⟨rows, held⟩ := mapM_total fun entries
      (_ : entries ∈ (KProbeMatrix.drawRows (buildIrred p.t) p inputSize prng).1) =>
        holdRow_total small entries
    rw [if_neg none, params, ok_bind]
    dsimp only
    rw [held]
    exact ⟨_, _, rfl⟩

end Stores

end KProbeMembers

namespace KProbeMatrix

open Polynomial BinaryField Finset ParityCheck Result

section Built

variable {M : KProbeMatrix} {modulus : (ZMod 2)[X]} {p : BuildParams} {inputSize secParam : ℕ}

theorem getD_blocks (row : ℕ → ℕ → Bool) (N t : ℕ) {x j : ℕ} (inside : x < N) (bit : j < t) :
    ((List.range N).flatMap fun x => (List.range t).map (row x)).getD (x * t + j) false =
      row x j := by
  have sized : ∀ x, ((List.range t).map (row x)).length = t := by
    intro x
    rw [List.length_map, List.length_range]
  rw [Nat.mul_comm, Lists.getD_flatMap_range sized inside bit, Lists.map_range_getD _ _ bit]

structure Built (M : KProbeMatrix) (modulus : (ZMod 2)[X]) (p : BuildParams) (inputSize : ℕ)
    (prng : PRNG) : Prop where
  rows : M.n = inputSize
  masked : M.h = p.N * p.t
  size : M.mEncodingSize = p.N * p.t + inputSize
  entries : ∀ i < inputSize, ∀ x < p.N, ∀ j < p.t, M.entry i (x * p.t + j) =
    decide ((residue modulus (rowBits (p.K - 1) prng i) (x + 1)).coeff j = 1)

theorem built_of_build {buildIrred : ℕ → (ZMod 2)[X]} {M₀ B : KProbeMembers} {prng rest : PRNG}
    (positive : 1 ≤ inputSize) (params : buildParams inputSize secParam = .ok p)
    (run : M₀.build buildIrred inputSize secParam prng = .ok (B, rest)) :
    Built B.matrix (buildIrred p.t) p inputSize prng := by
  obtain ⟨p', params', _, stored, _⟩ := KProbeMembers.build_stores (by omega) run
  cases params.symm.trans params'
  rw [stored]
  obtain ⟨_, measured, encoded⟩ := buildParams_size params
  have rows := (drawRows_length (buildIrred p.t) p inputSize prng).1
  refine ⟨rows, ?_, by rw [encoded, measured], fun i below x inside j bit => ?_⟩
  · simp only [h, rows, encoded, measured]
    omega
  · have row : (drawRows (buildIrred p.t) p inputSize prng).1.getD i [] =
        evalRow (buildIrred p.t) p.N p.t (rowBits (p.K - 1) prng i) := by
      rw [drawRows_eq, List.getD_eq_getElem _ _ (by simpa using below)]
      simp
    simp only [entry, row]
    exact getD_blocks (fun x j => decide ((residue _ _ (x + 1)).coeff j = 1)) _ _ inside bit

theorem weight_eq {prng : PRNG} (built : Built M modulus p inputSize prng) {S : Finset ℕ}
    (inside : S ⊆ range inputSize) : M.weight S =
      #{j ∈ range (p.N * p.t) | Odd #{i ∈ S | M.entry i j = true}} + S.card := by
  unfold weight
  rw [built.size, card_filter, sum_range_add, ← card_filter]
  congr 1
  · congr 1
    refine filter_congr fun j masked => ?_
    have below := mem_range.mp masked
    simp only [extended, built.masked, if_pos below]
  · have unit : ∀ j, (Odd #{i ∈ S | M.extended i (p.N * p.t + j) = true}) ↔ j ∈ S := by
      intro j
      have column : ({i ∈ S | M.extended i (p.N * p.t + j) = true} : Finset ℕ) =
          if j ∈ S then {j} else ∅ := by
        rw [← filter_eq S j]
        refine filter_congr fun i _ => ?_
        simp only [extended, built.masked, if_neg (Nat.not_lt.mpr (Nat.le_add_right _ _)),
          decide_eq_true_iff]
        omega
      rw [column]
      split
      · simpa
      · simpa
    simp only [unit]
    rw [← card_filter, filter_mem_eq_inter, inter_eq_right.mpr inside]

noncomputable def rowSum (r : ℕ) (prng : PRNG) (S : Finset ℕ) : (ZMod 2)[X] :=
  ∑ i ∈ S, horner (rowBits r prng i) X

theorem rowSum_coeff (r : ℕ) (prng : PRNG) (S : Finset ℕ) (l : ℕ) :
    (rowSum r prng S).coeff l =
      ∑ i ∈ S, if (rowBits r prng i).getD l false then 1 else 0 := by
  unfold rowSum
  rw [finsetSum_coeff]
  exact sum_congr rfl fun i _ => horner_X_coeff _ l

/-- A column of the XOR is a bit of the value of the summed polynomial. -/
theorem odd_column_iff {prng : PRNG} (built : Built M modulus p inputSize prng) {S : Finset ℕ}
    (inside : S ⊆ range inputSize) {x j : ℕ} (point : x < p.N) (bit : j < p.t) :
    Odd #{i ∈ S | M.entry i (x * p.t + j) = true} ↔
      (aeval (ofBits (x + 1)) (rowSum (p.K - 1) prng S) % modulus).coeff j = 1 := by
  have binary : ∀ a : ZMod 2, (if a = 1 then 1 else 0) = a := by decide
  unfold rowSum
  rw [← ZMod.natCast_eq_one_iff_odd, ← sum_boole, ← sum_residue, finsetSum_coeff]
  have same : ∀ i ∈ S, (if M.entry i (x * p.t + j) = true then 1 else 0 : ZMod 2) =
      (residue modulus (rowBits (p.K - 1) prng i) (x + 1)).coeff j := by
    intro i member
    simp only [built.entries i (mem_range.mp (inside member)) x point j bit, decide_eq_true_iff,
      binary]
  rw [sum_congr rfl same]

theorem weight_of_rowSum_zero {prng : PRNG} (built : Built M modulus p inputSize prng)
    {S : Finset ℕ} (inside : S ⊆ range inputSize) (zero : rowSum (p.K - 1) prng S = 0) :
    M.weight S = S.card := by
  rw [weight_eq built inside, Nat.add_eq_right, card_eq_zero, filter_eq_empty_iff]
  intro j masked
  have below := mem_range.mp masked
  have some : 0 < p.t := Nat.pos_of_ne_zero fun none => by
    rw [none, Nat.mul_zero] at below
    exact Nat.not_lt_zero j below
  have split : j / p.t * p.t + j % p.t = j := Nat.div_add_mod' j p.t
  rw [← split, odd_column_iff built inside ((Nat.div_lt_iff_lt_mul some).mpr below)
    (Nat.mod_lt j some), zero]
  simp

/-- Every point at which the summed polynomial does not vanish gives a one. -/
theorem card_nonzero_le_weight {prng : PRNG} (built : Built M modulus p inputSize prng)
    (degree : modulus.natDegree = p.t) (nonzero : modulus ≠ 0) {S : Finset ℕ}
    (inside : S ⊆ range inputSize) {last : ℕ} (few : last ≤ p.N) :
    #{x ∈ Icc 1 last | ¬ aeval (ofBits x) (rowSum (p.K - 1) prng S) % modulus = 0} + S.card ≤
      M.weight S := by
  rw [weight_eq built inside]
  refine Nat.add_le_add_right ?_ _
  have bit : ∀ x, ¬ aeval (ofBits x) (rowSum (p.K - 1) prng S) % modulus = 0 →
      ∃ j < p.t, (aeval (ofBits x) (rowSum (p.K - 1) prng S) % modulus).coeff j = 1 := by
    intro x other
    have short := degree_mod_lt (aeval (ofBits x) (rowSum (p.K - 1) prng S)) nonzero
    rw [degree_eq_natDegree nonzero, degree] at short
    by_contra none
    refine other (Polynomial.ext fun j => ?_)
    by_cases low : j < p.t
    · have binary : ∀ a : ZMod 2, a ≠ 1 → a = 0 := by decide
      exact binary _ fun one => none ⟨j, low, one⟩
    · exact coeff_eq_zero_of_degree_lt (short.trans_le (by exact_mod_cast Nat.not_lt.mp low))
  choose! j low one using bit
  refine card_le_card_of_injOn (fun x => (x - 1) * p.t + j x) ?_ ?_
  · intro x member
    obtain ⟨within, other⟩ := mem_filter.mp member
    have bounds := mem_Icc.mp within
    have column := odd_column_iff built inside (x := x - 1) (by omega) (low x other)
    rw [Nat.sub_add_cancel bounds.1] at column
    refine mem_filter.mpr ⟨mem_range.mpr ?_, column.mpr (one x other)⟩
    calc (x - 1) * p.t + j x < (x - 1) * p.t + p.t := Nat.add_lt_add_left (low x other) _
      _ = (x - 1 + 1) * p.t := (Nat.succ_mul _ _).symm
      _ ≤ p.N * p.t := Nat.mul_le_mul_right _ (by omega)
  · intro x memberX y memberY same
    obtain ⟨withinX, otherX⟩ := mem_filter.mp memberX
    obtain ⟨withinY, otherY⟩ := mem_filter.mp memberY
    have quotient := congrArg (· / p.t) same
    have positive : 0 < p.t := (Nat.zero_le _).trans_lt (low x otherX)
    simp only [Nat.mul_comm _ p.t, Nat.mul_add_div positive, Nat.div_eq_of_lt (low x otherX),
      Nat.div_eq_of_lt (low y otherY), Nat.add_zero] at quotient
    have boundsX := mem_Icc.mp withinX
    have boundsY := mem_Icc.mp withinY
    omega

end Built

section Streams

variable {M : KProbeMatrix} {modulus : (ZMod 2)[X]} {p : BuildParams} {prng : PRNG}
  {inputSize secParam : ℕ}

/-- The coefficients of the rows are columns: rows whose polynomials cancel are too light. -/
theorem columns_of_resistant (built : Built M modulus p inputSize prng)
    (resistant : M.Resistant secParam) : Columns inputSize secParam (p.K - 1) := by
  refine ⟨fun i l => if (rowBits (p.K - 1) prng i).getD l false then 1 else 0,
    fun S inside nonempty few zero => ?_⟩
  have vanishes : rowSum (p.K - 1) prng S = 0 := by
    ext l
    rw [rowSum_coeff, coeff_zero]
    by_cases low : l < p.K - 1
    · have entry := congrFun zero ⟨l, low⟩
      rw [Finset.sum_apply] at entry
      exact entry
    · refine sum_eq_zero fun i _ => ?_
      rw [List.getD_eq_default _ _ (by simpa [rowBits] using low)]
      rfl
  have heavy := resistant S (by rw [built.rows]; exact inside) nonempty
  rw [weight_of_rowSum_zero built inside vanishes] at heavy
  omega

/-- Coefficients that are columns give few roots and many ones. -/
theorem resistant_of_columns (built : Built M modulus p inputSize prng)
    (irreducible : Irreducible modulus) (degree : modulus.natDegree = p.t)
    (points : p.N = p.K + secParam - 1) {r : ℕ} (roots : rootBound p.t p.N r ≤ p.K)
    {b : ℕ → Fin r → ZMod 2} (spread : Spread (range inputSize) secParam b)
    (drawn : ∀ S, ∀ l, (rowSum (p.K - 1) prng S).coeff l =
      ∑ i ∈ S, if low : l < r then b i ⟨l, low⟩ else 0) : M.Resistant secParam := by
  intro S within nonempty
  rw [built.rows] at within
  by_cases few : S.card < secParam
  · have other : ∑ i ∈ S, b i ≠ 0 := spread S within nonempty few
    obtain ⟨l, entry⟩ := Function.ne_iff.mp other
    have nonzero : rowSum (p.K - 1) prng S ≠ 0 := by
      intro zero
      have coefficient := drawn S l.val
      rw [zero, coeff_zero] at coefficient
      simp only [l.isLt, dif_pos] at coefficient
      rw [Finset.sum_apply] at entry
      exact entry coefficient.symm
    have short : (rowSum (p.K - 1) prng S).natDegree < r := by
      rw [natDegree_lt_iff_degree_lt nonzero, degree_lt_iff_coeff_zero]
      intro l' high
      rw [drawn]
      exact sum_eq_zero fun i _ => dif_neg (Nat.not_lt.mpr high)
    have zeros := card_zeros_le_rootBound (N := p.N) irreducible degree nonzero short
    have split := card_filter_add_card_filter_not (s := Icc 1 p.N)
      fun x => aeval (ofBits x) (rowSum (p.K - 1) prng S) % modulus = 0
    have heavy := card_nonzero_le_weight built degree irreducible.ne_zero within le_rfl
    have rows := card_pos.mpr nonempty
    rw [Nat.card_Icc] at split
    omega
  · have heavy := weight_eq built within
    omega

def lengthK (inputSize secParam : ℕ) : ℕ :=
  (codeBits inputSize secParam + finalT inputSize secParam - 1) / finalT inputSize secParam

def lengthN (inputSize secParam : ℕ) : ℕ := lengthK inputSize secParam + secParam - 1

theorem buildParams_ok_iff (positive : 1 ≤ inputSize) : buildParams inputSize secParam = .ok p ↔
    max inputSize secParam ≤ 2 ^ 29 ∧ p =
      ⟨finalT inputSize secParam, lengthK inputSize secParam, lengthN inputSize secParam,
        lengthN inputSize secParam * finalT inputSize secParam,
        lengthN inputSize secParam * finalT inputSize secParam + inputSize⟩ := by
  rw [buildParams_eq secParam positive, ← shift_defined_iff positive]
  unfold buildParamsNat lengthN lengthK
  split
  case isTrue large => simp [large]
  case isFalse small => simp [small, eq_comm]

/-- The shift takes the parameters, and `resize` the size of a row. -/
def Accepted (inputSize secParam : ℕ) : Prop :=
  max inputSize secParam ≤ 2 ^ 29 ∧
    lengthN inputSize secParam * finalT inputSize secParam + 8 < 2 ^ 31

/-- Some stream of the generator gives a matrix that is `secParam`-probe resistant. -/
def SomeResistant (buildIrred : ℕ → (ZMod 2)[X]) (M₀ : KProbeMembers)
    (inputSize secParam : ℕ) : Prop :=
  ∃ prng B rest, M₀.build buildIrred inputSize secParam prng = .ok (B, rest) ∧
    B.matrix.Resistant secParam

section Bounds

variable {buildIrred : ℕ → (ZMod 2)[X]} {M₀ : KProbeMembers}

theorem SomeResistant.columns (positive : 1 ≤ inputSize)
    (some : SomeResistant buildIrred M₀ inputSize secParam) : Accepted inputSize secParam ∧
      Columns inputSize secParam (lengthK inputSize secParam - 1) := by
  obtain ⟨prng, B, rest, run, resistant⟩ := some
  obtain ⟨p, params, resizes, _⟩ := KProbeMembers.build_stores (by omega) run
  have built := built_of_build positive params run
  obtain ⟨small, rfl⟩ := (buildParams_ok_iff positive).mp params
  exact ⟨⟨small, resizes⟩, columns_of_resistant built resistant⟩

theorem someResistant_of_columns (positive : 1 ≤ inputSize)
    (irreducible : Irreducible (buildIrred (finalT inputSize secParam)))
    (degree : (buildIrred (finalT inputSize secParam)).natDegree = finalT inputSize secParam)
    (accepted : Accepted inputSize secParam) {r : ℕ}
    (shorter : r ≤ lengthK inputSize secParam - 1)
    (roots : rootBound (finalT inputSize secParam) (lengthN inputSize secParam) r ≤
      lengthK inputSize secParam) (columns : Columns inputSize secParam r) :
    SomeResistant buildIrred M₀ inputSize secParam := by
  obtain ⟨b, spread⟩ := columns
  have params := (buildParams_ok_iff positive).mpr ⟨accepted.1, rfl⟩
  obtain ⟨prng, drawn⟩ := exists_rowBits (lengthK inputSize secParam - 1)
    fun i l => if low : l < r then decide (b i ⟨l, low⟩ = 1) else false
  obtain ⟨B, rest, run⟩ := KProbeMembers.build_total buildIrred M₀ params accepted.2 prng
  refine ⟨prng, B, rest, run, ?_⟩
  refine resistant_of_columns (built_of_build positive params run) irreducible degree rfl roots
    spread fun S l => ?_
  rw [rowSum_coeff]
  refine sum_congr rfl fun i _ => ?_
  have binary : ∀ a : ZMod 2, (if a = 1 then 1 else 0) = a := by decide
  rw [drawn i]
  by_cases low : l < r
  · rw [List.getD_eq_getElem _ _ (by simp; omega), List.getElem_map, List.getElem_range]
    simp only [low, dif_pos, decide_eq_true_iff, binary]
  · rw [dif_neg low]
    by_cases inRow : l < lengthK inputSize secParam - 1
    · rw [List.getD_eq_getElem _ _ (by simpa using inRow), List.getElem_map, List.getElem_range]
      simp [low]
    · rw [List.getD_eq_default _ _ (by simpa using inRow)]
      rfl

end Bounds

/-- A stream needs columns of `K - 1` bits, and finds one whenever there are columns of so few
    bits that a polynomial with as many coefficients has at most `K` of the points as roots.
    When the points fit into the field these are the same. -/
theorem someResistant_iff {buildIrred : ℕ → (ZMod 2)[X]} (M₀ : KProbeMembers)
    (positive : 1 ≤ inputSize) (irreducible : Irreducible (buildIrred (finalT inputSize secParam)))
    (degree : (buildIrred (finalT inputSize secParam)).natDegree = finalT inputSize secParam) :
    (SomeResistant buildIrred M₀ inputSize secParam → Accepted inputSize secParam ∧
      Columns inputSize secParam (lengthK inputSize secParam - 1)) ∧
    ((Accepted inputSize secParam ∧ ∃ r ≤ lengthK inputSize secParam - 1,
      rootBound (finalT inputSize secParam) (lengthN inputSize secParam) r ≤
        lengthK inputSize secParam ∧ Columns inputSize secParam r) →
      SomeResistant buildIrred M₀ inputSize secParam) ∧
    (lengthN inputSize secParam < 2 ^ finalT inputSize secParam →
      (SomeResistant buildIrred M₀ inputSize secParam ↔ Accepted inputSize secParam ∧
        Columns inputSize secParam (lengthK inputSize secParam - 1))) := by
  refine ⟨fun some => some.columns positive, ?_,
    fun fits => ⟨fun some => some.columns positive, ?_⟩⟩
  · rintro ⟨accepted, r, shorter, roots, columns⟩
    exact someResistant_of_columns positive irreducible degree accepted shorter roots columns
  · rintro ⟨accepted, columns⟩
    refine someResistant_of_columns positive irreducible degree accepted le_rfl ?_ columns
    have roots := rootBound_le (lengthK inputSize secParam - 1) fits
    omega

theorem irreducible_two : Irreducible (X ^ 2 + X + 1 : (ZMod 2)[X]) ∧
    (X ^ 2 + X + 1 : (ZMod 2)[X]).natDegree = 2 := by
  have degree : (X ^ 2 + X + 1 : (ZMod 2)[X]).natDegree = 2 := by compute_degree!
  refine ⟨?_, degree⟩
  refine irreducible_of_degree_le_three_of_not_isRoot ?_ ?_
  · rw [degree]
    decide
  · intro a
    rw [IsRoot.def]
    simp only [eval_add, eval_pow, eval_X, eval_one]
    revert a
    decide

theorem someResistant_iff_two_two : SomeResistant (fun _ => X ^ 2 + X + 1) ⟨[], 0, 0⟩ 2 2 := by
  have two : finalT 2 2 = 2 := by decide +kernel
  have exactly := @someResistant_iff 2 2 (fun _ => X ^ 2 + X + 1) ⟨[], 0, 0⟩ (by decide)
    irreducible_two.1 (by rw [two]; exact irreducible_two.2)
  exact exactly.2.1
    ⟨⟨by decide, by decide +kernel⟩, 2, by decide +kernel, by decide +kernel,
      exists_spread le_rfl 2⟩

/-- For 128 input bits and security parameter 40 the rows are polynomials with 29 coefficients,
    so some 30 of them have XOR zero. -/
theorem not_someResistant_128_40 : ¬ ∃ buildIrred M₀, SomeResistant buildIrred M₀ 128 40 := by
  rintro ⟨buildIrred, M₀, some⟩
  obtain ⟨b, spread⟩ := (some.columns (by decide)).2
  have few : lengthK 128 40 = 30 := by decide +kernel
  have bound := spread.le_succ (by rw [card_range, few]; decide)
  omega

end Streams

end KProbeMatrix

end BatchDualEx
