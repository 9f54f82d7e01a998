import BatchDualEx.Circuit.KProbeBuild
import BatchDualEx.Circuit.KProbeEncode
import BatchDualEx.Lib.Probing
import BatchDualEx.Lib.Systematic
import Mathlib.Data.FinEnum
import Mathlib.Data.List.TFAE

/- What the bits of an encoding at a set of positions say about the input. They are uniform, and so
   the same for every input, unless rows of `[M | I]` have a sum that is zero everywhere else. -/
namespace BatchDualEx.KProbeMatrix

open Finset Bytes Systematic Probing

section Random

theorem getU8s_eq (prng : PRNG) (len : ℕ) :
    prng.getU8s len = ((List.range len).map prng.get, prng.drop len) := by
  induction len generalizing prng with
  | zero => rfl
  | succ len ih =>
    simp only [PRNG.getU8s, PRNG.getUchar, ih]
    rw [List.range_succ_eq_map, List.map_cons, List.map_map]
    rfl

theorem randomize_get (v : BitVector) (prng : PRNG) {j : ℕ} (inside : j < 8 * v.sizeBytes) :
    (v.randomize prng).1.get j = (prng.get (j / 8)).toBitVec.getLsbD (j % 8) := by
  have room : j < 8 * v.mData.length := by
    have fits := v.fits
    unfold BitVector.sizeBytes at inside
    omega
  have byte : j / 8 < v.sizeBytes := by omega
  unfold BitVector.randomize BitVector.overwrite BitVector.get
  rw [getU8s_eq]
  simp only [List.map_map]
  rw [bit_memcpy room, List.length_map, List.length_range, if_pos (by omega), Nat.mul_zero,
    Nat.sub_zero]
  unfold bit
  rw [Lists.map_range_getD _ _ byte]
  rfl

variable {mMtx : List BitVector} {h : ℕ}

theorem encodeBits_random (held : Held mMtx h) {input : BitVector}
    (sized : input.mNumBits = mMtx.length) (encoding : BitVector) (prng : PRNG) :
    ∃ encoded rest, encodeBits mMtx (h + mMtx.length) input encoding prng = .ok (encoded, rest) ∧
      Encoded (ofRows mMtx (h + mMtx.length)) input
        ((encoding.reset (h + mMtx.length)).randomize prng).1 mMtx.length encoded := by
  obtain ⟨width, rows⟩ := ofRows_h mMtx h
  have passes : Result.require (input.size = mMtx.length) (Fault.thrown "") = .ok () :=
    Result.require_ok_iff.mpr sized
  let random := ((encoding.reset (h + mMtx.length)).randomize prng).1
  have start : Encoded (ofRows mMtx (h + mMtx.length)) input random 0 random := by
    refine ⟨?_, fun _ _ => rfl, fun i none => absurd none (Nat.not_lt_zero i)⟩
    rw [width, rows]
    exact encoding.reset_numBits _
  have each : ∀ k, 0 ≤ k → k < 0 + mMtx.length → ∀ e,
      Encoded (ofRows mMtx (h + mMtx.length)) input random k e →
      ∃ c, (do
          let parity ← projectedParity mMtx h e k
          .ok (e.set (h + k) (parity != input.get k)) : Except Fault BitVector) = .ok c ∧
        Encoded (ofRows mMtx (h + mMtx.length)) input random (k + 1) c := by
    intro k _ below e now
    have next := now.set (by rw [rows]; omega)
    rw [width] at next
    refine ⟨_, ?_, next⟩
    rw [projectedParity_eq held e (by omega), check, width]
    rfl
  obtain ⟨encoded, run, final⟩ := Buffer.foldlM_range'_total _ each start
  rw [Nat.zero_add] at final
  refine ⟨encoded, ((encoding.reset (h + mMtx.length)).randomize prng).2, ?_, final⟩
  rw [encodeBits, passes, Nat.add_sub_cancel, List.range_eq_range']
  exact congrArg (Except.bind · fun e => .ok (e, _)) run

def bitsOf {B : ℕ} (bytes : Fin B → UInt8) (j : Fin (8 * B)) : ZMod 2 :=
  ofBit ((bytes ⟨j / 8, by omega⟩).toBitVec.getLsbD (j % 8))

theorem bitsOf_bijective (B : ℕ) :
    Function.Bijective (bitsOf : (Fin B → UInt8) → Fin (8 * B) → ZMod 2) := by
  rw [Nat.bijective_iff_injective_and_card]
  constructor
  · intro bytes bytes' same
    funext i
    apply UInt8.toBitVec_inj.mp
    apply BitVec.eq_of_getLsbD_eq
    intro c below
    have bits := ofBit_injective (congrFun same ⟨8 * i + c, by omega⟩)
    simpa only [show (8 * i.val + c) / 8 = i.val by omega,
      show (8 * i.val + c) % 8 = c by omega] using bits
  · have byte : Nat.card UInt8 = 2 ^ 8 := by
      rw [Nat.card_eq_fintype_card, ← FinEnum.card_eq_fintypeCard]
      exact FinEnum.card_UInt8
    rw [Nat.card_fun, Nat.card_fun, byte, Nat.card_zmod, Nat.card_fin, Nat.card_fin, ← pow_mul]

end Random

section Rows

variable {M : KProbeMatrix}

def rowOf (M : KProbeMatrix) (t j : ℕ) : Bool :=
  decide (j < M.h) && if t < M.h then decide (j = t) else M.entry (t - M.h) j

def shiftOf (M : KProbeMatrix) (input : BitVector) (t : ℕ) : ZMod 2 :=
  if t < M.h then 0 else ofBit (input.get (t - M.h))

theorem Encoded.get_eq {input random encoded : BitVector} {k : ℕ}
    (final : Encoded M input random k encoded) {t w : ℕ} (inside : t < M.h + k)
    (enough : M.h ≤ w) : ofBit (encoded.get t) =
      ∑ j ∈ range w, ofBit (M.rowOf t j) * ofBit (random.get j) + M.shiftOf input t := by
  unfold rowOf shiftOf
  by_cases low : t < M.h
  · have single : ∑ j ∈ range w, ofBit (decide (j < M.h) && decide (j = t)) *
        ofBit (random.get j) = ofBit (random.get t) := by
      rw [sum_eq_single_of_mem t (mem_range.mpr (by omega))]
      · simp [low, ofBit]
      · intro j _ other
        simp [other, ofBit]
    simp only [if_pos low, add_zero]
    rw [final.free t low, single]
  · obtain ⟨i, rfl⟩ : ∃ i, t = M.h + i := ⟨t - M.h, by omega⟩
    have sum : ∑ j ∈ range M.h, ofBit (M.entry i j) * ofBit (random.get j) =
        ∑ j ∈ range w, ofBit (decide (j < M.h) && M.entry i j) * ofBit (random.get j) := by
      rw [← sum_subset (range_subset_range.mpr enough)]
      · apply sum_congr rfl
        intro j listed
        rw [decide_eq_true (mem_range.mp listed), Bool.true_and]
      · intro j _ outside
        rw [decide_eq_false (fun below => outside (mem_range.mpr below)), Bool.false_and]
        simp [ofBit]
    simp only [if_neg low, Nat.add_sub_cancel_left]
    rw [final.checks i (by omega), ofBit_xor, check, ofBit_foldl, ← sum, ← sum_range
      fun j => ofBit (M.entry i j) * ofBit (random.get j)]
    simp [ofBit]

def support (M : KProbeMatrix) (S : Finset ℕ) : Finset ℕ :=
  {j ∈ range M.mEncodingSize | Odd #{i ∈ S | M.extended i j = true}}

theorem sum_ofBit (bit : ℕ → Bool) (S : Finset ℕ) :
    ∑ i ∈ S, ofBit (bit i) = (#{i ∈ S | bit i = true} : ZMod 2) := by
  unfold ofBit
  exact sum_boole _ _

theorem sum_ofBit_eq_one_iff (bit : ℕ → Bool) (S : Finset ℕ) :
    ∑ i ∈ S, ofBit (bit i) = 1 ↔ Odd #{i ∈ S | bit i = true} := by
  rw [sum_ofBit, ZMod.natCast_eq_one_iff_odd]

/-- In a random bit the positions in `T` sum the position of that bit and the rows of the others. -/
theorem sum_rowOf {T : Finset ℕ} (inside : T ⊆ range (M.h + M.n)) {j : ℕ} (free : j < M.h) :
    ∑ t ∈ T, ofBit (M.rowOf t j) =
      ofBit (decide (j ∈ T)) + ∑ i ∈ range M.n with M.h + i ∈ T, ofBit (M.entry i j) := by
  have low : ∑ t ∈ T with t < M.h, ofBit (M.rowOf t j) = ofBit (decide (j ∈ T)) := by
    have same : ∀ t ∈ T.filter (· < M.h), ofBit (M.rowOf t j) = if j = t then 1 else 0 := by
      intro t listed
      unfold rowOf ofBit
      simp [free, (mem_filter.mp listed).2]
    rw [sum_congr rfl same, sum_ite_eq]
    unfold ofBit
    simp [free]
  have high : ∑ t ∈ T with ¬t < M.h, ofBit (M.rowOf t j) =
      ∑ i ∈ range M.n with M.h + i ∈ T, ofBit (M.entry i j) := by
    symm
    apply sum_nbij (M.h + ·)
    · intro i listed
      rw [mem_filter]
      exact ⟨(mem_filter.mp listed).2, by omega⟩
    · intro i _ i' _ same
      exact Nat.add_left_cancel same
    · intro t listed
      obtain ⟨member, above⟩ := mem_filter.mp (mem_coe.mp listed)
      have below := mem_range.mp (inside member)
      refine ⟨t - M.h, ?_, Nat.add_sub_cancel' (Nat.not_lt.mp above)⟩
      rw [mem_coe, mem_filter, mem_range]
      exact ⟨by omega, by rwa [show M.h + (t - M.h) = t by omega]⟩
    · intro i _
      unfold rowOf
      simp [free]
  rw [← sum_filter_add_sum_filter_not T (· < M.h), low, high]

/-- The functions of the random bits at the positions are independent unless some rows sum to zero
    everywhere else. -/
theorem rowOf_independent {P : Finset ℕ} (inside : P ⊆ range (M.h + M.n))
    (apart : ∀ S ⊆ range M.n, S.Nonempty → ¬M.support S ⊆ P) {w : ℕ} (enough : M.h ≤ w) :
    LinearIndependent (ZMod 2) fun (t : P) (j : Fin w) => ofBit (M.rowOf t j) := by
  apply linearIndependent_of_sums
  intro T nonempty zero
  let T' : Finset ℕ := T.map (Function.Embedding.subtype _)
  have within : T' ⊆ P := by
    intro t listed
    obtain ⟨t', _, rfl⟩ := mem_map.mp listed
    exact t'.property
  have cancel : ∀ j < M.h, ofBit (decide (j ∈ T')) +
      ∑ i ∈ range M.n with M.h + i ∈ T', ofBit (M.entry i j) = 0 := by
    intro j free
    have coordinate := congrFun zero ⟨j, by omega⟩
    rw [Finset.sum_apply] at coordinate
    rw [← sum_rowOf (within.trans inside) free, sum_map]
    exact coordinate
  have binary : ∀ b : Bool, ofBit b + 1 = 0 → b = true := by decide
  by_cases rows : ({i ∈ range M.n | M.h + i ∈ T'} : Finset ℕ).Nonempty
  · apply apart _ (filter_subset _ _) rows
    intro j listed
    obtain ⟨below, odd⟩ := mem_filter.mp listed
    apply within
    by_cases free : j < M.h
    · simp only [extended, if_pos free] at odd
      have sum := cancel j free
      rw [(sum_ofBit_eq_one_iff (fun i => M.entry i j) _).mpr odd] at sum
      exact of_decide_eq_true (binary _ sum)
    · simp only [extended, if_neg free] at odd
      obtain ⟨i, member⟩ := card_pos.mp odd.pos
      obtain ⟨chosen, column⟩ := mem_filter.mp member
      rw [of_decide_eq_true column]
      exact (mem_filter.mp chosen).2
  · obtain ⟨t, member⟩ := nonempty
    have listed : t.val ∈ T' := mem_map_of_mem _ member
    rw [not_nonempty_iff_eq_empty] at rows
    have free : t.val < M.h := by
      by_contra above
      have below := mem_range.mp (inside t.property)
      have row : t.val - M.h ∈ ({i ∈ range M.n | M.h + i ∈ T'} : Finset ℕ) := by
        rw [mem_filter, mem_range]
        exact ⟨by omega, by rwa [show M.h + (t.val - M.h) = t.val by omega]⟩
      rw [rows] at row
      exact absurd row (notMem_empty _)
    have sum := cancel t.val free
    rw [rows, sum_empty, decide_eq_true listed] at sum
    cases sum

theorem Encoded.sum_extended {input random encoded : BitVector} {k : ℕ}
    (final : Encoded M input random k encoded) (size : M.mEncodingSize = M.h + M.n) {i : ℕ}
    (inside : i < M.n) (written : i < k) :
    ∑ t ∈ range M.mEncodingSize, ofBit (M.extended i t) * ofBit (encoded.get t) =
      ofBit (input.get i) := by
  have masked : ∀ t ∈ range M.h, ofBit (M.extended i t) * ofBit (encoded.get t) =
      ofBit (M.entry i t) * ofBit (random.get t) := by
    intro t listed
    have free := mem_range.mp listed
    rw [extended, if_pos free, final.free t free]
  have unit : ∀ t ∈ range M.n, ofBit (M.extended i (M.h + t)) * ofBit (encoded.get (M.h + t)) =
      if i = t then ofBit (encoded.get (M.h + i)) else 0 := by
    intro t _
    rw [extended, if_neg (by omega)]
    by_cases same : i = t
    · simp [same, ofBit]
    · rw [decide_eq_false (by omega)]
      simp [same, ofBit]
  have check : ofBit (M.check random.get i) =
      ∑ t ∈ range M.h, ofBit (M.entry i t) * ofBit (random.get t) := by
    rw [KProbeMatrix.check, ofBit_foldl,
      ← sum_range fun j => ofBit (M.entry i j) * ofBit (random.get j)]
    simp [ofBit]
  rw [size, sum_range_add, sum_congr rfl masked, sum_congr rfl unit, sum_ite_eq,
    if_pos (mem_range.mpr inside), final.checks i written, ofBit_xor, check, ← add_assoc,
    CharTwo.add_self_eq_zero, zero_add]

theorem Encoded.sum_support {input random encoded : BitVector} {k : ℕ}
    (final : Encoded M input random k encoded) (size : M.mEncodingSize = M.h + M.n) (all : k = M.n)
    {S : Finset ℕ} (inside : S ⊆ range M.n) :
    ∑ t ∈ M.support S, ofBit (encoded.get t) = ∑ i ∈ S, ofBit (input.get i) := by
  have rows : ∀ i ∈ S, ofBit (input.get i) =
      ∑ t ∈ range M.mEncodingSize, ofBit (M.extended i t) * ofBit (encoded.get t) := by
    intro i member
    have below := mem_range.mp (inside member)
    exact (final.sum_extended size below (by omega)).symm
  have column (t : ℕ) : ∑ i ∈ S, ofBit (M.extended i t) =
      if Odd #{i ∈ S | M.extended i t = true} then 1 else 0 := by
    have binary : ∀ a : ZMod 2, a = if a = 1 then 1 else 0 := by decide
    rw [binary (∑ i ∈ S, ofBit (M.extended i t))]
    simp only [sum_ofBit_eq_one_iff]
  rw [sum_congr rfl rows, sum_comm, support, sum_filter]
  apply sum_congr rfl
  intro t _
  rw [← sum_mul, column]
  split <;> simp

end Rows

section Views

variable (mMtx : List BitVector) (h : ℕ)

def drawCount : ℕ := (h + mMtx.length + 7) / 8

/-- The draws after which the encoding of the input has the bits `v` at the positions `P`. -/
def draws (input encoding : BitVector) (P : Finset ℕ) (v : ℕ → Bool) :
    Set (Fin (drawCount mMtx h) → UInt8) :=
  {bytes | ∃ prng : PRNG, (∀ i : Fin (drawCount mMtx h), prng.get i = bytes i) ∧
    ∃ encoded rest, encodeBits mMtx (h + mMtx.length) input encoding prng = .ok (encoded, rest) ∧
      ∀ t ∈ P, encoded.get t = v t}

/-- All bits at the positions `P` are equally likely, for every input. -/
def Uniform (encoding : BitVector) (P : Finset ℕ) : Prop :=
  ∀ input : BitVector, input.mNumBits = mMtx.length → ∀ v,
    Nat.card (draws mMtx h input encoding P v) * 2 ^ #P = (2 ^ 8) ^ drawCount mMtx h

/-- The bits at the positions `P` are as likely for one input as for another. -/
def Hidden (encoding : BitVector) (P : Finset ℕ) : Prop :=
  ∀ input input' : BitVector, input.mNumBits = mMtx.length → input'.mNumBits = mMtx.length → ∀ v,
    Nat.card (draws mMtx h input encoding P v) = Nat.card (draws mMtx h input' encoding P v)

variable {mMtx h}

theorem Uniform.hidden {encoding : BitVector} {P : Finset ℕ}
    (uniform : Uniform mMtx h encoding P) : Hidden mMtx h encoding P := by
  intro input input' sized sized' v
  apply Nat.eq_of_mul_eq_mul_right (show 0 < 2 ^ #P by positivity)
  rw [uniform input sized v, uniform input' sized' v]

variable (held : Held mMtx h) {input : BitVector} (sized : input.mNumBits = mMtx.length)
include held sized

theorem encodeBits_seen (encoding : BitVector) {bytes : Fin (drawCount mMtx h) → UInt8}
    {prng : PRNG} (starts : ∀ i : Fin (drawCount mMtx h), prng.get i = bytes i) :
    ∃ encoded rest, encodeBits mMtx (h + mMtx.length) input encoding prng = .ok (encoded, rest) ∧
      ∀ t < h + mMtx.length, ofBit (encoded.get t) =
        ∑ j : Fin (8 * drawCount mMtx h),
            ofBit ((ofRows mMtx (h + mMtx.length)).rowOf t j) * bitsOf bytes j +
          (ofRows mMtx (h + mMtx.length)).shiftOf input t := by
  obtain ⟨width, -⟩ := ofRows_h mMtx h
  obtain ⟨encoded, rest, run, final⟩ := encodeBits_random held sized encoding prng
  have enough : h ≤ 8 * drawCount mMtx h := by
    unfold drawCount
    omega
  refine ⟨encoded, rest, run, fun t below => ?_⟩
  rw [final.get_eq (w := 8 * drawCount mMtx h) (by rw [width]; exact below)
    (by rw [width]; exact enough), sum_range]
  congr 1
  apply sum_congr rfl
  intro j _
  have size : (encoding.reset (h + mMtx.length)).sizeBytes = drawCount mMtx h := by
    unfold BitVector.sizeBytes drawCount
    rw [BitVector.reset_numBits]
  have byte : prng.get (j / 8) = bytes ⟨j / 8, by omega⟩ := starts ⟨j / 8, by omega⟩
  rw [randomize_get _ _ (by rw [size]; exact j.isLt), byte]
  rfl

theorem mem_draws_iff {P : Finset ℕ} (inside : P ⊆ range (h + mMtx.length)) (encoding : BitVector)
    (v : ℕ → Bool) (bytes : Fin (drawCount mMtx h) → UInt8) :
    bytes ∈ draws mMtx h input encoding P v ↔
      seen (fun (t : P) (j : Fin (8 * drawCount mMtx h)) =>
          ofBit ((ofRows mMtx (h + mMtx.length)).rowOf t j))
        (fun t => (ofRows mMtx (h + mMtx.length)).shiftOf input t) (bitsOf bytes) =
          fun t : P => ofBit (v t) := by
  constructor
  · intro member
    obtain ⟨prng, starts, encoded, rest, run, agrees⟩ := member
    obtain ⟨encoded', rest', run', values⟩ := encodeBits_seen held sized encoding starts
    cases run.symm.trans run'
    funext t
    rw [← agrees t t.property]
    exact (values t (mem_range.mp (inside t.property))).symm
  · intro same
    let prng : PRNG := fun i => if below : i < drawCount mMtx h then bytes ⟨i, below⟩ else 0
    have starts : ∀ i : Fin (drawCount mMtx h), prng.get i = bytes i := fun i => dif_pos i.isLt
    obtain ⟨encoded, rest, run, values⟩ := encodeBits_seen held sized encoding starts
    refine ⟨prng, starts, encoded, rest, run, fun t member => ofBit_injective ?_⟩
    rw [values t (mem_range.mp (inside member))]
    exact congrFun same ⟨t, member⟩

omit sized in
theorem uniform_of_apart {P : Finset ℕ} (inside : P ⊆ range (h + mMtx.length))
    (apart : ∀ S ⊆ range mMtx.length, S.Nonempty →
      ¬(ofRows mMtx (h + mMtx.length)).support S ⊆ P) (encoding : BitVector) :
    Uniform mMtx h encoding P := by
  intro input sized v
  obtain ⟨width, rows⟩ := ofRows_h mMtx h
  have enough : h ≤ 8 * drawCount mMtx h := by
    unfold drawCount
    omega
  have independent := rowOf_independent (M := ofRows mMtx (h + mMtx.length)) (P := P)
    (by rw [width, rows]; exact inside) (by rw [rows]; exact apart) (w := 8 * drawCount mMtx h)
    (by rw [width]; exact enough)
  have count := card_seen_mul independent
    (fun t : P => (ofRows mMtx (h + mMtx.length)).shiftOf input t) (fun t : P => ofBit (v t))
  have strings : draws mMtx h input encoding P v ≃ {r : Fin (8 * drawCount mMtx h) → ZMod 2 //
      seen (fun (t : P) (j : Fin (8 * drawCount mMtx h)) =>
          ofBit ((ofRows mMtx (h + mMtx.length)).rowOf t j))
        (fun t => (ofRows mMtx (h + mMtx.length)).shiftOf input t) r = fun t : P => ofBit (v t)} :=
    (Equiv.ofBijective bitsOf (bitsOf_bijective _)).subtypeEquiv
      fun bytes => mem_draws_iff held sized inside encoding v bytes
  have positions : Nat.card P = #P := by
    rw [Nat.card_eq_fintype_card, Fintype.card_coe]
  rw [Nat.card_zmod, positions, Nat.card_fin, pow_mul] at count
  rw [Nat.card_congr strings, ← count]

omit sized in
/-- Positions that hold a sum of rows tell the sum of these bits of the input. -/
theorem not_hidden {P S : Finset ℕ} (rows : S ⊆ range mMtx.length) (nonempty : S.Nonempty)
    (within : (ofRows mMtx (h + mMtx.length)).support S ⊆ P) (encoding : BitVector) :
    ¬Hidden mMtx h encoding P := by
  intro hidden
  obtain ⟨width, count⟩ := ofRows_h mMtx h
  have size : (ofRows mMtx (h + mMtx.length)).mEncodingSize =
      (ofRows mMtx (h + mMtx.length)).h + (ofRows mMtx (h + mMtx.length)).n := by
    rw [width, count]
    rfl
  have rows' : S ⊆ range (ofRows mMtx (h + mMtx.length)).n := by rwa [count]
  obtain ⟨i₀, member⟩ := nonempty
  have below := mem_range.mp (rows member)
  let zeros := BitVector.empty.reset mMtx.length
  let lit := zeros.set i₀ true
  have sizedZeros : zeros.mNumBits = mMtx.length := BitVector.reset_numBits _ _
  have sizedLit : lit.mNumBits = mMtx.length := BitVector.reset_numBits _ _
  have sumZeros : ∑ i ∈ S, ofBit (zeros.get i) = 0 := by
    apply sum_eq_zero
    intro i _
    rw [BitVector.get_reset_empty]
    rfl
  have sumLit : ∑ i ∈ S, ofBit (lit.get i) = 1 := by
    have room : i₀ < 8 * zeros.mData.length := by
      rw [BitVector.reset_empty_length]
      omega
    rw [sum_eq_single_of_mem i₀ member]
    · rw [BitVector.get_set room, if_pos rfl]
      rfl
    · intro i _ other
      rw [BitVector.get_set room, if_neg other, BitVector.get_reset_empty]
      rfl
  let prng : PRNG := fun _ => 0
  obtain ⟨encoded, rest, run, final⟩ := encodeBits_random held sizedZeros encoding prng
  have some : (fun _ => 0) ∈ draws mMtx h zeros encoding P encoded.get :=
    ⟨prng, fun _ => rfl, encoded, rest, run, fun _ _ => rfl⟩
  have none : draws mMtx h lit encoding P encoded.get = ∅ := by
    rw [Set.eq_empty_iff_forall_notMem]
    intro bytes listed
    obtain ⟨prng', _, encoded', rest', run', agrees⟩ := listed
    obtain ⟨other, otherRest, otherRun, final'⟩ := encodeBits_random held sizedLit encoding prng'
    cases run'.symm.trans otherRun
    have inZeros := final.sum_support size count.symm rows'
    have inLit := final'.sum_support size count.symm rows'
    have same : ∑ t ∈ (ofRows mMtx (h + mMtx.length)).support S, ofBit (encoded'.get t) =
        ∑ t ∈ (ofRows mMtx (h + mMtx.length)).support S, ofBit (encoded.get t) :=
      sum_congr rfl fun t listed => by rw [agrees t (within listed)]
    rw [inZeros, inLit, sumZeros, sumLit] at same
    cases same
  have equal := hidden zeros lit sizedZeros sizedLit encoded.get
  have empty : Nat.card (draws mMtx h lit encoding P encoded.get) = 0 := by
    rw [none]
    exact Nat.card_of_isEmpty
  have positive : 0 < Nat.card (draws mMtx h zeros encoding P encoded.get) :=
    Nat.card_pos_iff.mpr ⟨⟨⟨_, some⟩⟩, inferInstance⟩
  omega

omit sized in
/-- The matrix is `k`-probe resistant exactly when fewer than `k` bits of an encoding do not depend
    on the input, and then they are uniform. -/
theorem resistant_tfae (encoding : BitVector) (k : ℕ) :
    [(ofRows mMtx (h + mMtx.length)).Resistant k,
      ∀ P ⊆ range (h + mMtx.length), #P < k → Uniform mMtx h encoding P,
      ∀ P ⊆ range (h + mMtx.length), #P < k → Hidden mMtx h encoding P].TFAE := by
  have count := (ofRows_h mMtx h).2
  tfae_have 1 → 2 := by
    intro resistant P inside few
    apply uniform_of_apart held inside
    intro S rows nonempty within
    have heavy := resistant S (by rw [count]; exact rows) nonempty
    have light := card_le_card within
    unfold weight at heavy
    unfold support at light
    omega
  tfae_have 2 → 3 := by
    intro uniform P inside few
    exact (uniform P inside few).hidden
  tfae_have 3 → 1 := by
    intro hidden S rows nonempty
    rw [count] at rows
    by_contra light
    exact not_hidden held rows nonempty (subset_refl _) encoding
      (hidden _ (filter_subset _ _) (Nat.not_le.mp light))
  tfae_finish

end Views

theorem resistant_tfae_one_row :
    [(ofRows oneRow (3 + oneRow.length)).Resistant 2,
      ∀ P ⊆ range (3 + oneRow.length), #P < 2 → Uniform oneRow 3 .empty P,
      ∀ P ⊆ range (3 + oneRow.length), #P < 2 → Hidden oneRow 3 .empty P].TFAE :=
  resistant_tfae oneRow_held .empty 2

end BatchDualEx.KProbeMatrix
