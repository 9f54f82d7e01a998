import BatchDualEx.DualEx.CommonOutput

/- The tweaks of the fixed-key hash for one circuit: no two of its uses share one, and the
   garbler and the evaluator agree on each. -/
namespace BatchDualEx.Opening

open HalfGtGarbledCircuit

/-- `half` of a gate is its second input, `value` of an output the label that is hashed. -/
inductive TweakUse where
  | gate (k : Nat) (half : Bool)
  | output (i : Nat) (value : Bool)
  deriving DecidableEq, Repr

def TweakUse.Used (cir : Circuit) : TweakUse → Prop
  | .gate k _ => ∃ gate, cir.mGates[k]? = some gate ∧ gate.mType.isXor = false
  | .output i _ => i < cir.mOutputs.length

section
variable (aes : Block → Block → Block) (cir : Circuit)

def sentGates (seed : Block) (wires indexArray tableMasks : List Block) (k : Nat) : SendState :=
  let inputs := inputLabels aes seed indexArray cir
  (cir.mGates.take k).foldl (sendGate aes (globalOffset aes seed))
    ⟨inputs ++ wires.drop inputs.length, [], firstTweaks cir, tableMasks⟩

def evaluatedGates (gc : HalfGtGarbledCircuit) (labels tableMasks : List Block) (k : Nat) :
    EvaluateState :=
  (cir.mGates.take k).foldl (evaluateGate aes) ⟨labels, gc.mGates, firstTweaks cir, tableMasks⟩

/-- The tweak under which `GarbleSend`, `Bucket::initSend` and `commitToOutputs` hash. -/
def garblerTweak (seed : Block) (wires indexArray tableMasks : List Block) : TweakUse → Block
  | .gate k half => pick half (sentGates aes cir seed wires indexArray tableMasks k).tweaks
  | .output i value => pick value (nextTweaks^[i] (outputTweaks cir))

/-- The tweak under which `evaluate` and `Bucket::evalCircuit` hash; `labels` are those before
    and `active` those after the evaluation. -/
def evaluatorTweak (gc : HalfGtGarbledCircuit) (mTranlation mCommonOutput : List (Block × Block))
    (labels active tableMasks : List Block) : TweakUse → Block
  | .gate k half => pick half (evaluatedGates aes cir gc labels tableMasks k).tweaks
  | .output i value =>
    pick value ((List.range i).foldl
      (Bucket.evalOutput aes cir gc.mTranslationTable mTranlation mCommonOutput active)
      ⟨zeroBlock, outputTweaks cir, []⟩).tweaks

def hashedBefore (k : Nat) : Nat := (cir.mGates.take k).countP fun gate => !gate.mType.isXor

variable {aes cir}

theorem sentGates_all (seed : Block) (wires indexArray tableMasks : List Block) :
    sentGates aes cir seed wires indexArray tableMasks cir.mGates.length =
      sendLoop aes cir seed wires indexArray tableMasks := by
  unfold sentGates sendLoop
  rw [List.take_length]

theorem evaluatedGates_all (gc : HalfGtGarbledCircuit) (labels tableMasks : List Block) :
    (evaluatedGates aes cir gc labels tableMasks cir.mGates.length).labels =
      gc.evaluate aes cir labels tableMasks := by
  unfold evaluatedGates evaluate
  rw [List.take_length]

theorem sendGate_tweaks (delta : Block) (s : SendState) (gate : Gate) :
    (sendGate aes delta s gate).tweaks =
      if gate.mType.isXor then s.tweaks else nextTweaks s.tweaks := by
  cases xor : gate.mType.isXor <;> simp [sendGate, xor]

theorem evaluateGate_tweaks (s : EvaluateState) (gate : Gate) :
    (evaluateGate aes s gate).tweaks =
      if gate.mType.isXor then s.tweaks else nextTweaks s.tweaks := by
  cases xor : gate.mType.isXor <;> simp [evaluateGate, xor]

/-- A loop that steps the tweaks at the hashed gates only. -/
theorem foldl_tweaks {S : Type} (tweaks : S → Block × Block) {step : S → Gate → S}
    (each : ∀ s gate, tweaks (step s gate) =
      if gate.mType.isXor then tweaks s else nextTweaks (tweaks s)) (gates : List Gate) (s : S) :
    tweaks (gates.foldl step s) =
      nextTweaks^[gates.countP fun gate => !gate.mType.isXor] (tweaks s) := by
  induction gates generalizing s with
  | nil => rfl
  | cons gate gates ih =>
    rw [List.foldl_cons, ih, each, List.countP_cons]
    cases gate.mType.isXor
    · rfl
    · rfl

theorem sentGates_tweaks (seed : Block) (wires indexArray tableMasks : List Block) (k : Nat) :
    (sentGates aes cir seed wires indexArray tableMasks k).tweaks =
      nextTweaks^[hashedBefore cir k] (firstTweaks cir) :=
  foldl_tweaks SendState.tweaks (sendGate_tweaks _) _ _

theorem evaluatedGates_tweaks (gc : HalfGtGarbledCircuit) (labels tableMasks : List Block)
    (k : Nat) : (evaluatedGates aes cir gc labels tableMasks k).tweaks =
      nextTweaks^[hashedBefore cir k] (firstTweaks cir) :=
  foldl_tweaks EvaluateState.tweaks evaluateGate_tweaks _ _

theorem evalOutputs_tweaks (table : List Bool) (mTranlation mCommonOutput : List (Block × Block))
    (labels : List Block) (s : EvalOutputs) (i : Nat) :
    ((List.range i).foldl (Bucket.evalOutput aes cir table mTranlation mCommonOutput labels)
      s).tweaks = nextTweaks^[i] s.tweaks := by
  induction i with
  | zero => rfl
  | succ i ih =>
    rw [List.range_succ, List.foldl_append, Function.iterate_succ_apply', ← ih]
    rfl

theorem mmAddEpi64_oneBlock (hi lo : BitVec 64) :
    mmAddEpi64 (mmSetEpi64x hi lo) oneBlock = mmSetEpi64x hi (lo + 1) := by
  unfold mmAddEpi64
  have high : (mmSetEpi64x hi lo).hi = hi := BitVec.extractLsb'_append_eq_left
  have low : (mmSetEpi64x hi lo).lo = lo := BitVec.extractLsb'_append_eq_right
  rw [high, low, show oneBlock.hi = 0 by decide, show oneBlock.lo = 1 by decide]
  exact congrArg (mmSetEpi64x · (lo + 1)) (BitVec.add_zero hi)

theorem mmSetEpi64x_inj {hi₀ lo₀ hi₁ lo₁ : BitVec 64}
    (same : mmSetEpi64x hi₀ lo₀ = mmSetEpi64x hi₁ lo₁) : hi₀ = hi₁ ∧ lo₀ = lo₁ := by
  have high := congrArg (BitVec.extractLsb' 64 64) same
  have low := congrArg (BitVec.extractLsb' 0 64) same
  unfold mmSetEpi64x at high low
  rw [BitVec.extractLsb'_append_eq_left, BitVec.extractLsb'_append_eq_left] at high
  rw [BitVec.extractLsb'_append_eq_right, BitVec.extractLsb'_append_eq_right] at low
  exact ⟨high, low⟩

theorem nextTweaks_iterate (hi₀ lo₀ hi₁ lo₁ : BitVec 64) (k : Nat) :
    nextTweaks^[k] (mmSetEpi64x hi₀ lo₀, mmSetEpi64x hi₁ lo₁) =
      (mmSetEpi64x hi₀ (lo₀ + BitVec.ofNat 64 k), mmSetEpi64x hi₁ (lo₁ + BitVec.ofNat 64 k)) := by
  induction k with
  | zero => simp
  | succ k ih =>
    have counted (lo : BitVec 64) : lo + BitVec.ofNat 64 k + 1 = lo + BitVec.ofNat 64 (k + 1) := by
      rw [BitVec.ofNat_add, BitVec.add_assoc]
      rfl
    rw [Function.iterate_succ_apply', ih, nextTweaks, mmAddEpi64_oneBlock, mmAddEpi64_oneBlock,
      counted, counted]

def TweakUse.hi (cir : Circuit) : TweakUse → Nat
  | .gate _ _ => 0
  | .output _ value => if value then 3 * cir.mWireCount else 2 * cir.mWireCount

def TweakUse.lo (cir : Circuit) : TweakUse → Nat
  | .gate k half => (if half then cir.mGates.length else 0) + hashedBefore cir k
  | .output i value => (if value then 3 * cir.mWireCount else 2 * cir.mWireCount) + i

theorem garblerTweak_lanes (seed : Block) (wires indexArray tableMasks : List Block)
    (u : TweakUse) : garblerTweak aes cir seed wires indexArray tableMasks u =
      mmSetEpi64x (BitVec.ofNat 64 (u.hi cir)) (BitVec.ofNat 64 (u.lo cir)) := by
  cases u with
  | gate k half =>
    rw [garblerTweak, sentGates_tweaks, firstTweaks, zeroBlock, nextTweaks_iterate]
    cases half <;> simp [pick, TweakUse.hi, TweakUse.lo, BitVec.ofNat_add]
  | output i value =>
    have start : outputTweaks cir = (mmSetEpi64x (BitVec.ofNat 64 (2 * cir.mWireCount))
      (BitVec.ofNat 64 (2 * cir.mWireCount)), mmSetEpi64x (BitVec.ofNat 64 (3 * cir.mWireCount))
      (BitVec.ofNat 64 (3 * cir.mWireCount))) := rfl
    rw [garblerTweak, start, nextTweaks_iterate]
    cases value <;> simp [pick, TweakUse.hi, TweakUse.lo, BitVec.ofNat_add]

/-- The two counters are those of the garbler at every gate and output. -/
theorem evaluatorTweak_eq (seed : Block) (wires indexArray garblerMasks : List Block)
    (gc : HalfGtGarbledCircuit) (mTranlation mCommonOutput : List (Block × Block))
    (labels active tableMasks : List Block) (u : TweakUse) :
    evaluatorTweak aes cir gc mTranlation mCommonOutput labels active tableMasks u =
      garblerTweak aes cir seed wires indexArray garblerMasks u := by
  cases u with
  | gate k half =>
    rw [evaluatorTweak, garblerTweak, sentGates_tweaks, evaluatedGates_tweaks]
  | output i value =>
    rw [evaluatorTweak, garblerTweak, evalOutputs_tweaks]

theorem hashedBefore_lt {k l : Nat} {gate : Gate} (here : cir.mGates[k]? = some gate)
    (hashed : gate.mType.isXor = false) (before : k < l) :
    hashedBefore cir k < hashedBefore cir l := by
  have at_k : hashedBefore cir (k + 1) = hashedBefore cir k + 1 := by
    unfold hashedBefore
    rw [List.take_add_one, here, List.countP_append]
    simp [hashed]
  have grows : hashedBefore cir (k + 1) ≤ hashedBefore cir l :=
    (List.take_sublist_take_left before).countP_le
  omega

theorem hashedBefore_bound {k : Nat} {gate : Gate} (here : cir.mGates[k]? = some gate)
    (hashed : gate.mType.isXor = false) : hashedBefore cir k < cir.mGates.length := by
  have inside : k < cir.mGates.length := (List.getElem?_eq_some_iff.mp here).1
  have all : hashedBefore cir cir.mGates.length ≤ cir.mGates.length := by
    unfold hashedBefore
    rw [List.take_length]
    exact List.countP_le_length
  exact (hashedBefore_lt here hashed inside).trans_le all

theorem hashedBefore_inj {k l : Nat} {gate other : Gate} (here : cir.mGates[k]? = some gate)
    (hashed : gate.mType.isXor = false) (there : cir.mGates[l]? = some other)
    (hashed' : other.mType.isXor = false) (same : hashedBefore cir k = hashedBefore cir l) :
    k = l := by
  rcases Nat.lt_trichotomy k l with before | equal | after
  · have := hashedBefore_lt here hashed before
    omega
  · exact equal
  · have := hashedBefore_lt there hashed' after
    omega

theorem ofNat_inj_of_lt {m n : Nat} (below : m < 2 ^ 64) (below' : n < 2 ^ 64)
    (same : BitVec.ofNat 64 m = BitVec.ofNat 64 n) : m = n := by
  have := congrArg BitVec.toNat same
  rwa [BitVec.toNat_ofNat, BitVec.toNat_ofNat, Nat.mod_eq_of_lt below, Nat.mod_eq_of_lt below']
    at this

/-- The indices of the outputs are 64-bit, and wrap with the counter. -/
theorem ofNat_add_left_cancel {base i j : Nat} (below : i < 2 ^ 64) (below' : j < 2 ^ 64)
    (same : BitVec.ofNat 64 (base + i) = BitVec.ofNat 64 (base + j)) : i = j := by
  rw [BitVec.ofNat_add, BitVec.ofNat_add] at same
  exact ofNat_inj_of_lt below below' ((BitVec.add_right_inj _).mp same)

theorem lanes_inj (wired : cir.mWireCount = cir.inputWireCount + cir.mGates.length)
    (some_wire : 1 ≤ cir.mWireCount) (fits : 4 * cir.mWireCount < 2 ^ 64)
    (counted : cir.mOutputs.length ≤ 2 ^ 64) {u v : TweakUse} (used : u.Used cir)
    (used' : v.Used cir)
    (same_hi : BitVec.ofNat 64 (u.hi cir) = BitVec.ofNat 64 (v.hi cir))
    (same_lo : BitVec.ofNat 64 (u.lo cir) = BitVec.ofNat 64 (v.lo cir)) : u = v := by
  have hi_eq : u.hi cir = v.hi cir := by
    refine ofNat_inj_of_lt ?_ ?_ same_hi
    · cases u <;> simp only [TweakUse.hi] <;> (try split) <;> omega
    · cases v <;> simp only [TweakUse.hi] <;> (try split) <;> omega
  cases u with
  | gate k half =>
    cases v with
    | gate l half' =>
      obtain ⟨gate, here, hashed⟩ := used
      obtain ⟨other, there, hashed'⟩ := used'
      have below := hashedBefore_bound here hashed
      have below' := hashedBefore_bound there hashed'
      have lo_eq := ofNat_inj_of_lt (by simp only [TweakUse.lo]; split <;> omega)
        (by simp only [TweakUse.lo]; split <;> omega) same_lo
      simp only [TweakUse.lo] at lo_eq
      have half_eq : half = half' := by
        cases half <;> cases half' <;> simp at lo_eq ⊢ <;> omega
      subst half_eq
      rw [hashedBefore_inj here hashed there hashed' (by omega)]
    | output j value' =>
      simp only [TweakUse.hi] at hi_eq
      split at hi_eq <;> omega
  | output i value =>
    cases v with
    | gate l half' =>
      simp only [TweakUse.hi] at hi_eq
      split at hi_eq <;> omega
    | output j value' =>
      have value_eq : value = value' := by
        cases value <;> cases value' <;> simp [TweakUse.hi] at hi_eq ⊢ <;> omega
      subst value_eq
      have i_lt : i < 2 ^ 64 := Nat.lt_of_lt_of_le used counted
      have j_lt : j < 2 ^ 64 := Nat.lt_of_lt_of_le used' counted
      rw [ofNat_add_left_cancel i_lt j_lt same_lo]

def hashedSample : Circuit := ⟨3, 1, 2, (1, 1), [⟨0, 1, 2, .and⟩], [2, 0]⟩

end

end BatchDualEx.Opening
