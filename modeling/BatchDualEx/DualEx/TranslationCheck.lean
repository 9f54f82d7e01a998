import BatchDualEx.DualEx.CommonOutput

/- `Bucket::checkTranslation`: a translation table and a seed that pass open the committed output
   hashes, so that each label of the circuit is taken to the common label of its value. -/
namespace BatchDualEx.Opening

open WordXor Lists Result HalfGtGarbledCircuit

variable {Digest : Type} (aes : Block → Block → Block)

/-- `mOutLabels[bufferOffset]`, as `execute` fills it from the seed it receives. -/
def outLabels (cir : Circuit) (theirOutLabelSeed : Block) (indexArray : List Block) : List Block :=
  ecbEncBlocks aes theirOutLabelSeed indexArray (cir.mOutputCount * 2)

def commonLabel (theirCommonOutLabels : List Block) (i : Nat) (v : Bool) : Block :=
  theirCommonOutLabels.getD (2 * i + v.toNat) zeroBlock

def translated (theirCommonOutLabels : List Block) (translation : List (Block × Block)) (i : Nat) :
    Block × Block :=
  (theirCommonOutLabels.getD (2 * i) zeroBlock ^^^ (translation.getD i (zeroBlock, zeroBlock)).1,
    theirCommonOutLabels.getD (2 * i + 1) zeroBlock ^^^
      (translation.getD i (zeroBlock, zeroBlock)).2)

namespace Bucket

/-- The buffer, the counter and whether `mTranslationCheckDoneProm` is set. -/
def checkTranslation [DecidableEq Digest] (Commit : List Block → Digest) (cir : Circuit)
    (cirIdx : Nat) (theirCommonOutLabels wireBuff : List Block) (mTransCheckRemaining : BitVec 64)
    (b : Bucket Digest) : Except Fault (List Block × BitVec 64 × Bool) := do
  let some circuit := b.mTheirCircuits[cirIdx]? | .error .undefined
  require (2 * cir.mOutputs.length ≤ wireBuff.length) .undefined
  let out := ((List.range cir.mOutputs.length).map
    (translated theirCommonOutLabels (b.mTranlation.getD cirIdx []))).flatMap fun o => [o.1, o.2]
  let wireBuff := out ++ wireBuff.drop out.length
  require (Commit (wireBuff.take (cir.mOutputCount * 2)) = circuit.mOutputCommit)
    (.thrown "invalid_commitment")
  let rem := mTransCheckRemaining - 1
  return (wireBuff, rem, rem == 0)

def theirCommonOutput (cir : Circuit) (mTranslationTable : List Bool)
    (mTranlation : List (Block × Block)) (labels : List Block) (tweaks : Block × Block) (i : Nat) :
    Block :=
  let label := labels.getD (cir.mOutputs.getD i 0) zeroBlock
  let bit := permuteBit label ^^ mTranslationTable.getD i false
  pick bit (hashLabel aes label tweaks.1, hashLabel aes label tweaks.2) ^^^
    pick bit (mTranlation.getD i (zeroBlock, zeroBlock))

variable {cir : Circuit}

theorem evalOutput_psiInput (mTranslationTable : List Bool)
    (mTranlation mCommonOutput : List (Block × Block)) (labels : List Block) (s : EvalOutputs)
    (i : Nat) :
    (evalOutput aes cir mTranslationTable mTranlation mCommonOutput labels s i).psiInput =
      s.psiInput ^^^ (theirCommonOutput aes cir mTranslationTable mTranlation labels s.tweaks i ^^^
        pick (permuteBit (labels.getD (cir.mOutputs.getD i 0) zeroBlock) ^^
          mTranslationTable.getD i false) (mCommonOutput.getD i (zeroBlock, zeroBlock))) := rfl

/-- The entries are stored next to each other, so the flat buffer determines them. -/
theorem flatMap_pairs_inj {α : Type} {l l' : List (α × α)}
    (same : (l.flatMap fun p => [p.1, p.2]) = l'.flatMap fun p => [p.1, p.2]) : l = l' := by
  induction l generalizing l' with
  | nil =>
    cases l' with
    | nil => rfl
    | cons p' l' => simp at same
  | cons p l ih =>
    cases l' with
    | nil => simp at same
    | cons p' l' =>
      simp only [List.flatMap_cons, List.cons_append, List.nil_append, List.cons.injEq] at same
      rw [Prod.ext same.1 same.2.1, ih same.2.2]

theorem flatMap_pairs_length {α : Type} (l : List (α × α)) :
    (l.flatMap fun p => [p.1, p.2]).length = l.length * 2 := by
  induction l with
  | nil => rfl
  | cons p l ih =>
    simp only [List.flatMap_cons, List.length_append, ih, List.length_cons, List.length_nil]
    omega

/-- Output `i` of `gc` carries the label of `v`, and the translation table reads it as `v`. -/
structure ActiveOutput (cir : Circuit) (gc : HalfGtGarbledCircuit) (mTranslationTable : List Bool)
    (labels : List Block) (i : Nat) (v : Bool) : Prop where
  label : labels.getD (cir.mOutputs.getD i 0) zeroBlock =
    gc.mOutputWires.getD i zeroBlock ^^^ select v gc.mGlobalOffset
  value : (permuteBit (labels.getD (cir.mOutputs.getD i 0) zeroBlock) ^^
    mTranslationTable.getD i false) = v

variable [DecidableEq Digest] {Commit : List Block → Digest} {b : Bucket Digest} {cirIdx : Nat}
  {theirCommonOutLabels wireBuff : List Block} {mTransCheckRemaining : BitVec 64}

/-- A call that returns has found the committed hashes in the buffer. -/
theorem checkTranslation_opens (wf : cir.WellFormed) (binding : Function.Injective Commit)
    {gc : HalfGtGarbledCircuit} {circuit : CommCircuitPackage Digest}
    (here : b.mTheirCircuits[cirIdx]? = some circuit)
    (committed : circuit.mOutputCommit = CircuitPackage.commitToOutputs aes Commit cir gc)
    {left : List Block × BitVec 64 × Bool}
    (passed : b.checkTranslation Commit cir cirIdx theirCommonOutLabels wireBuff
      mTransCheckRemaining = .ok left) :
    (List.range cir.mOutputs.length).map
        (translated theirCommonOutLabels (b.mTranlation.getD cirIdx [])) =
      hashOutputs aes gc.mGlobalOffset (outputTweaks cir) gc.mOutputWires := by
  unfold checkTranslation at passed
  rw [here] at passed
  obtain ⟨_, rest⟩ := then_ok_iff.mp passed
  obtain ⟨opened, _⟩ := then_ok_iff.mp rest
  rw [require_ok_iff, committed, wf.outputCount] at opened
  have flat := binding opened
  rw [List.take_left' (by rw [flatMap_pairs_length, List.length_map, List.length_range])] at flat
  exact flatMap_pairs_inj flat

theorem theirCommonOutput_eq {gc : HalfGtGarbledCircuit} {mTranlation : List (Block × Block)}
    (opens : (List.range cir.mOutputs.length).map (translated theirCommonOutLabels mTranlation) =
      hashOutputs aes gc.mGlobalOffset (outputTweaks cir) gc.mOutputWires)
    {mTranslationTable : List Bool} {labels : List Block} {i : Nat} {v : Bool}
    (below : i < cir.mOutputs.length)
    (active : ActiveOutput cir gc mTranslationTable labels i v) :
    theirCommonOutput aes cir mTranslationTable mTranlation labels
      (nextTweaks^[i] (outputTweaks cir)) i = commonLabel theirCommonOutLabels i v := by
  have sized : gc.mOutputWires.length = cir.mOutputs.length := by
    rw [← hashOutputs_length aes gc.mGlobalOffset (outputTweaks cir), ← opens, List.length_map,
      List.length_range]
  have entry := hashOutputs_getD aes gc.mGlobalOffset (outputTweaks cir) (sized ▸ below)
    (zeroBlock, zeroBlock)
  rw [← opens, map_range_getD _ _ below] at entry
  obtain ⟨zero, one⟩ := Prod.ext_iff.mp entry
  simp only [translated] at zero one
  simp only [theirCommonOutput, commonLabel]
  rw [active.value, active.label]
  cases v
  · simp only [pick, select_false, BitVec.xor_zero, Bool.false_eq_true, ↓reduceIte, ← zero]
    rw [BitVec.xor_assoc, BitVec.xor_self, BitVec.xor_zero]
    rfl
  · simp only [pick, select_true, ↓reduceIte, ← one]
    rw [BitVec.xor_assoc, BitVec.xor_self, BitVec.xor_zero]
    rfl

theorem foldl_evalOutput_tweaks (mTranslationTable : List Bool)
    (mTranlation mCommonOutput : List (Block × Block)) (labels : List Block) (n : Nat) :
    ((List.range n).foldl (evalOutput aes cir mTranslationTable mTranlation mCommonOutput labels)
      ⟨zeroBlock, outputTweaks cir, []⟩).tweaks = nextTweaks^[n] (outputTweaks cir) := by
  induction n with
  | zero => rfl
  | succ n ih =>
    rw [List.range_succ, List.foldl_append, Function.iterate_succ_apply', ← ih]
    rfl

def commonSum (theirCommonOutLabels : List Block) (mCommonOutput : List (Block × Block))
    (y : List Bool) (n : Nat) : Block :=
  xorSum n fun i => commonLabel theirCommonOutLabels i (y.getD i false) ^^^
    pick (y.getD i false) (mCommonOutput.getD i (zeroBlock, zeroBlock))

theorem foldl_evalOutput_psiInput {gc : HalfGtGarbledCircuit} {mTranlation : List (Block × Block)}
    (opens : (List.range cir.mOutputs.length).map (translated theirCommonOutLabels mTranlation) =
      hashOutputs aes gc.mGlobalOffset (outputTweaks cir) gc.mOutputWires)
    (mCommonOutput : List (Block × Block)) {mTranslationTable : List Bool} {labels : List Block}
    {y : List Bool} (active : ∀ i < cir.mOutputs.length,
      ActiveOutput cir gc mTranslationTable labels i (y.getD i false)) {n : Nat}
    (below : n ≤ cir.mOutputs.length) :
    ((List.range n).foldl (evalOutput aes cir mTranslationTable mTranlation mCommonOutput labels)
      ⟨zeroBlock, outputTweaks cir, []⟩).psiInput =
      commonSum theirCommonOutLabels mCommonOutput y n := by
  induction n with
  | zero => simp [commonSum]
  | succ n ih =>
    have now := active n below
    rw [List.range_succ, List.foldl_append, List.foldl_cons, List.foldl_nil,
      evalOutput_psiInput, ih (Nat.le_of_lt below), foldl_evalOutput_tweaks,
      theirCommonOutput_eq aes opens below now, now.value, commonSum, commonSum, xorSum_succ]

/-- `circuit` is at place `j` of the bucket, commits to the output labels of `gc`, and
    `checkTranslation` returns for it. -/
structure Passes (Commit : List Block → Digest) (cir : Circuit)
    (theirCommonOutLabels : List Block) (b : Bucket Digest) (j : Nat)
    (circuit : CommCircuitPackage Digest) (gc : HalfGtGarbledCircuit) : Prop where
  here : b.mTheirCircuits[j]? = some circuit
  committed : circuit.mOutputCommit = CircuitPackage.commitToOutputs aes Commit cir gc
  passed : ∃ wireBuff mTransCheckRemaining left, b.checkTranslation Commit cir j
    theirCommonOutLabels wireBuff mTransCheckRemaining = .ok left

/-- Every circuit that passes takes its label of value `v` to the same `C[i][v]`, and equal
    outputs to equal PSI values. -/
theorem checkTranslation_sound (wf : cir.WellFormed) (binding : Function.Injective Commit)
    (theirOutLabelSeed : Block) (indexArray : List Block) (b : Bucket Digest) :
    let C := outLabels aes cir theirOutLabelSeed indexArray
    ∀ j circuit gc, Passes aes Commit cir C b j circuit gc → ∀ labels : List Block,
      (∀ i < cir.mOutputs.length, ∀ v,
        ActiveOutput cir gc circuit.mCircuit.mTranslationTable labels i v →
        theirCommonOutput aes cir circuit.mCircuit.mTranslationTable (b.mTranlation.getD j [])
          labels ((List.range i).foldl (evalOutput aes cir circuit.mCircuit.mTranslationTable
            (b.mTranlation.getD j []) b.mCommonOutput labels)
            ⟨zeroBlock, outputTweaks cir, []⟩).tweaks i = commonLabel C i v) ∧
      ∀ y : List Bool, (∀ i < cir.mOutputs.length,
        ActiveOutput cir gc circuit.mCircuit.mTranslationTable labels i (y.getD i false)) →
        ((List.range cir.mOutputs.length).foldl (evalOutput aes cir
          circuit.mCircuit.mTranslationTable (b.mTranlation.getD j []) b.mCommonOutput labels)
          ⟨zeroBlock, outputTweaks cir, []⟩).psiInput =
          commonSum C b.mCommonOutput y cir.mOutputs.length := by
  intro C j circuit gc passes labels
  obtain ⟨wireBuff, mTransCheckRemaining, left, passed⟩ := passes.passed
  have opens := checkTranslation_opens aes wf binding passes.here passes.committed passed
  constructor
  · intro i below v active
    rw [foldl_evalOutput_tweaks]
    exact theirCommonOutput_eq aes opens below active
  · intro y active
    exact foldl_evalOutput_psiInput aes opens b.mCommonOutput active (Nat.le_refl _)

def sampleAes (key block : Block) : Block := key + block

/-- One AND gate, with its output and its first input as outputs, garbled by hand. -/
def sampleCircuit : Circuit := ⟨3, 1, 2, (1, 1), [⟨0, 1, 2, .and⟩], [2, 0]⟩
def sampleGarbled : HalfGtGarbledCircuit := ⟨7#128, [], [12#128, 9#128], [], [false, true]⟩

def sampleIndex : List Block := [0#128, 1#128, 2#128, 3#128]

def sampleBucket : Bucket (List Block) :=
  { mMyCircuits := []
    mTheirCircuits := [⟨sampleGarbled, [], CircuitPackage.commitToOutputs sampleAes id sampleCircuit
      sampleGarbled, [], ⟨fun _ _ => zeroBlock⟩, 0, 0⟩]
    mOutputLabelSeed := 5#128
    mCommonOutput := commonOutput sampleAes 5#128 sampleIndex 2
    mTranlation := [translationValues sampleAes sampleCircuit
      (commonOutput sampleAes 40#128 sampleIndex 2) sampleGarbled]
    mTheirPermutes := []
    mTheirInputOffsets := []
    mMyDecodedKProbeLabels := []
    mInputCorrectionString := .empty
    mTheirInputCorrection := .empty
    mOutputs := [] }

def sampleLabels : List Block := [9#128, 0#128, 11#128]

theorem checkTranslation_sound_sample :
    ((List.range 2).foldl (evalOutput sampleAes sampleCircuit [false, true]
      (sampleBucket.mTranlation.getD 0 []) sampleBucket.mCommonOutput sampleLabels)
      ⟨zeroBlock, outputTweaks sampleCircuit, []⟩).psiInput =
      commonSum (outLabels sampleAes sampleCircuit 40#128 sampleIndex) sampleBucket.mCommonOutput
        [true, false] 2 := by
  have wf : sampleCircuit.WellFormed := ⟨by decide, by decide, by decide, by decide, by decide⟩
  have passes : Passes sampleAes id sampleCircuit
      (outLabels sampleAes sampleCircuit 40#128 sampleIndex) sampleBucket 0
      ⟨sampleGarbled, [], CircuitPackage.commitToOutputs sampleAes id sampleCircuit sampleGarbled,
        [], ⟨fun _ _ => zeroBlock⟩, 0, 0⟩ sampleGarbled :=
    ⟨rfl, rfl, List.replicate 4 zeroBlock, 1#64, ok_of_toBool (by decide)⟩
  have active : ∀ i < 2, ActiveOutput sampleCircuit sampleGarbled [false, true] sampleLabels i
      ([true, false].getD i false) := by
    intro i below
    interval_cases i
    · exact ⟨by decide, by decide⟩
    · exact ⟨by decide, by decide⟩
  exact (checkTranslation_sound sampleAes wf Function.injective_id 40#128 sampleIndex sampleBucket
    0 _ _ passes sampleLabels).2 [true, false] active

end Bucket

end BatchDualEx.Opening
