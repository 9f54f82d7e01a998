import BatchDualEx.DualEx.Bucket
import BatchDualEx.DualEx.CircuitOpening

/- `Bucket::evalCircuit` on an honestly garbled circuit returns the sum of both parties' common
   output labels for the plain output, whichever circuit of the bucket and whichever party. -/
namespace BatchDualEx.Opening

open WordXor Lists Result HalfGtGarbledCircuit

variable {Digest : Type} (aes : Block → Block → Block) {cir : Circuit} {indexArray : List Block}

/-- `p` is garbled from its seeds in some wire buffer, and `c` is what the other party has
    received of it. -/
structure HonestCircuit (cir : Circuit) (indexArray : List Block) (p : CircuitPackage)
    (c : CommCircuitPackage Digest) : Prop where
  garbled : ∃ wireBuff n, cir.mWireCount ≤ wireBuff.length ∧ 2 * cir.mNonXorGateCount ≤ n ∧
    n ≤ indexArray.length ∧
    HalfGtGarbledCircuit.GarbleSend aes cir p.mCircuitSeed wireBuff indexArray
      (ecbEncBlocks aes p.mAdaptiveSecureMaskSeed indexArray n) = (p.mCircuit, c.mCircuit.mGates)
  translationTable : c.mCircuit.mTranslationTable = p.mCircuit.mTranslationTable

theorem HonestCircuit.garbled_eq (wf : cir.WellFormed)
    (reach : cir.inputWireCount ≤ indexArray.length) {p : CircuitPackage}
    {c : CommCircuitPackage Digest} (honest : HonestCircuit aes cir indexArray p c) :
    let gc := Opening.garbled aes cir p.mCircuitSeed p.mAdaptiveSecureMaskSeed indexArray
    p.mCircuit = { gc with mGates := [] } ∧ c.mCircuit.mGates = gc.mGates ∧
      c.mCircuit.mTranslationTable = gc.mTranslationTable := by
  intro gc
  obtain ⟨wireBuff, n, room, enough, fits, made⟩ := honest.garbled
  rw [GarbleSend_eq aes wf p.mCircuitSeed reach room,
    Opening.garbled_eq aes wf _ _ enough fits, Prod.mk.injEq] at made
  refine ⟨made.1.symm, made.2.symm, ?_⟩
  rw [honest.translationTable, ← made.1]

/-- The material of the garbler, once received, is that of an honest circuit. -/
theorem produce_honest (Commit : List Block → Digest) (wf : cir.WellFormed) {role : Role}
    {theirKProbe myKProbe : KProbeMatrix} {wireBuff masks : List Block} {recvOT : I_OTExtReceiver}
    {sendOT : I_OTExtSender} {firstOTIdx otIdx size : Nat} {p q : CircuitPackage}
    {m : Material Digest} {c : CommCircuitPackage Digest}
    (inputs : cir.inputWireCount ≤ indexArray.length) (room : cir.mWireCount ≤ wireBuff.length)
    (enough : 2 * cir.mNonXorGateCount ≤ masks.length) (reach : masks.length ≤ indexArray.length)
    (run : produce aes Commit cir role theirKProbe myKProbe wireBuff indexArray masks recvOT
      firstOTIdx p = .ok (q, m))
    (received : CommCircuitPackage.init cir theirKProbe myKProbe sendOT otIdx size m = .ok c) :
    HonestCircuit aes cir indexArray q c := by
  unfold produce at run
  rw [initSeeded_eq aes Commit wf theirKProbe p inputs room enough reach] at run
  obtain ⟨⟨q', commits, next⟩, started, run⟩ := bind_ok run
  obtain ⟨choices, permuteBits, copied, rfl, decoded, rfl⟩ := initOT_ok Commit started
  cases run
  obtain ⟨_, rfl⟩ := commInit_ok_iff.mp received
  refine ⟨⟨wireBuff, masks.length, room, enough, reach, ?_⟩, rfl⟩
  rw [GarbleSend_eq aes wf p.mCircuitSeed inputs room, Opening.garbled_eq aes wf _ _ enough reach]
  rfl

theorem hashOutputs_length (offset : Block) (tweaks : Block × Block) (outs : List Block) :
    (hashOutputs aes offset tweaks outs).length = outs.length := by
  induction outs generalizing tweaks with
  | nil => rfl
  | cons out outs ih => exact congrArg (· + 1) (ih _)

theorem hashOutputs_getD (offset : Block) (tweaks : Block × Block) {outs : List Block} {k : Nat}
    (below : k < outs.length) (d : Block × Block) :
    (hashOutputs aes offset tweaks outs).getD k d =
      (hashLabel aes (outs.getD k zeroBlock) (nextTweaks^[k] tweaks).1,
        hashLabel aes (outs.getD k zeroBlock ^^^ offset) (nextTweaks^[k] tweaks).2) := by
  induction outs generalizing tweaks k with
  | nil => exact absurd below (Nat.not_lt_zero k)
  | cons out outs ih =>
    cases k with
    | zero => rfl
    | succ k => exact ih _ (Nat.lt_of_succ_lt_succ below)

namespace Bucket

theorem commonOutput_length (seed : Block) (outputs : Nat) :
    (commonOutput aes seed indexArray outputs).length = outputs := by
  simp [commonOutput]

/-- A table entry takes the hashed label of a value to the common label of that value. -/
theorem translationValues_getD {mCommonOutput : List (Block × Block)}
    {gc : HalfGtGarbledCircuit} (sized : mCommonOutput.length = gc.mOutputWires.length) {k : Nat}
    (below : k < gc.mOutputWires.length) (bit : Bool) :
    pick bit ((translationValues aes cir mCommonOutput gc).getD k (zeroBlock, zeroBlock)) =
      hashLabel aes (gc.mOutputWires.getD k zeroBlock ^^^ select bit gc.mGlobalOffset)
        (pick bit (nextTweaks^[k] (outputTweaks cir))) ^^^
      pick bit (mCommonOutput.getD k (zeroBlock, zeroBlock)) := by
  have hashed := hashOutputs_length aes gc.mGlobalOffset (outputTweaks cir) gc.mOutputWires
  have hash := hashOutputs_getD aes gc.mGlobalOffset (outputTweaks cir) below (zeroBlock, zeroBlock)
  rw [List.getD_eq_getElem _ _ (by omega)] at hash
  unfold translationValues
  rw [List.getD_eq_getElem _ _ (by rw [List.length_zipWith]; omega), List.getElem_zipWith, hash,
    List.getD_eq_getElem mCommonOutput _ (by omega)]
  cases bit <;> simp [pick]

def commonPsi (common0 common1 : List (Block × Block)) (outputs : Nat) (y : List Bool) : Block :=
  xorSum outputs fun i => pick (y.getD i false) (common0.getD i (zeroBlock, zeroBlock)) ^^^
    pick (y.getD i false) (common1.getD i (zeroBlock, zeroBlock))

theorem commonPsi_comm (common0 common1 : List (Block × Block)) (outputs : Nat) (y : List Bool) :
    commonPsi common0 common1 outputs y = commonPsi common1 common0 outputs y :=
  xorSum_congr fun _ _ => BitVec.xor_comm _ _

/-- The loop over the outputs, when each output label is the zero label moved by its value. -/
theorem evalOutputs_spec {gc : HalfGtGarbledCircuit} {mTranslationTable : List Bool}
    {theirs : List (Block × Block)} (mine : List (Block × Block)) {labels : List Block}
    {y : List Bool} (sized : theirs.length = gc.mOutputWires.length)
    (active : ∀ i < gc.mOutputWires.length, labels.getD (cir.mOutputs.getD i 0) zeroBlock =
      gc.mOutputWires.getD i zeroBlock ^^^ select (y.getD i false) gc.mGlobalOffset)
    (translated : ∀ i < gc.mOutputWires.length,
      (permuteBit (labels.getD (cir.mOutputs.getD i 0) zeroBlock) ^^
        mTranslationTable.getD i false) = y.getD i false) {n : Nat}
    (below : n ≤ gc.mOutputWires.length) :
    (List.range n).foldl (evalOutput aes cir mTranslationTable
        (translationValues aes cir theirs gc) mine labels) ⟨zeroBlock, outputTweaks cir, []⟩ =
      ⟨commonPsi theirs mine n y, nextTweaks^[n] (outputTweaks cir),
        (List.range n).map fun i => y.getD i false⟩ := by
  induction n with
  | zero =>
    unfold commonPsi
    rw [xorSum_zero, ← zeroBlock_eq]
    rfl
  | succ n ih =>
    have common := @translationValues_getD aes cir theirs gc sized n below (y.getD n false)
    have hash : pick (y.getD n false)
        (hashLabel aes (labels.getD (cir.mOutputs.getD n 0) zeroBlock)
          (nextTweaks^[n] (outputTweaks cir)).1,
        hashLabel aes (labels.getD (cir.mOutputs.getD n 0) zeroBlock)
          (nextTweaks^[n] (outputTweaks cir)).2) =
        hashLabel aes (gc.mOutputWires.getD n zeroBlock ^^^
          select (y.getD n false) gc.mGlobalOffset)
          (pick (y.getD n false) (nextTweaks^[n] (outputTweaks cir))) := by
      rw [active n below]
      cases y.getD n false <;> rfl
    rw [List.range_succ, List.foldl_append, ih (Nat.le_of_lt below), List.foldl_cons,
      List.foldl_nil, evalOutput]
    simp only [translated n below, hash, common, xor_cancel_left]
    unfold commonPsi
    rw [xorSum_succ, Function.iterate_succ_apply', List.map_append]
    rfl

end Bucket

section
variable {circuits : Role → List CircuitPackage} {comms : Role → List (CommCircuitPackage Digest)}
  {cirIdxs : Role → List Nat} {prng : Role → PRNG} {kProbe : Role → KProbeMatrix}
  {fresh bucket ready : Role → Bucket Digest} {sent : Role → BucketSent}

/-- The offline phase of one bucket: both parties run `initSend` and then `initRecv` on what the
    other has sent. -/
structure BucketPrepared (cir : Circuit) (indexArray : List Block)
    (circuits : Role → List CircuitPackage) (comms : Role → List (CommCircuitPackage Digest))
    (cirIdxs : Role → List Nat) (prng : Role → PRNG) (kProbe : Role → KProbeMatrix)
    (fresh bucket ready : Role → Bucket Digest) (sent : Role → BucketSent) : Prop where
  empty : ∀ r, (fresh r).mMyCircuits = [] ∧ (fresh r).mTheirCircuits = []
  sends : ∀ r, ((fresh r).initSend aes cir r (circuits r) (cirIdxs r) (prng r) indexArray).1 =
    (bucket r, sent r)
  receives : ∀ r, (bucket r).initRecv cir (kProbe r) (comms r) (cirIdxs r.other) (sent r.other) =
    .ok (ready r)

theorem mapM_recvTranslation {messages translations : List (List (Block × Block))}
    (arrived : messages.mapM (Bucket.recvTranslation cir) = .ok translations) :
    translations = messages := by
  have each := mapM_ok arrived
  clear arrived
  induction each with
  | nil => rfl
  | cons step _ ih =>
    obtain ⟨_, run⟩ := then_ok_iff.mp step
    rw [ih, Except.ok.inj run]

theorem BucketPrepared.tables (prepared : BucketPrepared aes cir indexArray circuits comms cirIdxs
    prng kProbe fresh bucket ready sent) (r : Role) :
    (ready r).mCommonOutput =
      Bucket.commonOutput aes (ready r).mOutputLabelSeed indexArray cir.mOutputs.length ∧
    ∀ i p, (ready r.other).mMyCircuits[i]? = some p → i < (cirIdxs r.other).length →
      (ready r).mTranlation.getD i [] =
        Bucket.translationValues aes cir (ready r.other).mCommonOutput p.mCircuit := by
  have received : ∀ r, ready r = { bucket r with
      mTranlation := (sent r.other).translations
      mTheirCircuits := (ready r).mTheirCircuits
      mOutputs := (ready r).mOutputs
      mTheirPermutes := (ready r).mTheirPermutes } := by
    intro r
    obtain ⟨_, run⟩ := then_ok_iff.mp (prepared.receives r)
    obtain ⟨_, run⟩ := then_ok_iff.mp run
    obtain ⟨translations, arrived, run⟩ := bind_ok run
    obtain ⟨permutes, _, run⟩ := bind_ok run
    rw [← Except.ok.inj run, mapM_recvTranslation arrived]
  have mine : ∀ r, (bucket r).mCommonOutput =
      Bucket.commonOutput aes (bucket r).mOutputLabelSeed indexArray cir.mOutputs.length := by
    intro r
    rw [← (Prod.mk.inj (prepared.sends r)).1]
  have theirs : (sent r.other).translations = ((bucket r.other).mMyCircuits.take
      (cirIdxs r.other).length).map fun p =>
        Bucket.translationValues aes cir (bucket r.other).mCommonOutput p.mCircuit := by
    rw [← (Prod.mk.inj (prepared.sends r.other)).2, ← (Prod.mk.inj (prepared.sends r.other)).1]
  constructor
  · rw [received r]
    exact mine r
  · intro i p listed below
    rw [received r.other] at listed ⊢
    rw [received r]
    simp only at listed ⊢
    rw [theirs, List.getD_eq_getElem?_getD, List.getElem?_map, List.getElem?_take_of_lt below,
      listed]
    rfl

/-- One call of `evalCircuit` for circuit `i` of the other party, on labels of the plain
    input `x`. -/
structure EvalCall (cir : Circuit) (r : Role) (i : Nat) (p : CircuitPackage) (x : List Bool)
    (labels masks : List Block) (messages : EvalMessages) (b : Bucket Digest) : Prop where
  seed : messages.adaptiveSecureSeed = p.mAdaptiveSecureMaskSeed
  room : labels.length = cir.mWireCount
  masks : 2 * cir.mNonXorGateCount ≤ masks.length
  received : ∃ active, b.receiveLabels cir r i labels messages = .ok active ∧
    ∀ w < cir.inputWireCount, active.getD w zeroBlock =
      p.mCircuit.mInputWires.getD w zeroBlock ^^^ select (x.getD w false) p.mCircuit.mGlobalOffset

theorem honest_outputs (wf : cir.WellFormed)
    (supported : ∀ gate ∈ cir.mGates, gate.mType.Garblable)
    (reach : cir.inputWireCount ≤ indexArray.length) {p : CircuitPackage}
    {c : CommCircuitPackage Digest} (honest : HonestCircuit aes cir indexArray p c) {n : Nat}
    (enough : 2 * cir.mNonXorGateCount ≤ n) (fits : n ≤ indexArray.length) {active : List Block}
    (length : active.length = cir.mWireCount) {x : List Bool}
    (given : ∀ w < cir.inputWireCount, active.getD w zeroBlock =
      p.mCircuit.mInputWires.getD w zeroBlock ^^^
        select (x.getD w false) p.mCircuit.mGlobalOffset) :
    let y := cir.translate (cir.evaluate x)
    let labels := c.mCircuit.evaluate aes cir active
      (ecbEncBlocks aes p.mAdaptiveSecureMaskSeed indexArray n)
    p.mCircuit.mOutputWires.length = cir.mOutputs.length ∧ ∀ i < cir.mOutputs.length,
      labels.getD (cir.mOutputs.getD i 0) zeroBlock = p.mCircuit.mOutputWires.getD i zeroBlock ^^^
        select (y.getD i false) p.mCircuit.mGlobalOffset ∧
      (permuteBit (labels.getD (cir.mOutputs.getD i 0) zeroBlock) ^^
        c.mCircuit.mTranslationTable.getD i false) = y.getD i false := by
  intro y labels
  obtain ⟨kept, gates, table⟩ := honest.garbled_eq aes wf reach
  rw [← Opening.garbled_eq aes wf _ _ enough fits] at kept gates table
  rw [kept] at given
  have sim := evaluate_labels aes wf supported p.mCircuitSeed reach
    (ecbEncBlocks aes p.mAdaptiveSecureMaskSeed indexArray n) x length given
  have same : labels = (Garble aes cir p.mCircuitSeed indexArray
      (ecbEncBlocks aes p.mAdaptiveSecureMaskSeed indexArray n)).evaluate aes cir active
        (ecbEncBlocks aes p.mAdaptiveSecureMaskSeed indexArray n) := by
    simp only [labels, evaluate, gates]
  refine ⟨by rw [kept]; exact List.length_map _, fun i below => ?_⟩
  have wire := wf.outputs _ (List.getElem_mem below)
  have value : y.getD i false = (cir.evaluate x).getD (cir.mOutputs.getD i 0) false := by
    simp only [y, Circuit.translate_eq wf, List.getD_eq_getElem?_getD, List.getElem?_map,
      List.getElem?_eq_getElem below, Option.map_some, Option.getD_some]
  have output : p.mCircuit.mOutputWires.getD i zeroBlock =
      (garbleLoop aes cir p.mCircuitSeed indexArray
        (ecbEncBlocks aes p.mAdaptiveSecureMaskSeed indexArray n)).mInputWires.getD
          (cir.mOutputs.getD i 0) zeroBlock := by
    rw [kept]
    simp only [Garble, List.getD_eq_getElem?_getD, List.getElem?_map,
      List.getElem?_eq_getElem below, Option.map_some, Option.getD_some]
  have label := sim _ wire
  rw [← List.getD_eq_getElem _ 0 below, ← same, ← output, ← value] at label
  have offset : p.mCircuit.mGlobalOffset = globalOffset aes p.mCircuitSeed := by rw [kept]; rfl
  have bit : c.mCircuit.mTranslationTable.getD i false =
      permuteBit (p.mCircuit.mOutputWires.getD i zeroBlock) := by
    rw [table, output]
    exact translationTable_getD wf _ (wf.outputCount ▸ below)
  refine ⟨by rw [label, offset], ?_⟩
  rw [label, bit, permuteBit_xor]
  rw [permuteBit_select (offset_odd aes _)]
  cases permuteBit (p.mCircuit.mOutputWires.getD i zeroBlock) <;> cases y.getD i false <;> rfl

theorem receiveLabels_length {r : Role} {i : Nat} {labels active : List Block}
    {messages : EvalMessages} {b : Bucket Digest}
    (run : b.receiveLabels cir r i labels messages = .ok active) :
    active.length = labels.length := by
  obtain ⟨theirs, _, run⟩ := bind_ok run
  obtain ⟨corrections, _, run⟩ := bind_ok run
  rw [← Except.ok.inj run, writeAt_length, writeAt_length, writeAt_length]

/-- Whichever party calls `evalCircuit` for whichever honest circuit of the bucket, on labels of
    the plain input `x`: the result is the sum of both parties' common labels for the output. -/
theorem evalCircuit_common (wf : cir.WellFormed)
    (supported : ∀ gate ∈ cir.mGates, gate.mType.Garblable)
    (reach : cir.inputWireCount ≤ indexArray.length)
    (prepared : BucketPrepared aes cir indexArray circuits comms cirIdxs prng kProbe fresh bucket
      ready sent) {r : Role} {i : Nat} {p : CircuitPackage} {c : CommCircuitPackage Digest}
    (below : i < (cirIdxs r.other).length) (mine : (ready r.other).mMyCircuits[i]? = some p)
    (theirs : (ready r).mTheirCircuits[i]? = some c)
    (honest : HonestCircuit aes cir indexArray p c) {x : List Bool} {labels masks : List Block}
    {messages : EvalMessages} {decoded : List (List Block)} {outputs : List (List Bool)}
    (fits : masks.length ≤ indexArray.length)
    (call : EvalCall cir r i p x labels masks messages
      { ready r with
        mMyDecodedKProbeLabels := decoded
        mOutputs := outputs }) :
    ∃ labels', Bucket.evalCircuit aes cir r i labels masks indexArray messages
        { ready r with
          mMyDecodedKProbeLabels := decoded
          mOutputs := outputs } =
      .ok (Bucket.commonPsi
          (Bucket.commonOutput aes (ready .first).mOutputLabelSeed indexArray cir.mOutputs.length)
          (Bucket.commonOutput aes (ready .second).mOutputLabelSeed indexArray cir.mOutputs.length)
          cir.mOutputs.length (cir.translate (cir.evaluate x)),
        { ready r with
          mMyDecodedKProbeLabels := decoded
          mOutputs := outputs.set i (cir.translate (cir.evaluate x)) }, labels') := by
  obtain ⟨active, received, given⟩ := call.received
  have length := (receiveLabels_length received).trans call.room
  obtain ⟨count, labelled⟩ :=
    honest_outputs aes wf supported reach honest call.masks fits length given
  have sized : (ready r.other).mCommonOutput.length = p.mCircuit.mOutputWires.length := by
    rw [(prepared.tables aes r.other).1, Bucket.commonOutput_length, count]
  have loop := Bucket.evalOutputs_spec aes (ready r).mCommonOutput sized
    (fun i inside => (labelled i (count ▸ inside)).1)
    (fun i inside => (labelled i (count ▸ inside)).2) (Nat.le_of_eq count.symm)
  have translation := (prepared.tables aes r).2 i p mine below
  have psi : Bucket.commonPsi (ready r.other).mCommonOutput (ready r).mCommonOutput
      cir.mOutputs.length (cir.translate (cir.evaluate x)) =
    Bucket.commonPsi
      (Bucket.commonOutput aes (ready .first).mOutputLabelSeed indexArray cir.mOutputs.length)
      (Bucket.commonOutput aes (ready .second).mOutputLabelSeed indexArray cir.mOutputs.length)
      cir.mOutputs.length (cir.translate (cir.evaluate x)) := by
    rw [(prepared.tables aes r.other).1, (prepared.tables aes r).1]
    cases r with
    | first => exact Bucket.commonPsi_comm _ _ _ _
    | second => rfl
  have values : ((List.range cir.mOutputs.length).map fun i =>
      (cir.translate (cir.evaluate x)).getD i false) = cir.translate (cir.evaluate x) := by
    have outputs : (cir.translate (cir.evaluate x)).length = cir.mOutputs.length := by
      rw [Circuit.translate_eq wf, List.length_map]
    rw [← outputs]
    exact map_range_getD_self _ _
  unfold Bucket.evalCircuit
  simp only [theirs, received, call.seed]
  simp only [bind, Except.bind, translation, loop, psi, values]
  exact ⟨_, rfl⟩

end

def oneCircuit : CircuitPackage :=
  ⟨5, 6, 7, (HalfGtGarbledCircuit.GarbleSend rotatingAes threeGates 5 [0, 1, 2, 3, 4] [0, 1, 2, 3]
    (ecbEncBlocks rotatingAes 6 [0, 1, 2, 3] 4)).1, [], ⟨.empty, fun _ => zeroBlock⟩, 0, .empty⟩

def oneReceived : CommCircuitPackage (List Block) :=
  ⟨⟨0, [], [], (HalfGtGarbledCircuit.GarbleSend rotatingAes threeGates 5 [0, 1, 2, 3, 4]
    [0, 1, 2, 3] (ecbEncBlocks rotatingAes 6 [0, 1, 2, 3] 4)).2,
    oneCircuit.mCircuit.mTranslationTable⟩,
    [], [], [], ⟨fun _ _ => zeroBlock⟩, 0, 0⟩

def freshBucket : Bucket (List Block) := ⟨[], [], 0, [], [], [], [], [], .empty, .empty, []⟩

def partyPRNG : Role → PRNG
  | .first => fun n => UInt8.ofNat n
  | .second => fun n => UInt8.ofNat (n + 100)

def sentBucket (r : Role) : Bucket (List Block) × BucketSent :=
  (freshBucket.initSend rotatingAes threeGates r [oneCircuit] [0] (partyPRNG r) [0, 1, 2, 3]).1

def readyBucket (r : Role) : Bucket (List Block) :=
  { (sentBucket r).1 with
    mTheirCircuits := [oneReceived]
    mTranlation := (sentBucket r.other).2.translations
    mOutputs := [[false, false]]
    mTheirPermutes := [] }

def oneMessages : EvalMessages :=
  ⟨6, [oneCircuit.mCircuit.mInputWires.getD 1 0],
    [oneCircuit.mCircuit.mInputWires.getD 0 0 ^^^ oneCircuit.mCircuit.mGlobalOffset]⟩

theorem evalCircuit_common_three_gates :
    let y := threeGates.translate (threeGates.evaluate [true, false])
    let b := { readyBucket .first with
      mMyDecodedKProbeLabels := [[0]]
      mOutputs := [[false, false]] }
    ∃ labels', b.evalCircuit rotatingAes threeGates .first 0 [0, 0, 0, 0, 0] [0, 0, 0, 0]
        [0, 1, 2, 3] oneMessages =
      .ok (Bucket.commonPsi
          (Bucket.commonOutput rotatingAes (readyBucket .first).mOutputLabelSeed [0, 1, 2, 3] 2)
          (Bucket.commonOutput rotatingAes (readyBucket .second).mOutputLabelSeed [0, 1, 2, 3] 2)
          2 y, { b with mOutputs := [y] }, labels') := by
  intro y b
  have prepared : BucketPrepared rotatingAes threeGates [0, 1, 2, 3] (fun _ => [oneCircuit])
      (fun _ => [oneReceived]) (fun _ => [0]) partyPRNG (fun _ => ⟨[], 0⟩) (fun _ => freshBucket)
      (fun r => (sentBucket r).1) readyBucket (fun r => (sentBucket r).2) :=
    ⟨fun _ => ⟨rfl, rfl⟩, fun _ => rfl, fun r => by cases r <;> rfl⟩
  have honest : HonestCircuit rotatingAes threeGates [0, 1, 2, 3] oneCircuit oneReceived :=
    ⟨⟨[0, 1, 2, 3, 4], 4, by decide, by decide, by decide, rfl⟩, rfl⟩
  exact evalCircuit_common rotatingAes threeGates_wellFormed (by decide) (by decide) prepared
    (by decide) rfl rfl honest (by decide)
    ⟨rfl, rfl, by decide, _, rfl, by decide +kernel⟩

end BatchDualEx.Opening
