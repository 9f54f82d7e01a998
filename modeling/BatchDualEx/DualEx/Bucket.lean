import BatchDualEx.DualEx.CircuitPackage

/- `Bucket`: the circuits of one execution in both directions. `initSend` and `initRecv` fill it,
   `initKProbeInputSend` and `initKProbeInputRecv` exchange the k-probe labels, `evaluate` checks
   the input labels of the other party, `evalCircuit` evaluates one of its circuits. AES and
   commitments are arbitrary functions as in `CircuitPackage`. -/
namespace BatchDualEx.Opening

open WordXor Lists Result Bytes

variable {Digest : Type}

structure Bucket (Digest : Type) where
  mMyCircuits : List CircuitPackage
  mTheirCircuits : List (CommCircuitPackage Digest)
  mOutputLabelSeed : Block
  mCommonOutput : List (Block × Block)
  mTranlation : List (List (Block × Block))
  mTheirPermutes : List (List Bool)
  mTheirInputOffsets : List (List Block)
  mMyDecodedKProbeLabels : List (List Block)
  mInputCorrectionString : BitVector
  mTheirInputCorrection : BitVector
  mOutputs : List (List Bool)

/-- The messages of `initSend`: a translation table for every circuit, then the deltas. -/
structure BucketSent where
  translations : List (List (Block × Block))
  deltas : List (List Byte)

/-- The messages from which `evalCircuit` gets the labels of a circuit. -/
structure EvalMessages where
  adaptiveSecureSeed : Block
  theirLabels : List Block
  corrections : List Block

structure EvalOutputs where
  psiInput : Block
  tweaks : Block × Block
  outputs : List Bool

def recvBlocks (length : Nat) (message : List Block) : Except Fault (List Block) :=
  if message.length ≠ length then .error (.thrown "BadReceiveBufferSize") else .ok message

def setp (capacity loc : Nat) (written : List Block) : Except Fault (List Block) :=
  if capacity < loc then .error (.thrown "") else .ok (written.takeD loc zeroBlock)

def xorBits (a b : List Bool) : List Bool := List.zipWith (· ^^ ·) a b

def writeAt (labels : List Block) (start : Nat) (message : List Block) : List Block :=
  (List.range labels.length).map fun w =>
    if start ≤ w ∧ w < start + message.length then message.getD (w - start) zeroBlock
    else labels.getD w zeroBlock

/-- The bits that `KProbeMatrix::decode` writes into `input` after `reset`. -/
def writeBits (input : BitVector) (bits : List Bool) : BitVector :=
  (List.range bits.length).foldl (fun w i => w.set (0 + i) (bits.getD i false))
    (input.reset bits.length)

def initSendDeltas (choices : List BitVector) : List (List Byte) :=
  (List.range (choices.length - 1)).map fun j =>
    ((BitVector.ofCopy (choices.getD 0 .empty)).xorAssign (choices.getD (j + 1) .empty)).bytes

def pick (bit : Bool) {α : Type} (pair : α × α) : α := if bit then pair.2 else pair.1

namespace Bucket

def new : Bucket Digest := ⟨[], [], zeroBlock, [], [], [], [], [], .empty, .empty, []⟩

def mMyCircuit (b : Bucket Digest) (i : Nat) : CircuitPackage := b.mMyCircuits.getD i .new

def OTSendMsg (b : Bucket Digest) (i t : Nat) (bit : Bool) : Block :=
  (b.mTheirCircuits[i]?.map fun circuit => circuit.OTSendMsg t bit).getD zeroBlock

section
variable (aes : Block → Block → Block)

def commonOutput (mOutputLabelSeed : Block) (indexArray : List Block) (outputs : Nat) :
    List (Block × Block) :=
  let enc := ecbEncBlocks aes mOutputLabelSeed indexArray (outputs * 2)
  (List.range outputs).map fun i => (enc.getD (2 * i) zeroBlock, enc.getD (2 * i + 1) zeroBlock)

def translationValues (cir : Circuit) (mCommonOutput : List (Block × Block))
    (mCircuit : HalfGtGarbledCircuit) : List (Block × Block) :=
  List.zipWith (fun hash common => (hash.1 ^^^ common.1, hash.2 ^^^ common.2))
    (hashOutputs aes mCircuit.mGlobalOffset (outputTweaks cir) mCircuit.mOutputWires) mCommonOutput

def initSend (cir : Circuit) (role : Role) (circuits : List CircuitPackage) (cirIdxs : List Nat)
    (prng : PRNG) (indexArray : List Block) (b : Bucket Digest) :
    (Bucket Digest × BucketSent) × PRNG :=
  let (mOutputLabelSeed, prng) := prng.getBlock
  let mCommonOutput := commonOutput aes mOutputLabelSeed indexArray cir.mOutputs.length
  let mMyCircuits := b.mMyCircuits ++ cirIdxs.filterMap (circuits[·]?)
  let bucketed := mMyCircuits.take cirIdxs.length
  (({ b with
      mTheirInputCorrection := b.mTheirInputCorrection.reset (cir.inputs role.other)
      mOutputLabelSeed := mOutputLabelSeed
      mCommonOutput := mCommonOutput
      mMyCircuits := mMyCircuits },
    { translations := bucketed.map fun p => translationValues aes cir mCommonOutput p.mCircuit
      deltas := initSendDeltas (bucketed.map CircuitPackage.mOTRecvChoices) }), prng)

def recvTranslation (cir : Circuit) (message : List (Block × Block)) :
    Except Fault (List (Block × Block)) := do
  require (message.length = cir.mOutputs.length) (.thrown "BadReceiveBufferSize")
  return message

/-- The receive overwrites all of `delta`, which is reused for the next one. -/
def recvDelta (theirKProbe : KProbeMatrix) (message : List Byte) : Except Fault (List Bool) := do
  let delta ← (BitVector.empty.reset theirKProbe.encodingSize).recv message
  theirKProbe.decodeBits delta.bits

def initRecvDeltas (theirKProbe : KProbeMatrix) (deltas : List (List Byte)) (b : Bucket Digest) :
    Except Fault (Bucket Digest) := do
  let mTheirPermutes ← deltas.mapM (recvDelta theirKProbe)
  return { b with mTheirPermutes := mTheirPermutes }

def initRecv (cir : Circuit) (theirKProbe : KProbeMatrix)
    (circuits : List (CommCircuitPackage Digest)) (cirIdxs : List Nat) (sent : BucketSent)
    (b : Bucket Digest) : Except Fault (Bucket Digest) := do
  require (sent.translations.length = cirIdxs.length) (.thrown "BadReceiveBufferSize")
  require (sent.deltas.length = cirIdxs.length - 1) (.thrown "BadReceiveBufferSize")
  let mTranlation ← sent.translations.mapM (recvTranslation cir)
  initRecvDeltas theirKProbe sent.deltas { b with
    mTranlation := mTranlation
    mTheirCircuits := b.mTheirCircuits ++ cirIdxs.filterMap (circuits[·]?)
    mOutputs := List.replicate cirIdxs.length (List.replicate cir.mOutputs.length false) }

end

def maskedLabels (theirKProbe : KProbeMatrix) (b : Bucket Digest) (i : Nat) :
    List (Block × Block) :=
  (List.range theirKProbe.encodingSize).map fun t =>
    let label := (b.mMyCircuit i).mKProbeInputs.getD t zeroBlock
    (b.OTSendMsg i t false ^^^ label,
      b.OTSendMsg i t true ^^^ label ^^^ (b.mMyCircuit i).mCircuit.mGlobalOffset)

def initKProbeInputSend (theirKProbe : KProbeMatrix) (b : Bucket Digest) :
    Except Fault (Bucket Digest × List (List (Block × Block))) := do
  let circuits := List.range (1 + b.mTheirPermutes.length)
  let offsets ← circuits.mapM fun i => theirKProbe.decodeLabels (b.mMyCircuit i).mKProbeInputs
  return ({ b with mTheirInputOffsets := offsets }, circuits.map (b.maskedLabels theirKProbe))

section
variable [DecidableEq Digest] (Commit : Block → Digest)

def unmasked (b : Bucket Digest) (i : Nat) (message : List (Block × Block)) (t : Nat) : Block :=
  pick ((b.mMyCircuit i).mOTRecvChoices.get t) (message.getD t (zeroBlock, zeroBlock)) ^^^
    (b.mMyCircuit i).OTRecvMsg t

def kProbeCommit (b : Bucket Digest) (i t : Nat) : Option Digest := do
  let circuit ← b.mTheirCircuits[i]?
  let commits ← circuit.mMyKProbeInputCommit[t]?
  return pick ((b.mMyCircuit i).mOTRecvChoices.get t) commits

def unmaskLabel (b : Bucket Digest) (i : Nat) (message : List (Block × Block)) (t : Nat) :
    Except Fault Block :=
  if some (Commit (b.unmasked i message t)) ≠ b.kProbeCommit i t then
    .error (.thrown "invalid_commitment")
  else .ok (b.unmasked i message t)

def decodeCircuit (cir : Circuit) (role : Role) (myKProbe : KProbeMatrix) (b : Bucket Digest)
    (messages : List (List (Block × Block))) (i : Nat) : Except Fault (List Block) := do
  let message := messages.getD i []
  require (message.length = myKProbe.encodingSize) (.thrown "BadReceiveBufferSize")
  let labels ← (List.range myKProbe.encodingSize).mapM (b.unmaskLabel Commit i message)
  let decoded ← myKProbe.decodeLabels labels
  require (decoded.length ≤ cir.inputs role) .undefined
  let _myPermutes ← myKProbe.decodeBits (b.mMyCircuit i).mOTRecvChoices.bits
  return decoded.takeD (cir.inputs role) zeroBlock

def initKProbeInputRecv (cir : Circuit) (role : Role) (myKProbe : KProbeMatrix)
    (messages : List (List (Block × Block))) (b : Bucket Digest) :
    Except Fault (Bucket Digest) := do
  let correction ← myKProbe.decodeBits (b.mMyCircuit 0).mOTRecvChoices.bits
  let decoded ← (List.range b.mTheirCircuits.length).mapM
    (b.decodeCircuit Commit cir role myKProbe messages)
  return { b with
    mInputCorrectionString := writeBits (BitVector.empty.reset (cir.inputs role)) correction
    mMyDecodedKProbeLabels := decoded }

end

def inputCorrection (b : Bucket Digest) (input : BitVector) : List Byte :=
  (b.mInputCorrectionString.xorAssign input).bytes

def sendMyLabels (cir : Circuit) (role : Role) (input : BitVector) (b : Bucket Digest)
    (cirIdx : Nat) : Except Fault (List Block) :=
  setp (cir.inputs role) (cir.inputs role) ((List.range (cir.inputs role)).map fun i =>
    (b.mMyCircuit cirIdx).mCircuit.mInputWires.getD (cir.start role + i) zeroBlock ^^^
      select (input.get i) (b.mMyCircuit cirIdx).mCircuit.mGlobalOffset)

/-- The bit by which the label correction of input `t` of the other party is shifted. -/
def correctionBit (b : Bucket Digest) (cirIdx t : Nat) : Bool :=
  if cirIdx = 0 then b.mTheirInputCorrection.get t
  else b.mTheirInputCorrection.get t ^^ (b.mTheirPermutes.getD (cirIdx - 1) []).getD t false

/-- The corrections of the other party's labels. The buffer is made for their inputs and
    then sized for mine. -/
def sendTheirLabels (cir : Circuit) (role : Role) (b : Bucket Digest) (cirIdx : Nat) :
    Except Fault (List Block) :=
  setp (cir.inputs role.other) (cir.inputs role)
    ((List.range (cir.inputs role.other)).map fun t =>
      (b.mTheirInputOffsets.getD cirIdx []).getD t zeroBlock ^^^
        (b.mMyCircuit cirIdx).mCircuit.mInputWires.getD (cir.start role.other + t) zeroBlock ^^^
        select (b.correctionBit cirIdx t) (b.mMyCircuit cirIdx).mCircuit.mGlobalOffset)

def sendCircuitInputs (cir : Circuit) (role : Role) (input : BitVector) (b : Bucket Digest)
    (cirIdx : Nat) : Except Fault EvalMessages := do
  let theirLabels ← b.sendMyLabels cir role input cirIdx
  let corrections ← b.sendTheirLabels cir role cirIdx
  return ⟨(b.mMyCircuit cirIdx).mAdaptiveSecureMaskSeed, theirLabels, corrections⟩

section
variable (aes : Block → Block → Block)

def receiveLabels (cir : Circuit) (role : Role) (i : Nat) (labels : List Block)
    (messages : EvalMessages) (b : Bucket Digest) : Except Fault (List Block) := do
  let theirs ← recvBlocks (cir.inputs role.other) messages.theirLabels
  let labels := writeAt labels (cir.start role.other) theirs
  let corrections ← recvBlocks (cir.inputs role) messages.corrections
  let labels := writeAt labels (cir.start role) corrections
  let decoded := b.mMyDecodedKProbeLabels.getD i []
  return writeAt labels (cir.start role) ((List.range decoded.length).map fun j =>
    decoded.getD j zeroBlock ^^^ labels.getD (cir.start role + j) zeroBlock)

def evalOutput (cir : Circuit) (mTranslationTable : List Bool)
    (mTranlation mCommonOutput : List (Block × Block)) (labels : List Block) (s : EvalOutputs)
    (i : Nat) : EvalOutputs :=
  let label := labels.getD (cir.mOutputs.getD i 0) zeroBlock
  let hash := (HalfGtGarbledCircuit.hashLabel aes label s.tweaks.1,
    HalfGtGarbledCircuit.hashLabel aes label s.tweaks.2)
  let bit := permuteBit label ^^ mTranslationTable.getD i false
  let theirCommonOutput := pick bit hash ^^^ pick bit (mTranlation.getD i (zeroBlock, zeroBlock))
  let common := theirCommonOutput ^^^ pick bit (mCommonOutput.getD i (zeroBlock, zeroBlock))
  { psiInput := s.psiInput ^^^ common
    tweaks := HalfGtGarbledCircuit.nextTweaks s.tweaks
    outputs := s.outputs ++ [bit] }

/-- `psiInput`, with the bucket and the label buffer that the call leaves behind. -/
def evalCircuit (cir : Circuit) (role : Role) (i : Nat) (labels adaptiveSecureTableMasks
    indexArray : List Block) (messages : EvalMessages) (b : Bucket Digest) :
    Except Fault (Block × Bucket Digest × List Block) := do
  let some circuit := b.mTheirCircuits[i]? | .error .undefined
  let masks := ecbEncBlocks aes messages.adaptiveSecureSeed indexArray
    adaptiveSecureTableMasks.length
  let labels ← b.receiveLabels cir role i labels messages
  let labels := circuit.mCircuit.evaluate aes cir labels masks
  let s := (List.range cir.mOutputs.length).foldl
    (evalOutput aes cir circuit.mCircuit.mTranslationTable (b.mTranlation.getD i [])
      b.mCommonOutput labels) ⟨zeroBlock, outputTweaks cir, []⟩
  return (s.psiInput, { b with mOutputs := b.mOutputs.set i s.outputs }, labels)

end

section
variable [DecidableEq Digest] (Commit : List Block → Digest)

/-- The label of input `i` in circuit `j` has to open the commitment at index `bit`. -/
def checkLabel (cir : Circuit) (role : Role) (labels : List (List Block)) (b : Bucket Digest)
    (i j : Nat) (bit : Bool) : Except Fault Unit := do
  let some circuit := b.mTheirCircuits[j]? | .error .undefined
  let some commits := circuit.mTheirInputCommits[i]? | .error .undefined
  require (Commit [(labels.getD j []).getD (cir.start role.other + i) zeroBlock] = pick bit commits)
    (.thrown "invalid_commitment")

/-- The checks of input `i`: circuit 0 first, the others relative to it. -/
def checkInputLabels (cir : Circuit) (role : Role) (labels : List (List Block))
    (b : Bucket Digest) (i : Nat) : Except Fault Unit := do
  let phi := b.mTheirInputCorrection.get i
  b.checkLabel Commit cir role labels i 0 phi
  (List.range (b.mTheirCircuits.length - 1)).forM fun j =>
    let delta := (b.mTheirPermutes.getD j []).getD i false
    b.checkLabel Commit cir role labels i (j + 1) (delta ^^ phi)

def evaluate (cir : Circuit) (role : Role) (input : BitVector) (labels : List (List Block))
    (b : Bucket Digest) : List Byte × Except Fault Unit :=
  (b.inputCorrection input,
    (List.range (cir.inputs role.other)).forM (b.checkInputLabels Commit cir role labels))

end

end Bucket

theorem recvBlocks_ok {length : Nat} {message received : List Block}
    (run : recvBlocks length message = .ok received) :
    message.length = length ∧ received = message := by
  unfold recvBlocks at run
  split at run
  · exact nomatch run
  · rename_i sized
    cases run
    exact ⟨not_not.mp sized, rfl⟩

theorem setp_ok {capacity loc : Nat} {written message : List Block}
    (run : setp capacity loc written = .ok message) :
    loc ≤ capacity ∧ message = written.takeD loc zeroBlock := by
  unfold setp at run
  split at run
  · exact nomatch run
  · rename_i fits
    cases run
    exact ⟨Nat.not_lt.mp fits, rfl⟩

theorem xorBits_getD {a b : List Bool} (sized : a.length = b.length) (t : Nat) :
    (xorBits a b).getD t false = (a.getD t false ^^ b.getD t false) := by
  by_cases inside : t < a.length
  · have right : t < b.length := sized ▸ inside
    unfold xorBits
    rw [List.getD_eq_getElem _ _ inside, List.getD_eq_getElem _ _ right,
      List.getD_eq_getElem _ _ (by rw [List.length_zipWith]; omega), List.getElem_zipWith]
  · have length : (xorBits a b).length ≤ t := by
      unfold xorBits
      rw [List.length_zipWith]
      omega
    rw [List.getD_eq_default _ _ length, List.getD_eq_default _ _ (Nat.not_lt.mp inside),
      List.getD_eq_default _ _ (sized ▸ Nat.not_lt.mp inside)]
    rfl

theorem writeAt_inside {labels message : List Block} {start j : Nat}
    (inside : j < message.length) (room : start + j < labels.length) :
    (writeAt labels start message).getD (start + j) zeroBlock = message.getD j zeroBlock := by
  unfold writeAt
  rw [map_range_getD _ _ room, if_pos (by omega), Nat.add_sub_cancel_left]

theorem writeAt_outside {labels message : List Block} {start w : Nat}
    (outside : w < start ∨ start + message.length ≤ w) (room : w < labels.length) :
    (writeAt labels start message).getD w zeroBlock = labels.getD w zeroBlock := by
  unfold writeAt
  rw [map_range_getD _ _ room, if_neg (by omega)]

theorem writeAt_length (labels message : List Block) (start : Nat) :
    (writeAt labels start message).length = labels.length := by
  simp [writeAt]

theorem bits_getD {v : BitVector} {t : Nat} (below : t < v.mNumBits) :
    v.bits.getD t false = v.get t :=
  map_range_getD _ _ below

theorem writeBits_spec (input : BitVector) (bits : List Bool) :
    (writeBits input bits).mNumBits = bits.length ∧
      ∀ t < bits.length, (writeBits input bits).get t = bits.getD t false := by
  have room := BitVector.reset_data_length input bits.length
  obtain ⟨size, _, written⟩ := BitVector.get_setLoop (input.reset bits.length) 0
    (fun i => bits.getD i false) bits.length (by omega)
  refine ⟨size.trans (BitVector.reset_numBits _ _), fun t below => (written t).trans ?_⟩
  rw [if_pos ⟨Nat.zero_le t, by omega⟩, Nat.sub_zero]

theorem writeBits_bits (input : BitVector) (bits : List Bool) :
    (writeBits input bits).bits = bits := by
  obtain ⟨size, written⟩ := writeBits_spec input bits
  have length := (BitVector.bits_length (writeBits input bits)).trans size
  refine ext_getD false length fun t inside => ?_
  rw [bits_getD (by omega), written t (by omega)]

theorem Bucket.mMyCircuit_eq {b : Bucket Digest} {i : Nat} {p : CircuitPackage}
    (listed : b.mMyCircuits[i]? = some p) : b.mMyCircuit i = p := by
  rw [mMyCircuit, List.getD_eq_getElem?_getD, listed, Option.getD_some]

theorem Bucket.getElem?_mMyCircuit {b : Bucket Digest} {i : Nat}
    (inside : i < b.mMyCircuits.length) : b.mMyCircuits[i]? = some (b.mMyCircuit i) := by
  rw [mMyCircuit, List.getD_eq_getElem _ _ inside, List.getElem?_eq_getElem inside]

theorem Bucket.OTSendMsg_eq {b : Bucket Digest} {i : Nat} {c : CommCircuitPackage Digest}
    (listed : b.mTheirCircuits[i]? = some c) (t : Nat) (bit : Bool) :
    b.OTSendMsg i t bit = c.OTSendMsg t bit := by
  rw [OTSendMsg, listed, Option.map_some, Option.getD_some]

end BatchDualEx.Opening
