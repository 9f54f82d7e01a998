import BatchDualEx.DualEx.Bucket
import BatchDualEx.DualEx.TranslationCheck

/- One bucket of two parties from the garbling of the circuits to the outputs. The messages of each
   step are handed to the other party unless the channel refuses them for their size. -/
namespace BatchDualEx.Opening

open Result

variable {Digest : Type}

def bothRoles {α : Type} (step : Role → Except Fault α) : Except Fault (Role → α) := do
  let first ← step .first
  let second ← step .second
  return fun
    | .first => first
    | .second => second

theorem bothRoles_ok {α : Type} {step : Role → Except Fault α} {done : Role → α}
    (each : ∀ r, step r = .ok (done r)) : bothRoles step = .ok done := by
  unfold bothRoles
  rw [each .first, each .second, ok_bind, ok_bind]
  refine congrArg Except.ok (funext fun r => ?_)
  cases r <;> rfl

theorem bothRoles_spec {α : Type} {P : Role → α → Prop} {step : Role → Except Fault α}
    (each : ∀ r, ∃ a, step r = .ok a ∧ P r a) :
    ∃ done, bothRoles step = .ok done ∧ ∀ r, P r (done r) := by
  choose done run spec using each
  exact ⟨done, bothRoles_ok run, spec⟩

def BucketSent.sizes (sent : BucketSent) : List Nat :=
  sent.translations.map (fun table => 32 * table.length) ++ sent.deltas.map List.length

/-- What the two parties bring to the bucket. `kProbe r` encodes the input of party `r`, whose
    generator stands at `circuitPrng r j` for circuit `j`, and which holds the receiver of the OTs
    for it from `otIdx r j`. One thread opens the circuits `opened r`, those of `cirIdxs r` are in
    the bucket. -/
structure Execution where
  cir : Circuit
  kProbe : Role → KProbeMatrix
  indexArray : List Block
  wireBuff : List Block
  adaptiveSecureTableMasks : List Block
  otRecv : Role → I_OTExtReceiver
  otSend : Role → I_OTExtSender
  otIdx : Role → Nat → Nat
  circuitCount : Nat
  circuitPrng : Role → Nat → PRNG
  opened : Role → List Nat
  cirIdxs : Role → List Nat
  prng : Role → PRNG
  input : Role → BitVector
  mLabels : Role → Nat → List Block

namespace Execution

section
variable (aes : Block → Block → Block) (Commit : List Block → Digest) (e : Execution)

def bucketSize : Nat := (e.cirIdxs .first).length

def seeds (r : Role) (j : Nat) : CircuitPackage :=
  (CircuitPackage.new.drawSeeds (e.circuitPrng r j)).1

def initCircuit (r : Role) (j : Nat) :
    Except Fault (CircuitPackage × CommCircuitPackage Digest) := do
  let (p, m) := (CircuitPackage.new.init aes Commit e.cir (e.circuitPrng r j) (e.kProbe r.other)
    e.wireBuff e.indexArray e.adaptiveSecureTableMasks).1
  dispatch (materialSizes e.cir r (e.kProbe r.other))
  let (p, inputCommits, _) ← p.initOT Commit e.cir r (e.kProbe r) (e.otRecv r) (e.otIdx r j)
  let c ← CommCircuitPackage.init e.cir (e.kProbe r.other) (e.kProbe r) (e.otSend r.other)
    (e.otIdx r j) (e.cir.inputs r) { m with inputCommits := inputCommits }
  return (p, c)

def initSend (circuits : Role → List (CircuitPackage × CommCircuitPackage Digest)) (r : Role) :
    Bucket Digest × BucketSent :=
  (Bucket.new.initSend aes e.cir r ((circuits r).map Prod.fst) (e.cirIdxs r) (e.prng r)
    e.indexArray).1

def initBucket (circuits : Role → List (CircuitPackage × CommCircuitPackage Digest)) :
    Except Fault (Role → Bucket Digest) :=
  bothRoles fun r => do
    let sent := (e.initSend aes circuits r.other).2
    dispatch sent.sizes
    (e.initSend aes circuits r).1.initRecv e.cir (e.kProbe r.other)
      ((circuits r.other).map Prod.snd) (e.cirIdxs r.other) sent

end

section
variable [DecidableEq Digest] (aes : Block → Block → Block) (Commit : List Block → Digest)
  (e : Execution)

def initKProbeInput (bucket : Role → Bucket Digest) : Except Fault (Role → Bucket Digest) := do
  let sent ← bothRoles fun r => (bucket r).initKProbeInputSend (e.kProbe r.other)
  bothRoles fun r => do
    dispatch ((sent r.other).2.map fun masked => 32 * masked.length)
    (sent r).1.initKProbeInputRecv (fun label => Commit [label]) e.cir r (e.kProbe r)
      (sent r.other).2

def recvCorrections (bucket : Role → Bucket Digest) : Except Fault (Role → Bucket Digest) :=
  bothRoles fun r => do
    require ((e.input r.other).size = e.cir.inputs r.other) (.thrown "input size")
    let message := (bucket r.other).inputCorrection (e.input r.other)
    dispatch [message.length]
    let correction ← (bucket r).mTheirInputCorrection.recv message
    return { bucket r with mTheirInputCorrection := correction }

def sendCircuitInput (r : Role) (bucket : Bucket Digest) (i : Nat) : Except Fault EvalMessages := do
  let messages ← bucket.sendCircuitInputs e.cir r (e.input r) i
  dispatch [16 * messages.theirLabels.length, 16 * messages.corrections.length]
  return messages

def evalCircuit (r : Role) (bucket : Bucket Digest) (messages : List EvalMessages) (i : Nat) :
    Except Fault (Block × List Bool × List Block) := do
  let some message := messages[i]? | .error .undefined
  let (psiInput, bucket, labels) ← bucket.evalCircuit aes e.cir r i (e.mLabels r i)
    e.adaptiveSecureTableMasks e.indexArray message
  return (psiInput, bucket.mOutputs.getD i [], labels)

def checkTranslation (bucket : Role → Bucket Digest) (r : Role) (i : Nat) :
    Except Fault (List Block × BitVec 64 × Bool) :=
  (bucket r).checkTranslation Commit e.cir i
    (outLabels aes e.cir (bucket r.other).mOutputLabelSeed e.indexArray)
    (List.replicate (e.cir.mOutputCount * 2) zeroBlock) (BitVec.ofNat 64 e.bucketSize)

/-- Party `r` checks circuit `j` of the other party. The sums of the OT messages are that of the
    other party and its own. -/
def openCircuit (circuits : Role → List (CircuitPackage × CommCircuitPackage Digest)) (r : Role)
    (sums : Block × Block) (j : Nat) : Except Fault (Block × Block) := do
  let some (p, c) := (circuits r.other)[j]? | .error .undefined
  let (message, proof) := p.open sums.1
  dispatch [message.choices.length]
  let blockBuff := List.replicate
    (max (e.cir.mNonXorGateCount * 2) (e.kProbe r.other).encodingSize) zeroBlock
  let sum ← c.open aes Commit e.cir (e.kProbe r.other) (e.kProbe r) r message sums.2 e.indexArray
    blockBuff
  return (proof, sum)

def openCircuits (circuits : Role → List (CircuitPackage × CommCircuitPackage Digest)) (r : Role) :
    Except Fault Unit := do
  let (theirOTMsgProof, theirOTMsgXORSum) ←
    (e.opened r.other).foldlM (e.openCircuit aes Commit circuits r) (zeroBlock, zeroBlock)
  require (theirOTMsgProof = theirOTMsgXORSum) (.thrown "invalid_commitment")

def run : Except Fault (Role → List (Block × List Bool)) := do
  let circuits ← bothRoles fun r => (List.range e.circuitCount).mapM (e.initCircuit aes Commit r)
  let _ ← bothRoles (e.openCircuits aes Commit circuits)
  let bucket ← e.initBucket aes circuits
  let bucket ← e.initKProbeInput Commit bucket
  let bucket ← e.recvCorrections bucket
  let messages ← bothRoles fun r =>
    (List.range e.bucketSize).mapM (e.sendCircuitInput r (bucket r))
  let evaluated ← bothRoles fun r =>
    (List.range e.bucketSize).mapM (e.evalCircuit aes r (bucket r) (messages r.other))
  let _ ← bothRoles fun r => ((bucket r).evaluate Commit e.cir r (e.input r)
    ((evaluated r).map fun result => result.2.2)).2
  let _ ← bothRoles fun r =>
    (List.range e.bucketSize).mapM (e.checkTranslation aes Commit bucket r)
  return fun r => (evaluated r).map fun result => (result.1, result.2.1)

end

end Execution

/-- Both parties follow the protocol with the same circuit, correct OTs and buffers that are large
    enough. The parties have equally many inputs, since the corrections that one of them sends are
    read as the labels of the other. No message is empty or longer than its `u32` can say. -/
structure Execution.Honest (e : Execution) : Prop where
  wf : e.cir.WellFormed
  supported : ∀ gate ∈ e.cir.mGates, gate.mType.Garblable
  gates : 0 < e.cir.mNonXorGateCount ∧ 32 * e.cir.mNonXorGateCount < 2 ^ 32
  outputs : 0 < e.cir.mOutputCount ∧ 32 * e.cir.mOutputCount < 2 ^ 32
  inputs : ∀ r, 0 < e.cir.inputs r
  small : ∀ r, 40 * (e.kProbe r).encodingSize < 2 ^ 32
  sameInputs : ∀ r, e.cir.inputs r.other = e.cir.inputs r
  rows : ∀ r, (e.kProbe r).n = e.cir.inputs r
  columns : ∀ r, (e.kProbe r).n ≤ (e.kProbe r).encodingSize
  inputReach : e.cir.inputWireCount ≤ e.indexArray.length
  probeReach : ∀ r, (e.kProbe r).encodingSize ≤ e.indexArray.length
  masks : 2 * e.cir.mNonXorGateCount ≤ e.adaptiveSecureTableMasks.length
  maskReach : e.adaptiveSecureTableMasks.length ≤ e.indexArray.length
  wireBuff : e.cir.mWireCount ≤ e.wireBuff.length
  ots : ∀ r, ∃ count, OTsCorrect count (e.otRecv r) (e.otSend r.other) ∧
    ∀ j < e.circuitCount, e.otIdx r j + (e.kProbe r).encodingSize ≤ count
  openBuff : ∀ r, (e.kProbe r).encodingSize ≤
    max (e.cir.mNonXorGateCount * 2) (e.kProbe r.other).encodingSize
  nonempty : 0 < e.bucketSize
  bucketed : ∀ r, (e.cirIdxs r).length = e.bucketSize
  circuits : ∀ r, ∀ j ∈ e.cirIdxs r, j < e.circuitCount
  opened : ∀ r, ∀ j ∈ e.opened r, j < e.circuitCount
  plain : ∀ r, (e.input r).mNumBits = e.cir.inputs r
  labels : ∀ r, ∀ i < e.bucketSize, (e.mLabels r i).length = e.cir.mWireCount

section
variable {e : Execution}

theorem dispatch_ok {sizes : List Nat} (fit : ∀ bytes ∈ sizes, 0 < bytes ∧ bytes < 2 ^ 32) :
    dispatch sizes = .ok () := by
  unfold dispatch
  rw [forM_ok_iff]
  intro bytes listed
  rw [require_ok_iff, u32_small (fit bytes listed).2]
  exact Nat.ne_of_gt (fit bytes listed).1

theorem Execution.Honest.encoding (honest : e.Honest) (r : Role) :
    0 < (e.kProbe r).encodingSize := by
  have inputs := honest.inputs r
  have rows := honest.rows r
  have columns := honest.columns r
  omega

theorem Execution.Honest.inputs_small (honest : e.Honest) (r : Role) :
    40 * e.cir.inputs r < 2 ^ 32 := by
  have rows := honest.rows r
  have columns := honest.columns r
  have small := honest.small r
  omega

theorem Execution.Honest.choices (honest : e.Honest) (r : Role) :
    0 < ((e.kProbe r).encodingSize + 7) / 8 ∧ ((e.kProbe r).encodingSize + 7) / 8 < 2 ^ 32 := by
  have encoding := honest.encoding r
  have small := honest.small r
  omega

theorem Execution.Honest.material (honest : e.Honest) (r : Role) :
    dispatch (materialSizes e.cir r (e.kProbe r.other)) = .ok () := by
  have gates := honest.gates
  have outputs := honest.outputs
  have inputs := honest.inputs r
  have inputsSmall := honest.inputs_small r
  have probes := honest.encoding r.other
  have probesSmall := honest.small r.other
  refine dispatch_ok fun bytes listed => ?_
  simp only [materialSizes, garbledSizes, List.cons_append, List.nil_append, List.mem_cons,
    List.not_mem_nil, or_false] at listed
  omega

end

end BatchDualEx.Opening
