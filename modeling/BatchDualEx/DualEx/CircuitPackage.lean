import BatchDualEx.Circuit.HalfGtSend
import BatchDualEx.Circuit.HalfGtValidate
import BatchDualEx.Circuit.KProbeMatrix
import BatchDualEx.Crypto.PRNG
import BatchDualEx.Network.Message
import BatchDualEx.OT.OTExtInterface

/- `CircuitPackage` and `CommCircuitPackage`: what the garbler of a circuit sends about it,
   and the check of all of that when the circuit is opened. AES is an arbitrary function of key
   and block, a commitment is an arbitrary function of the blocks that are committed to. -/
namespace BatchDualEx.Opening

open WordXor Lists Result Bytes

variable {Digest : Type}

structure CircuitPackage where
  mCircuitSeed : Block
  mAdaptiveSecureMaskSeed : Block
  mKProbeWireSeed : Block
  mCircuit : HalfGtGarbledCircuit
  mKProbeInputs : List Block
  mRecvOT : I_OTExtReceiver
  mOTStartIdx : Nat
  mOTRecvChoices : BitVector

structure CommCircuitPackage (Digest : Type) where
  mCircuit : HalfGtGarbledCircuit
  mMyKProbeInputCommit : List (Digest × Digest)
  mOutputCommit : Digest
  mTheirInputCommits : List (Digest × Digest)
  mOTSend : I_OTExtSender
  mOTStartIdx : Nat
  mOTCount : Nat

/-- The messages about a circuit before it is opened, in the order in which they are sent. -/
structure Material (Digest : Type) where
  tables : List GarbledGate
  translationTable : List Bool
  kProbeCommits : List (Digest × Digest)
  outputCommit : Digest
  inputCommits : List (Digest × Digest)

structure Opened where
  circuitSeed : Block
  kProbeWireSeed : Block
  adaptiveSecureMaskSeed : Block
  choices : List Byte
  deriving DecidableEq

def garbledSizes (cir : Circuit) : List Nat :=
  [32 * cir.mNonXorGateCount, (cir.mOutputCount + 7) / 8]

/-- The bytes of the messages of `init` and `initOT` about a circuit of the party `role`. A digest
    has twenty bytes. Messages of one digest or block are left out: nothing refuses them. -/
def materialSizes (cir : Circuit) (role : Role) (theirKProbe : KProbeMatrix) : List Nat :=
  garbledSizes cir ++ [40 * theirKProbe.encodingSize, 40 * cir.inputs role]

/-- `dispatch` throws for an empty message, where `u32` counts the bytes. -/
def dispatch (sizes : List Nat) : Except Fault Unit :=
  sizes.forM fun bytes => require (u32 bytes ≠ 0) (.thrown "rt error")

section
variable (aes : Block → Block → Block) (Commit : List Block → Digest)

def ecbEncBlocks (key : Block) (indexArray : List Block) (n : Nat) : List Block :=
  (indexArray.take n).map (aes key)

def hashOutputs (mGlobalOffset : Block) : Block × Block → List Block → List (Block × Block)
  | _, [] => []
  | tweaks, out :: outs =>
    (HalfGtGarbledCircuit.hashLabel aes out tweaks.1,
      HalfGtGarbledCircuit.hashLabel aes (out ^^^ mGlobalOffset) tweaks.2) ::
      hashOutputs mGlobalOffset (HalfGtGarbledCircuit.nextTweaks tweaks) outs

def outputTweaks (cir : Circuit) : Block × Block :=
  (mmSet1Epi64x (BitVec.ofNat 64 (2 * cir.mWireCount)),
    mmSet1Epi64x (BitVec.ofNat 64 (3 * cir.mWireCount)))

def permutedCommits (permute : Bool) (label0 label1 : Block) : Digest × Digest :=
  if permute then (Commit [label1], Commit [label0]) else (Commit [label0], Commit [label1])

namespace CircuitPackage

def new : CircuitPackage :=
  ⟨zeroBlock, zeroBlock, zeroBlock, ⟨zeroBlock, [], [], [], []⟩, [],
    ⟨.empty, fun _ => zeroBlock⟩, 0, .empty⟩

def commitToOutputs (cir : Circuit) (mCircuit : HalfGtGarbledCircuit) : Digest :=
  Commit ((hashOutputs aes mCircuit.mGlobalOffset (outputTweaks cir) mCircuit.mOutputWires).flatMap
    fun hash => [hash.1, hash.2])

def commitToInputs (cir : Circuit) (myKProbe : KProbeMatrix) (role : Role) (p : CircuitPackage) :
    Except Fault (List (Digest × Digest)) := do
  let permuteBits ← myKProbe.decodeBits p.mOTRecvChoices.bits
  return (List.range (cir.inputs role)).map fun i =>
    let label := p.mCircuit.mInputWires.getD (cir.start role + i) zeroBlock
    permutedCommits Commit (permuteBits.getD i false) label (label ^^^ p.mCircuit.mGlobalOffset)

def drawSeeds (p : CircuitPackage) (prng : PRNG) : CircuitPackage × PRNG :=
  let (mCircuitSeed, prng) := prng.getBlock
  let (mAdaptiveSecureMaskSeed, prng) := prng.getBlock
  let (mKProbeWireSeed, prng) := prng.getBlock
  ({ p with
      mCircuitSeed := mCircuitSeed
      mAdaptiveSecureMaskSeed := mAdaptiveSecureMaskSeed
      mKProbeWireSeed := mKProbeWireSeed }, prng)

/-- `init` once the seeds are drawn. The message still lacks the input commitments. -/
def initSeeded (cir : Circuit) (theirKProbe : KProbeMatrix) (wireBuff indexArray
    adaptiveSecureTableMasks : List Block) (p : CircuitPackage) :
    CircuitPackage × Material Digest :=
  let masks := ecbEncBlocks aes p.mAdaptiveSecureMaskSeed indexArray adaptiveSecureTableMasks.length
  let (mCircuit, tables) :=
    HalfGtGarbledCircuit.GarbleSend aes cir p.mCircuitSeed wireBuff indexArray masks
  let mKProbeInputs := ecbEncBlocks aes p.mKProbeWireSeed indexArray theirKProbe.encodingSize
  let kProbeCommits := mKProbeInputs.map fun label =>
    (Commit [label], Commit [label ^^^ mCircuit.mGlobalOffset])
  ({ p with
      mCircuit := mCircuit
      mKProbeInputs := mKProbeInputs },
    { tables := tables
      translationTable := mCircuit.mTranslationTable
      kProbeCommits := kProbeCommits
      outputCommit := commitToOutputs aes Commit cir mCircuit
      inputCommits := [] })

def init (cir : Circuit) (prng : PRNG) (theirKProbe : KProbeMatrix) (wireBuff indexArray
    adaptiveSecureTableMasks : List Block) (p : CircuitPackage) :
    (CircuitPackage × Material Digest) × PRNG :=
  let (p, prng) := p.drawSeeds prng
  (initSeeded aes Commit cir theirKProbe wireBuff indexArray adaptiveSecureTableMasks p, prng)

def initOT (cir : Circuit) (role : Role) (myKProbe : KProbeMatrix) (recvOT : I_OTExtReceiver)
    (firstOTIdx : Nat) (p : CircuitPackage) :
    Except Fault (CircuitPackage × List (Digest × Digest) × Nat) := do
  let mOTRecvChoices ←
    p.mOTRecvChoices.copy recvOT.mChoiceBits firstOTIdx myKProbe.encodingSize
  let p := { p with
    mRecvOT := recvOT
    mOTStartIdx := firstOTIdx
    mOTRecvChoices := mOTRecvChoices }
  let commits ← commitToInputs Commit cir myKProbe role p
  return (p, commits, firstOTIdx + myKProbe.encodingSize)

def OTRecvMsg (p : CircuitPackage) (idx : Nat) : Block := p.mRecvOT.GetMessage (p.mOTStartIdx + idx)

def «open» (p : CircuitPackage) (OTMessageXORSum : Block) : Opened × Block :=
  ({ circuitSeed := p.mCircuitSeed
     kProbeWireSeed := p.mKProbeWireSeed
     adaptiveSecureMaskSeed := p.mAdaptiveSecureMaskSeed
     choices := (BitVector.ofCopy p.mOTRecvChoices).bytes },
    (List.range p.mOTRecvChoices.size).foldl (fun sum i => sum ^^^ p.OTRecvMsg i) OTMessageXORSum)

end CircuitPackage

namespace CommCircuitPackage

def init (cir : Circuit) (mMyKProbe kProbe : KProbeMatrix) (sendOT : I_OTExtSender) (otIdx
    thierInputSize : Nat) (m : Material Digest) : Except Fault (CommCircuitPackage Digest) := do
  require (m.tables.length = cir.mNonXorGateCount) (.thrown "BadReceiveBufferSize")
  require (m.translationTable.length = cir.mOutputCount) (.thrown "BadReceiveBufferSize")
  require (m.kProbeCommits.length = mMyKProbe.encodingSize) (.thrown "BadReceiveBufferSize")
  require (m.inputCommits.length = thierInputSize) (.thrown "BadReceiveBufferSize")
  return {
    mCircuit := ⟨zeroBlock, [], [], m.tables, m.translationTable⟩
    mMyKProbeInputCommit := m.kProbeCommits
    mOutputCommit := m.outputCommit
    mTheirInputCommits := m.inputCommits
    mOTSend := sendOT
    mOTStartIdx := otIdx
    mOTCount := kProbe.encodingSize }

def OTSendMsg (c : CommCircuitPackage Digest) (idx : Nat) (bit : Bool) : Block :=
  c.mOTSend.GetMessage (c.mOTStartIdx + idx) bit

variable [DecidableEq Digest]

def checkKProbe (mGlobalOffset : Block) (commits : List (Digest × Digest))
    (blockBuff : List Block) (i : Nat) : Except Fault Unit := do
  let label := blockBuff.getD i zeroBlock
  require (commits[i]?.map Prod.fst = some (Commit [label])) (.thrown "mMyKProbeInputCommit")
  require (commits[i]?.map Prod.snd = some (Commit [label ^^^ mGlobalOffset]))
    (.thrown "mMyKProbeInputCommit")

def checkInput (mCircuit : HalfGtGarbledCircuit) (wireIdx : Nat) (permuteBits : List Bool)
    (commits : List (Digest × Digest)) (i : Nat) : Except Fault Unit := do
  let label := mCircuit.mInputWires.getD (wireIdx + i) zeroBlock
  let committed := permutedCommits Commit (permuteBits.getD i false) label
    (label ^^^ mCircuit.mGlobalOffset)
  require (commits[i]?.map Prod.fst = some committed.1) (.thrown "mInputCommits")
  require (commits[i]?.map Prod.snd = some committed.2) (.thrown "mInputCommits")

/-- `role` is that of the party which checks, the wires are those of the other one. -/
def «open» (cir : Circuit) (theirKProbe myKProbe : KProbeMatrix) (role : Role) (message : Opened)
    (OTMsgXORSum : Block) (indexArray blockBuff : List Block) (c : CommCircuitPackage Digest) :
    Except Fault Block := do
  let blockBuff := ecbEncBlocks aes message.adaptiveSecureMaskSeed indexArray blockBuff.length
  let (_, mCircuit) ← c.mCircuit.Validate aes cir message.circuitSeed indexArray blockBuff
  let kProbeInputs := ecbEncBlocks aes message.kProbeWireSeed indexArray myKProbe.encodingSize
  let blockBuff := kProbeInputs ++ blockBuff.drop kProbeInputs.length
  (List.range myKProbe.encodingSize).forM
    (checkKProbe Commit mCircuit.mGlobalOffset c.mMyKProbeInputCommit blockBuff)
  let hash := hashOutputs aes mCircuit.mGlobalOffset (outputTweaks cir) mCircuit.mOutputWires
  require (c.mOutputCommit = Commit (hash.flatMap fun hash => [hash.1, hash.2]))
    (.thrown "invalid_commitment")
  let theirOTChoiceBits ←
    (BitVector.empty.reset theirKProbe.encodingSize).recv message.choices
  let OTMsgXORSum := (List.range theirKProbe.encodingSize).foldl
    (fun sum i => sum ^^^ c.OTSendMsg i (theirOTChoiceBits.get i)) OTMsgXORSum
  let permuteBits ← theirKProbe.decodeBits theirOTChoiceBits.bits
  (List.range permuteBits.length).forM
    (checkInput Commit mCircuit (cir.start role.other) permuteBits c.mTheirInputCommits)
  return OTMsgXORSum

end CommCircuitPackage

end

end BatchDualEx.Opening
