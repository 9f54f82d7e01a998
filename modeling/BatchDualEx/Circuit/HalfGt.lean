import BatchDualEx.Circuit.Circuit

/- `HalfGtGarbledCircuit`: free-XOR half gates. The block cipher is an arbitrary function
   of key and block; `Garble` and `evaluate` are the two loops over the same gate list. -/
namespace BatchDualEx

open WordXor

/-- `GarbledGate<2>`: the two table entries, here always masked (`ADAPTIVE_SECURE`). -/
structure GarbledGate where
  mGarbledTable0 : Block
  mGarbledTable1 : Block
  deriving DecidableEq

structure HalfGtGarbledCircuit where
  mGlobalOffset : Block
  mInputWires : List Block
  mOutputWires : List Block
  mGates : List GarbledGate
  mTranslationTable : List Bool
  deriving DecidableEq

namespace HalfGtGarbledCircuit

variable (aes : Block → Block → Block)

def mAesFixedKey : Block := 0x249c32ea5ce63109aeaacda062ec1df3#128

def hashLabel (label tweak : Block) : Block :=
  aes mAesFixedKey (mmSlliEpi64 label 1 ^^^ tweak) ^^^ (mmSlliEpi64 label 1 ^^^ tweak)

/-- The offset is zero encrypted twice, with its bottom bit forced to one. -/
def globalOffset (seed : Block) : Block := aes seed (aes seed zeroBlock) ||| 1#128

def inputLabels (seed : Block) (indexArray : List Block) (cd : Circuit) : List Block :=
  (indexArray.take cd.inputWireCount).map (aes seed)

def firstTweaks (cd : Circuit) : Block × Block :=
  (zeroBlock, mmSetEpi64x 0 (BitVec.ofNat 64 cd.mGates.length))

def nextTweaks (tweaks : Block × Block) : Block × Block :=
  (mmAddEpi64 tweaks.1 oneBlock, mmAddEpi64 tweaks.2 oneBlock)

def nextMasks : List Block → (Block × Block) × List Block
  | m0 :: m1 :: rest => ((m0, m1), rest)
  | _ => ((zeroBlock, zeroBlock), [])

structure GarbleState where
  mInputWires : List Block
  mGates : List GarbledGate
  tweaks : Block × Block
  tableMasks : List Block

def garbleGate (mGlobalOffset : Block) (s : GarbleState) (gate : Gate) : GarbleState :=
  let a := s.mInputWires.getD gate.mInput0 zeroBlock
  let b := s.mInputWires.getD gate.mInput1 zeroBlock
  let gt := gate.mType
  if gt.isXor then
    { s with mInputWires :=
        s.mInputWires ++ [a ^^^ b ^^^ select (gt.code.getLsbD 0) mGlobalOffset] }
  else
    let aPermuteBit := permuteBit a
    let bPermuteBit := permuteBit b
    let hash0 := hashLabel aes a s.tweaks.1
    let hash1 := hashLabel aes (a ^^^ mGlobalOffset) s.tweaks.1
    let hash2 := hashLabel aes b s.tweaks.2
    let hash3 := hashLabel aes (b ^^^ mGlobalOffset) s.tweaks.2
    let garbledTable0 := hash0 ^^^ hash1 ^^^ select (gt.bAlpha ^^ bPermuteBit) mGlobalOffset
    let garbledTable1 := hash2 ^^^ hash3 ^^^ a ^^^ select gt.aAlpha mGlobalOffset
    let c := (if aPermuteBit then hash1 else hash0) ^^^ (if bPermuteBit then hash3 else hash2) ^^^
      select (((aPermuteBit ^^ gt.aAlpha) && (bPermuteBit ^^ gt.bAlpha)) ^^ gt.cAlpha) mGlobalOffset
    let masks := nextMasks s.tableMasks
    { mInputWires := s.mInputWires ++ [c]
      mGates := s.mGates ++ [⟨garbledTable0 ^^^ masks.1.1, garbledTable1 ^^^ masks.1.2⟩]
      tweaks := nextTweaks s.tweaks
      tableMasks := masks.2 }

/-- The state after the gate loop of `Garble`; `mInputWires` still holds every wire. -/
def garbleLoop (cd : Circuit) (seed : Block) (indexArray tableMasks : List Block) :
    GarbleState :=
  cd.mGates.foldl (garbleGate aes (globalOffset aes seed))
    ⟨inputLabels aes seed indexArray cd, [], firstTweaks cd, tableMasks⟩

def translationTable (cd : Circuit) (wires : List Block) : List Bool :=
  (cd.mOutputs.map fun o => permuteBit (wires.getD o zeroBlock)).takeD cd.mOutputCount false

def Garble (cd : Circuit) (seed : Block) (indexArray tableMasks : List Block) :
    HalfGtGarbledCircuit :=
  let wires := (garbleLoop aes cd seed indexArray tableMasks).mInputWires
  { mGlobalOffset := globalOffset aes seed
    mInputWires := wires.takeD cd.inputWireCount zeroBlock
    mOutputWires := cd.mOutputs.map (wires.getD · zeroBlock)
    mGates := (garbleLoop aes cd seed indexArray tableMasks).mGates
    mTranslationTable := translationTable cd wires }

structure EvaluateState where
  labels : List Block
  garbledGateIter : List GarbledGate
  tweaks : Block × Block
  tableMasks : List Block

def nextGarbledGate : List GarbledGate → GarbledGate × List GarbledGate
  | g :: rest => (g, rest)
  | [] => (⟨zeroBlock, zeroBlock⟩, [])

def evaluateGate (s : EvaluateState) (gate : Gate) : EvaluateState :=
  let a := s.labels.getD gate.mInput0 zeroBlock
  let b := s.labels.getD gate.mInput1 zeroBlock
  if gate.mType.isXor then
    { s with labels := s.labels.set gate.mOutput (a ^^^ b) }
  else
    let maskedGT := nextGarbledGate s.garbledGateIter
    let masks := nextMasks s.tableMasks
    let garbledTable0 := masks.1.1 ^^^ maskedGT.1.mGarbledTable0
    let garbledTable1 := masks.1.2 ^^^ maskedGT.1.mGarbledTable1
    let c := hashLabel aes a s.tweaks.1 ^^^ hashLabel aes b s.tweaks.2
    let c := if permuteBit a then c ^^^ garbledTable0 else c
    let c := if permuteBit b then c ^^^ garbledTable1 ^^^ a else c
    { labels := s.labels.set gate.mOutput c
      garbledGateIter := maskedGT.2
      tweaks := nextTweaks s.tweaks
      tableMasks := masks.2 }

def evaluate (gc : HalfGtGarbledCircuit) (cd : Circuit) (labels tableMasks : List Block) :
    List Block :=
  (cd.mGates.foldl (evaluateGate aes) ⟨labels, gc.mGates, firstTweaks cd, tableMasks⟩).labels

def translate (gc : HalfGtGarbledCircuit) (cd : Circuit) (labels : List Block) : List Bool :=
  ((List.range cd.mOutputCount).map fun i => gc.mTranslationTable.getD i false ^^
    permuteBit (labels.getD (cd.mOutputs.getD i 0) zeroBlock)).takeD
      gc.mTranslationTable.length false

end HalfGtGarbledCircuit

end BatchDualEx
