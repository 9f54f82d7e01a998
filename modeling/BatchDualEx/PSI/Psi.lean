import BatchDualEx.OT.OTExtInterface
import BatchDualEx.Lib.Xor

/- `PsiReceiver` and `PsiSender`: private set intersection by one OT for every bit of an
   element. Row `i` of a table belongs to element `i` of the receiver. AES under its fixed key
   is an arbitrary function of a block, commitments are an arbitrary function of a block. -/
namespace BatchDualEx

open Bytes

variable {Digest : Type}

def PRF (aesFixedKey : Block → Block) (b : Block) (i : Nat) : Block :=
  let tweaked := b ^^^ mmSet1Epi64x (BitVec.ofNat 64 i)
  tweaked ^^^ aesFixedKey tweaked

structure PsiReceiver (Digest : Type) where
  mWordSize : Nat
  mMyPermute : List BitVector
  mMyPSIValues : List (List Block)
  mCommits : List (List Digest)
  mRemainingInputCommits : Nat

structure PsiSender where
  mWordSize : Nat
  mOTIdx : Nat
  mTheirPermute : List BitVector
  mPseVals : List (List Block)
  mRemainingInputCommits : Nat
  mRemainingPSIVals : Nat

def inputBits (inputBlk : Block) (mWordSize : Nat) : Except Fault BitVector :=
  BitVector.ofData (byteArray inputBlk) mWordSize

def copyPermutes (inputSize wordSize : Nat) (otRecv : I_OTExtReceiver) (otStartIdx : Nat) :
    Except Fault (List BitVector) :=
  (List.range inputSize).mapM fun i =>
    BitVector.empty.copy otRecv.mChoiceBits (otStartIdx + i * wordSize) wordSize

def maskInput (mWordSize : Nat) (mMyPermute : List BitVector) (inputBlk : Block) (idx : Nat) :
    Except Fault (List BitVector × List Byte) := do
  let input ← inputBits inputBlk mWordSize
  match mMyPermute[idx]? with
  | none => .error .undefined
  | some permute =>
    return (mMyPermute.set idx (permute.xorAssign input), (permute.xorAssign input).bytes)

namespace PsiReceiver

variable (aesFixedKey : Block → Block)

def mask (otRecv : I_OTExtReceiver) (wordSize otStartIdx i : Nat) : Block :=
  (List.range wordSize).foldl
    (fun mask b => mask ^^^ otRecv.GetMessage (otStartIdx + i * wordSize + b)) zeroBlock

def init (inputSize wordSize : Nat) (otRecv : I_OTExtReceiver) (otStartIdx : Nat) :
    Except Fault (PsiReceiver Digest) := do
  let mMyPermute ← copyPermutes inputSize wordSize otRecv otStartIdx
  return {
    mWordSize := wordSize
    mMyPermute := mMyPermute
    mMyPSIValues := (List.range inputSize).map fun i =>
      (List.range inputSize).map (PRF aesFixedKey (mask otRecv wordSize otStartIdx i))
    mCommits := List.replicate inputSize []
    mRemainingInputCommits := inputSize }

def CommitSend (r : PsiReceiver Digest) (inputBlk : Block) (idx : Nat) :
    Except Fault (PsiReceiver Digest × List Byte) := do
  let (mMyPermute, message) ← maskInput r.mWordSize r.mMyPermute inputBlk idx
  return ({ r with mMyPermute := mMyPermute }, message)

def CommitRecv (r : PsiReceiver Digest) (message : List Digest) (idx : Nat) :
    Except Fault (PsiReceiver Digest) :=
  if message.length ≠ r.mCommits.length then .error (.thrown "BadReceiveBufferSize")
  else .ok
    { r with
      mCommits := r.mCommits.set idx message
      mRemainingInputCommits := r.mRemainingInputCommits - 1 }

def commit (r : PsiReceiver Digest) (j idx : Nat) : Option Digest :=
  (r.mCommits.getD j [])[idx]?

def openLoop [DecidableEq Digest] (Commit : Block → Digest) (r : PsiReceiver Digest) (idx : Nat)
    (theirPse : List Block) : List Nat → Except Fault Bool
  | [] => .ok false
  | j :: js =>
    let pse := theirPse.getD j zeroBlock
    if some (Commit pse) ≠ r.commit j idx then .error (.thrown "invalid_commitment")
    else if (r.mMyPSIValues.getD idx []).getD j zeroBlock = pse then .ok true
    else openLoop Commit r idx theirPse js

/-- `open` once the wait for all commitments is over. -/
def «open» [DecidableEq Digest] (Commit : Block → Digest) (r : PsiReceiver Digest) (idx : Nat)
    (theirPse : List Block) : Except Fault Bool :=
  if theirPse.length ≠ r.mCommits.length then .error .undefined
  else r.openLoop Commit idx theirPse (List.range r.mCommits.length)

end PsiReceiver

namespace PsiSender

variable (aesFixedKey : Block → Block)

def init (inputSize wordSize otIdx : Nat) : PsiSender :=
  { mWordSize := wordSize
    mOTIdx := otIdx
    mTheirPermute := List.replicate inputSize BitVector.empty
    mPseVals := List.replicate inputSize (List.replicate inputSize zeroBlock)
    mRemainingInputCommits := inputSize
    mRemainingPSIVals := inputSize }

def CommitRecv (s : PsiSender) (message : List Byte) (idx : Nat) : Except Fault PsiSender := do
  let permute ← ((s.mTheirPermute.getD idx .empty).reset s.mWordSize).recv message
  return { s with
    mTheirPermute := s.mTheirPermute.set idx permute
    mRemainingInputCommits := s.mRemainingInputCommits - 1 }

def mask (otSend : I_OTExtSender) (s : PsiSender) (input : BitVector) (j : Nat) : Block :=
  (List.range s.mWordSize).foldl (fun mask b => mask ^^^
    otSend.GetMessage (s.mOTIdx + j * s.mWordSize + b)
      (input.get b ^^ (s.mTheirPermute.getD j .empty).get b)) zeroBlock

def CommitSend (Commit : Block → Digest) (otSend : I_OTExtSender) (s : PsiSender)
    (inputBlk : Block) (idx : Nat) : Except Fault (PsiSender × List Digest) := do
  let input ← inputBits inputBlk s.mWordSize
  let column := (List.range s.mTheirPermute.length).map fun j =>
    PRF aesFixedKey (s.mask otSend input j) idx
  return ({ s with
      mPseVals := s.mPseVals.mapIdx fun j row => row.set idx (column.getD j zeroBlock)
      mRemainingPSIVals := s.mRemainingPSIVals - 1 },
    column.map Commit)

/-- `open` once all columns are computed: row `idx`. -/
def «open» (s : PsiSender) (idx : Nat) : List Block := s.mPseVals.getD idx []

end PsiSender

/-- What `AsyncPsiReceiver` has in common with `PsiReceiver`, with its own counter. -/
structure AsyncPsiReceiver where
  mWordSize : Nat
  mMyPermute : List BitVector
  mRemainingInputCommits : Nat

namespace AsyncPsiReceiver

def init (inputSize wordSize : Nat) (otRecv : I_OTExtReceiver) (otIdx : Nat) :
    Except Fault AsyncPsiReceiver := do
  let mMyPermute ← copyPermutes inputSize wordSize otRecv otIdx
  return {
    mWordSize := wordSize
    mMyPermute := mMyPermute
    mRemainingInputCommits := inputSize * 2 }

def CommitSend (r : AsyncPsiReceiver) (inputBlk : Block) (idx : Nat) :
    Except Fault (AsyncPsiReceiver × List Byte) := do
  let (mMyPermute, message) ← maskInput r.mWordSize r.mMyPermute inputBlk idx
  return ({ r with
      mMyPermute := mMyPermute
      mRemainingInputCommits := r.mRemainingInputCommits - 1 },
    message)

end AsyncPsiReceiver

end BatchDualEx
