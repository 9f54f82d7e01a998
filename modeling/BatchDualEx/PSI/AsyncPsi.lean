import BatchDualEx.PSI.Psi
import BatchDualEx.Crypto.PRNG

/- `AsyncPsiSender` and `AsyncPsiReceiver`: the sender commits to both messages of every OT before
   the inputs are known, in an order of its own for each of its elements, and the commitments that
   the two masked inputs select are opened. Row `i` belongs to element `i` of the receiver and
   column `j` to element `j` of the sender. -/
namespace BatchDualEx

open Bytes

variable {Digest : Type}

structure AsyncPsiSender where
  mWordSize : Nat
  mMyPermute : List BitVector
  mTheirPermute : List BitVector
  mRemainingInputCommits : Nat
  mShares : List (List (List (Block × Block)))
  mOpenBuff : List (List (List Block))

namespace AsyncPsiSender

variable (aesFixedKey : Block → Block)

def randomPermutes (mWordSize : Nat) : Nat → PRNG → List BitVector
  | 0, _ => []
  | myInputSize + 1, prng =>
    let (permute, prng) := (BitVector.empty.reset mWordSize).randomize prng
    permute :: randomPermutes mWordSize myInputSize prng

/-- `mShares[i][j]` for a permutation `mMyPermute[j]` and the OTs from `oti` on. Every blinding
    `Zi` is zero, and the last one is their sum. -/
def shares (otSend : I_OTExtSender) (permute : BitVector) (mWordSize oti j : Nat) :
    List (Block × Block) :=
  let share (b : Nat) (Zi : Block) :=
    (PRF aesFixedKey (otSend.GetMessage (oti + b) (permute.get b)) j ^^^ Zi,
      PRF aesFixedKey (otSend.GetMessage (oti + b) (!permute.get b)) j ^^^ Zi)
  let ZiXorSum := (List.range (mWordSize - 1)).foldl (fun ZiXorSum _ => ZiXorSum ^^^ zeroBlock)
    zeroBlock
  (List.range (mWordSize - 1)).map (share · zeroBlock) ++ [share (mWordSize - 1) ZiXorSum]

def commitments (Commit : Block → Digest) (shares : List (Block × Block)) : List Digest :=
  shares.flatMap fun share => [Commit share.1, Commit share.2]

/-- The new state, and the messages for the channel in their order. Without a bit the loop over
    `mWordSize - 1` bits runs out of the shares. -/
def init (Commit : Block → Digest) (inputSize wordSize : Nat) (otSend : I_OTExtSender)
    (otIdx : Nat) (prng : PRNG) : Except Fault (AsyncPsiSender × List (List Digest)) :=
  if inputSize = 0 then .error (.thrown "")
  else if wordSize = 0 then .error .undefined
  else
    let mMyPermute := randomPermutes wordSize inputSize prng
    let mShares := (List.range inputSize).map fun i => mMyPermute.mapIdx fun j permute =>
      shares aesFixedKey otSend permute wordSize (otIdx + i * wordSize) j
    .ok ({
      mWordSize := wordSize
      mMyPermute := mMyPermute
      mTheirPermute := List.replicate inputSize .empty
      mRemainingInputCommits := inputSize * 2
      mShares := mShares
      mOpenBuff := List.replicate inputSize (List.replicate inputSize []) },
      mShares.flatMap fun row => row.map (commitments Commit))

def AsyncCommitSend (s : AsyncPsiSender) (inputBlk : Block) (i : Nat) :
    Except Fault (AsyncPsiSender × List Byte) := do
  let (mMyPermute, message) ← maskInput s.mWordSize s.mMyPermute inputBlk i
  return ({ s with
      mMyPermute := mMyPermute
      mRemainingInputCommits := s.mRemainingInputCommits - 1 },
    message)

/-- `AsyncCommitRecv` up to its wait for `mCommitedFuture`. -/
def AsyncCommitRecv (s : AsyncPsiSender) (message : List Byte) (i : Nat) :
    Except Fault AsyncPsiSender := do
  let permute ← ((s.mTheirPermute.getD i .empty).reset s.mWordSize).recv message
  return { s with
    mTheirPermute := s.mTheirPermute.set i permute
    mRemainingInputCommits := s.mRemainingInputCommits - 1 }

def share (s : AsyncPsiSender) (i j b : Nat) (bit : Bool) : Block :=
  let pair := ((s.mShares.getD i []).getD j []).getD b (zeroBlock, zeroBlock)
  if bit then pair.2 else pair.1

/-- `AsyncCommitRecv` after its wait: the shares that the masked inputs select are appended to
    the buffers of row `i`. -/
def fillOpenBuff (s : AsyncPsiSender) (i : Nat) : AsyncPsiSender :=
  { s with
    mOpenBuff := s.mOpenBuff.set i ((s.mOpenBuff.getD i []).mapIdx fun j buff =>
      buff ++ (List.range s.mWordSize).map fun b =>
        s.share i j b ((s.mTheirPermute.getD i .empty).get b ^^
          (s.mMyPermute.getD j .empty).get b)) }

def «open» (s : AsyncPsiSender) (idx : Nat) : Except Fault (AsyncPsiSender × List (List Block)) :=
  if (s.mOpenBuff.getD idx []).length ≠ (s.mShares.getD 0 []).length then .error .undefined
  else .ok ({ s with mOpenBuff := s.mOpenBuff.set idx [] }, s.mOpenBuff.getD idx [])

end AsyncPsiSender

namespace AsyncPsiReceiver

structure Full (Digest : Type) extends AsyncPsiReceiver where
  mCommits : List (List (List (Digest × Digest)))
  mTheirPermute : List BitVector
  motRecv : I_OTExtReceiver
  mOTIdx : Nat

namespace Full

def pairs : List Digest → List (Digest × Digest)
  | first :: second :: rest => (first, second) :: pairs rest
  | _ => []

def recvCommits (mWordSize : Nat) (messages : List (List Digest)) (number : Nat) :
    Except Fault (List (Digest × Digest)) :=
  match messages[number]? with
  | none => .error .undefined
  | some message =>
    if message.length ≠ mWordSize * 2 then .error (.thrown "BadReceiveBufferSize")
    else .ok (pairs message)

def init (inputSize wordSize : Nat) (messages : List (List Digest)) (otRecv : I_OTExtReceiver)
    (otIdx : Nat) : Except Fault (Full Digest) := do
  let mCommits ← (List.range inputSize).mapM fun i => (List.range inputSize).mapM fun j =>
    recvCommits wordSize messages (i * inputSize + j)
  let receiver ← AsyncPsiReceiver.init inputSize wordSize otRecv otIdx
  return { receiver with
    mCommits := mCommits
    mTheirPermute := List.replicate inputSize (BitVector.empty.reset wordSize)
    motRecv := otRecv
    mOTIdx := otIdx }

def CommitSend (r : Full Digest) (inputBlk : Block) (idx : Nat) :
    Except Fault (Full Digest × List Byte) := do
  let (receiver, message) ← r.toAsyncPsiReceiver.CommitSend inputBlk idx
  return ({ r with toAsyncPsiReceiver := receiver }, message)

def CommitRecv (r : Full Digest) (message : List Byte) (idx : Nat) :
    Except Fault (Full Digest) := do
  let permute ← (r.mTheirPermute.getD idx .empty).recv message
  return { r with
    mTheirPermute := r.mTheirPermute.set idx permute
    mRemainingInputCommits := r.mRemainingInputCommits - 1 }

def commit (r : Full Digest) (idx j b : Nat) (bit : Bool) : Option Digest :=
  (((r.mCommits.getD idx []).getD j [])[b]?).map fun pair => if bit then pair.2 else pair.1

/-- One pass of the loop over the bits: the share is added to `theirPse` and checked. -/
def openBit [DecidableEq Digest] (aesFixedKey : Block → Block) (Commit : Block → Digest)
    (r : Full Digest) (idx j : Nat) (buff : List Block) (pses : Block × Block) (b : Nat) :
    Except Fault (Block × Block) :=
  let share := buff.getD b zeroBlock
  let bit := (r.mMyPermute.getD idx .empty).get b ^^ (r.mTheirPermute.getD j .empty).get b
  if some (Commit share) ≠ r.commit idx j b bit then .error (.thrown "invalid_commitment")
  else .ok (pses.1 ^^^ share, pses.2 ^^^
    PRF aesFixedKey (r.motRecv.GetMessage (r.mOTIdx + idx * r.mWordSize + b)) j)

def openColumn [DecidableEq Digest] (aesFixedKey : Block → Block) (Commit : Block → Digest)
    (r : Full Digest) (idx j : Nat) (buff : List Block) : Except Fault Bool :=
  if buff.length ≠ r.mWordSize then .error (.thrown "")
  else do
    let (theirPse, myPse) ← (List.range r.mWordSize).foldlM
      (r.openBit aesFixedKey Commit idx j buff) (zeroBlock, zeroBlock)
    return decide (myPse = theirPse)

/-- `open` once the wait for all commitments is over, with the next `theirInputSize` messages. -/
def «open» [DecidableEq Digest] (aesFixedKey : Block → Block) (Commit : Block → Digest)
    (r : Full Digest) (idx : Nat) (buffs : List (List Block)) : Except Fault Bool :=
  (List.range (r.mCommits.getD 0 []).length).foldlM (fun ret j => do
    let same ← r.openColumn aesFixedKey Commit idx j (buffs.getD j [])
    return ret || same) false

end Full

end AsyncPsiReceiver

end BatchDualEx
