import BatchDualEx.Crypto.PRNG
import BatchDualEx.Lib.Buffer
import BatchDualEx.OT.BaseOT
import BatchDualEx.OT.OTExtInterface
import BatchDualEx.OT.Tools

/- `OTExtReceiver::Extend` and `OTExtSender::Extend`, each in two parts: the loop over the blocks
   of 128 OTs up to the seed of the other party, and the correlation check. The generator of a
   seed and SHA1 are arbitrary functions. -/
namespace BatchDualEx

open Bytes Buffer

namespace BitVector

def blockView (v : BitVector) (i : Nat) : Block := blockOfBytes ((v.mData.drop (16 * i)).take 16)

def ToBlock (v : BitVector) : Except Fault Block :=
  if v.mNumBits = 128 ∨ v.mNumBits = 8 * 20 then .ok (v.blockView 0) else .error .undefined

end BitVector

/-- `std::min(u64(BASE_OT_COUNT), count - done)`, in 64 bits. -/
def stopIdx (count done : Nat) : Nat := min BASE_OT_COUNT ((count + 2 ^ 64 - done) % 2 ^ 64)

theorem stopIdx_eq {count done : Nat} (small : count < 2 ^ 59) (published : done ≤ count) :
    stopIdx count done = min 128 (count - done) := by
  unfold stopIdx BASE_OT_COUNT
  omega

def hashBlock (SHA1 : Block → BitVec 160) (b : Block) : Block := (SHA1 b).setWidth 128

structure OTExtReceiver where
  mMessages : List Block
  mChoiceBits : BitVector

structure OTExtSender where
  mMessages : List Block × List Block

def numOTExt (otCount : Nat) : Nat := (otCount + 127) / 128 * 128 + 128

namespace OTExtReceiver

def GetMessage (r : OTExtReceiver) (i : Nat) : Block := r.mMessages.getD i zeroBlock

def toInterface (r : OTExtReceiver) : I_OTExtReceiver := ⟨r.mChoiceBits, r.GetMessage⟩

/-- The variables of the loop over the blocks, and the buffers `u` it has sent. -/
structure Loop where
  gens : List (PRNG × PRNG)
  mMessages : List Block
  correlatedMessages : List Block
  dIdx : Nat
  atomicDoneIdx : Nat
  sent : List (List Block)

variable (SHA1 : Block → BitVec 160)

def messageRow (t0 : List Block) (s : Loop) (blkRowIdx : Nat) : Except Fault Loop := do
  let row ← Buffer.readAt .undefined t0 blkRowIdx
  let correlatedMessages ← Buffer.writeAt .undefined s.correlatedMessages s.dIdx row
  let mMessages ← Buffer.writeAt .undefined s.mMessages s.dIdx (hashBlock SHA1 row)
  return { s with
    correlatedMessages := correlatedMessages
    mMessages := mMessages
    dIdx := s.dIdx + 1 }

def extraRow (t0 : List Block) (s : Loop) (blkRowIdx : Nat) : Except Fault Loop := do
  let row ← Buffer.readAt .undefined t0 blkRowIdx
  let correlatedMessages ← Buffer.writeAt .undefined s.correlatedMessages s.dIdx row
  return { s with
    correlatedMessages := correlatedMessages
    dIdx := s.dIdx + 1 }

def block (mChoiceBits : BitVector) (s : Loop) (blkIdx : Nat) : Except Fault Loop := do
  let draws := s.gens.map fun (gen0, gen1) => (gen0.getBlock, gen1.getBlock)
  let t0 := draws.map fun (draw0, _) => draw0.1
  let u := draws.map fun (draw0, draw1) =>
    draw1.1 ^^^ (draw0.1 ^^^ mChoiceBits.blockView blkIdx)
  let t0 := eklundhTranspose128 t0
  let stopIdx := stopIdx s.mMessages.length s.atomicDoneIdx
  let s := { s with
    gens := draws.map fun (draw0, draw1) => (draw0.2, draw1.2)
    sent := s.sent ++ [u] }
  let s ← (List.range' 0 stopIdx).foldlM (messageRow SHA1 t0) s
  let s ← (List.range' stopIdx (BASE_OT_COUNT - stopIdx)).foldlM (extraRow t0) s
  return { s with atomicDoneIdx := min s.dIdx s.mMessages.length }

structure Extended where
  mChoiceBits : BitVector
  seed : Block
  loop : Loop

/-- Up to the seed of the sender: also the commitment, and in the loop the buffers, for the
    channel. -/
def Extend (setSeed : Block → PRNG) (r : OTExtReceiver) (baseOTs : List (Block × Block))
    (otCount : Nat) (prng : PRNG) : Except Fault (Extended × BitVec 160) := do
  let mChoiceBits ← r.mChoiceBits.resize (numOTExt otCount)
  let (mChoiceBits, prng) := mChoiceBits.randomize prng
  let (seed, _) := prng.getBlock
  let loop ← (List.range' 0 (numOTExt otCount / BASE_OT_COUNT)).foldlM
    (block SHA1 mChoiceBits)
    { gens := baseOTs.map fun base => (setSeed base.1, setSeed base.2)
      mMessages := List.replicate otCount zeroBlock
      correlatedMessages := List.replicate mChoiceBits.size zeroBlock
      dIdx := 0
      atomicDoneIdx := 0
      sent := [] }
  return ({ mChoiceBits := mChoiceBits, seed := seed, loop := loop }, SHA1 seed)

structure Check where
  x : Block
  t : Block
  t2 : Block
  deriving DecidableEq

def checkStep (mChoiceBits : BitVector) (correlatedMessages : List Block) (s : Check × PRNG)
    (i : Nat) : Check × PRNG :=
  let (chij, commonPrng) := s.2.getBlock
  let (ti, ti2) := mul128 (correlatedMessages.getD i zeroBlock) chij
  ({ x := if mChoiceBits.get i then s.1.x ^^^ chij else s.1.x
     t := s.1.t ^^^ ti
     t2 := s.1.t2 ^^^ ti2 }, commonPrng)

/-- From the seed of the sender on; its own seed and the values for the check are sent. -/
def finish (setSeed : Block → PRNG) (e : Extended) (otCount : Nat) (theirSeed : Block) :
    Except Fault (OTExtReceiver × Block × Check) := do
  let (check, _) := (List.range e.loop.correlatedMessages.length).foldl
    (checkStep e.mChoiceBits e.loop.correlatedMessages)
    (⟨zeroBlock, zeroBlock, zeroBlock⟩, setSeed (e.seed ^^^ theirSeed))
  let mChoiceBits ← e.mChoiceBits.resize otCount
  return ({
      mMessages := e.loop.mMessages.takeD otCount zeroBlock
      mChoiceBits := mChoiceBits },
    e.seed, check)

end OTExtReceiver

namespace OTExtSender

def GetMessage (s : OTExtSender) (idx : Nat) (choice : Bool) : Block :=
  (if choice then s.mMessages.2 else s.mMessages.1).getD idx zeroBlock

def toInterface (s : OTExtSender) : I_OTExtSender := ⟨s.GetMessage⟩

/-- The iterator over `correlatedMessages` is known by its index. -/
structure Loop where
  gens : List PRNG
  mMessages : List Block × List Block
  correlatedMessages : List Block
  correlatedMessagesIter : Nat
  dIdx : Nat
  atomicDoneIdx : Nat

variable (SHA1 : Block → BitVec 160)

def messageRow (delta : Block) (q : List Block) (s : Loop) (blkRowIdx : Nat) :
    Except Fault Loop := do
  let row ← Buffer.readAt .undefined q blkRowIdx
  let correlatedMessages ← Buffer.writeAt .undefined s.correlatedMessages
    s.correlatedMessagesIter row
  let msg0 ← Buffer.readAt .undefined correlatedMessages s.dIdx
  let msg1 := msg0 ^^^ delta
  let mMessages0 ← Buffer.writeAt .undefined s.mMessages.1 s.dIdx (hashBlock SHA1 msg0)
  let mMessages1 ← Buffer.writeAt .undefined s.mMessages.2 s.dIdx (hashBlock SHA1 msg1)
  return { s with
    mMessages := (mMessages0, mMessages1)
    correlatedMessages := correlatedMessages
    correlatedMessagesIter := s.correlatedMessagesIter + 1
    dIdx := s.dIdx + 1 }

def extraRow (q : List Block) (s : Loop) (blkRowIdx : Nat) : Except Fault Loop := do
  let row ← Buffer.readAt .undefined q blkRowIdx
  let correlatedMessages ← Buffer.writeAt .undefined s.correlatedMessages
    s.correlatedMessagesIter row
  return { s with
    correlatedMessages := correlatedMessages
    correlatedMessagesIter := s.correlatedMessagesIter + 1 }

/-- The next block for every generator, corrected at the set bits of `delta`. -/
def columns (baseChoiceBits : BitVector) (gens : List PRNG) (u : List Block) : List Block :=
  gens.mapIdx fun colIdx gen =>
    if baseChoiceBits.get colIdx then gen.getBlock.1 ^^^ u.getD colIdx zeroBlock
    else gen.getBlock.1

/-- `u` are the buffers that are received, in their order. -/
def block (baseChoiceBits : BitVector) (delta : Block) (otCount : Nat) (u : List (List Block))
    (s : Loop) (blkIdx : Nat) : Except Fault Loop := do
  let buff := u.getD blkIdx []
  if buff.length ≠ BASE_OT_COUNT then .error .undefined
  else
    let q := eklundhTranspose128 (columns baseChoiceBits s.gens buff)
    let stopIdx := stopIdx otCount s.atomicDoneIdx
    let s := { s with gens := s.gens.map fun gen => gen.getBlock.2 }
    let s ← (List.range' 0 stopIdx).foldlM (messageRow SHA1 delta q) s
    let s := { s with atomicDoneIdx := s.dIdx }
    (List.range' stopIdx (BASE_OT_COUNT - stopIdx)).foldlM (extraRow q) s

structure Extended where
  theirSeedComm : BitVec 160
  delta : Block
  seed : Block
  loop : Loop

def Extend (setSeed : Block → PRNG) (s : OTExtSender) (baseMessages : List Block)
    (baseChoiceBits : BitVector) (otCount : Nat) (prng : PRNG) (theirSeedComm : BitVec 160)
    (u : List (List Block)) : Except Fault Extended := do
  let delta ← baseChoiceBits.ToBlock
  let loop ← (List.range' 0 (numOTExt otCount / BASE_OT_COUNT)).foldlM
    (block SHA1 baseChoiceBits delta otCount u)
    { gens := baseMessages.map setSeed
      mMessages := (s.mMessages.1.takeD otCount zeroBlock, s.mMessages.2.takeD otCount zeroBlock)
      correlatedMessages := List.replicate (numOTExt otCount) zeroBlock
      correlatedMessagesIter := 0
      dIdx := 0
      atomicDoneIdx := 0 }
  return {
    theirSeedComm := theirSeedComm
    delta := delta
    seed := prng.getBlock.1
    loop := loop }

def checkStep (correlatedMessages : List Block) (s : (Block × Block) × PRNG) (i : Nat) :
    (Block × Block) × PRNG :=
  let (chii, commonPrng) := s.2.getBlock
  let (qi, qi2) := mul128 (correlatedMessages.getD i zeroBlock) chii
  ((s.1.1 ^^^ qi, s.1.2 ^^^ qi2), commonPrng)

def finish (setSeed : Block → PRNG) (e : Extended) (theirSeed : Block)
    (received : OTExtReceiver.Check) : Except Fault OTExtSender :=
  if SHA1 theirSeed ≠ e.theirSeedComm then .error (.thrown "bad commit ")
  else
    let ((q1, q2), _) := (List.range e.loop.correlatedMessages.length).foldl
      (checkStep e.loop.correlatedMessages)
      ((zeroBlock, zeroBlock), setSeed (e.seed ^^^ theirSeed))
    let (t1, t2) := mul128 received.x e.delta
    if t1 ^^^ q1 = received.t ∧ t2 ^^^ q2 = received.t2 then
      .ok { mMessages := e.loop.mMessages }
    else .error (.thrown "Exit")

end OTExtSender

/-- Both parties with each other. What a party sends does not depend on when it is received, so
    the parts follow one another in the order of the messages. -/
def extendRun (setSeed : Block → PRNG) (SHA1 : Block → BitVec 160) (receiver : OTExtReceiver)
    (sender : OTExtSender) (baseOTs : List (Block × Block)) (baseMessages : List Block)
    (baseChoiceBits : BitVector) (otCount : Nat) (prngReceiver prngSender : PRNG) :
    Except Fault (OTExtReceiver × OTExtSender) := do
  if otCount = 0 then return (receiver, sender)
  let (r, comm) ← receiver.Extend SHA1 setSeed baseOTs otCount prngReceiver
  let s ← sender.Extend SHA1 setSeed baseMessages baseChoiceBits otCount prngSender comm
    r.loop.sent
  let (receiver, seed, check) ← OTExtReceiver.finish setSeed r otCount s.seed
  let sender ← OTExtSender.finish SHA1 setSeed s seed check
  return (receiver, sender)

end BatchDualEx
