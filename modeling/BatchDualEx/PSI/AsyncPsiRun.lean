import BatchDualEx.PSI.AsyncPsi
import BatchDualEx.PSI.PsiRun
import BatchDualEx.Lib.Calls

/- A run of `AsyncPsiSender` against `AsyncPsiReceiver`: one call of each kind for every index, in
   any order that the futures and the channels allow. `AsyncCommitRecv` waits in its middle, for
   all commitments to have been made, and so is two steps. -/
namespace BatchDualEx

open Function Calls

variable {Digest : Type}

structure AsyncPsiSetup (Digest : Type) extends PsiSetup Digest where
  prng : PRNG

inductive AsyncPsiStep where
  | receiverCommitSend
  | receiverCommitRecv
  | senderCommitSend
  | senderCommitRecv
  | senderFill
  | senderOpen
  | receiverOpen
  deriving DecidableEq, Repr

instance : Fintype AsyncPsiStep where
  elems := {.receiverCommitSend, .receiverCommitRecv, .senderCommitSend, .senderCommitRecv,
    .senderFill, .senderOpen, .receiverOpen}
  complete k := by cases k <;> decide

inductive AsyncPsiMessage where
  | permute (bytes : List Bytes.Byte)
  | shares (buff : List Block)

def AsyncPsiMessage.buff? : AsyncPsiMessage → Option (List Block)
  | .permute _ => none
  | .shares buff => some buff

/-- Every index has its own channel, as in `PsiRun`; the messages of `init` have been received
    before the first call. -/
structure AsyncPsiRun (Digest : Type) where
  receiver : AsyncPsiReceiver.Full Digest
  sender : AsyncPsiSender
  toSender : Nat → List (List Bytes.Byte)
  toReceiver : Nat → List AsyncPsiMessage
  made : AsyncPsiStep → Finset Nat
  answers : Nat → Option Bool

namespace AsyncPsiRun

variable (setup : AsyncPsiSetup Digest)

def init : Except Fault (AsyncPsiRun Digest) := do
  let (sender, messages) ← AsyncPsiSender.init setup.aesFixedKey setup.Commit setup.inputSize
    setup.wordSize setup.otSend setup.otStartIdx setup.prng
  let receiver ← AsyncPsiReceiver.Full.init setup.inputSize setup.wordSize messages setup.otRecv
    setup.otStartIdx
  return {
    receiver := receiver
    sender := sender
    toSender := fun _ => []
    toReceiver := fun _ => []
    made := fun _ => ∅
    answers := fun _ => none }

/-- One call; `none` while it waits for a future or for messages. The thread of an index opens
    its row after its own `AsyncCommitRecv` has returned. -/
def call [DecidableEq Digest] (s : AsyncPsiRun Digest) (k : AsyncPsiStep) (idx : Nat) :
    Option (Except Fault (AsyncPsiRun Digest)) :=
  match k with
  | .receiverCommitSend => some do
    let (receiver, message) ← s.receiver.CommitSend (setup.recvSet idx) idx
    return { s with
      receiver := receiver
      toSender := update s.toSender idx (s.toSender idx ++ [message]) }
  | .receiverCommitRecv =>
    match s.toReceiver idx with
    | [] => none
    | .permute message :: rest => some do
      let receiver ← s.receiver.CommitRecv message idx
      return { s with
        receiver := receiver
        toReceiver := update s.toReceiver idx rest }
    -- the shares have another length in bytes than a permutation
    | .shares _ :: _ => some (.error (.thrown "asdsdasfaf ;) "))
  | .senderCommitSend => some do
    let (sender, message) ← s.sender.AsyncCommitSend (setup.sendSet idx) idx
    return { s with
      sender := sender
      toReceiver := update s.toReceiver idx (s.toReceiver idx ++ [.permute message]) }
  | .senderCommitRecv =>
    match s.toSender idx with
    | [] => none
    | message :: rest => some do
      let sender ← s.sender.AsyncCommitRecv message idx
      return { s with
        sender := sender
        toSender := update s.toSender idx rest }
  | .senderFill =>
    if idx ∉ s.made .senderCommitRecv ∨ s.sender.mRemainingInputCommits ≠ 0 then none
    else some (.ok { s with sender := s.sender.fillOpenBuff idx })
  | .senderOpen =>
    if idx ∉ s.made .senderFill then none
    else some do
      let (sender, buffs) ← s.sender.open idx
      return { s with
        sender := sender
        toReceiver := update s.toReceiver idx (s.toReceiver idx ++ buffs.map .shares) }
  | .receiverOpen =>
    if s.receiver.mRemainingInputCommits ≠ 0 ∨
        (s.toReceiver idx).length < (s.receiver.mCommits.getD 0 []).length then none
    else some <|
      match ((s.toReceiver idx).take (s.receiver.mCommits.getD 0 []).length).mapM
          AsyncPsiMessage.buff? with
      | none => .error (.thrown "")
      | some buffs => do
        let answer ← s.receiver.open setup.aesFixedKey setup.Commit idx buffs
        return { s with
          toReceiver := update s.toReceiver idx
            ((s.toReceiver idx).drop (s.receiver.mCommits.getD 0 []).length)
          answers := update s.answers idx (some answer) }

def system [DecidableEq Digest] : System (AsyncPsiRun Digest) AsyncPsiStep Fault where
  size := setup.inputSize
  call := call setup
  made := made
  record := fun s made => { s with made := made }

def Ready (n : Nat) (made : AsyncPsiStep → Finset Nat) (idx : Nat) : AsyncPsiStep → Prop
  | .receiverCommitSend => True
  | .receiverCommitRecv => idx ∈ made .senderCommitSend
  | .senderCommitSend => True
  | .senderCommitRecv => idx ∈ made .receiverCommitSend
  | .senderFill => idx ∈ made .senderCommitRecv ∧
    ∀ i < n, i ∈ made .senderCommitSend ∧ i ∈ made .senderCommitRecv
  | .senderOpen => idx ∈ made .senderFill
  | .receiverOpen =>
    (∀ i < n, i ∈ made .receiverCommitSend ∧ i ∈ made .receiverCommitRecv) ∧ idx ∈ made .senderOpen

/-- As long as not all calls are made, one of them does not have to wait. -/
theorem exists_ready {n : Nat} {made : AsyncPsiStep → Finset Nat}
    (waiting : ∀ k, ∀ idx < n, idx ∉ made k → ¬ Ready n made idx k) :
    ∀ k, ∀ idx < n, idx ∈ made k := by
  have finished (k : AsyncPsiStep) (ready : ∀ idx < n, Ready n made idx k) :
      ∀ idx < n, idx ∈ made k := by
    intro idx below
    by_contra fresh
    exact waiting k idx below fresh (ready idx below)
  have masked := finished .receiverCommitSend fun _ _ => trivial
  have permuted := finished .senderCommitSend fun _ _ => trivial
  have received := finished .senderCommitRecv masked
  have committed := finished .receiverCommitRecv permuted
  have filled := finished .senderFill fun idx below =>
    ⟨received idx below, fun i inside => ⟨permuted i inside, received i inside⟩⟩
  have opened := finished .senderOpen filled
  have answered := finished .receiverOpen fun idx below =>
    ⟨fun i inside => ⟨masked i inside, committed i inside⟩, opened idx below⟩
  intro k
  cases k with
  | receiverCommitSend => exact masked
  | receiverCommitRecv => exact committed
  | senderCommitSend => exact permuted
  | senderCommitRecv => exact received
  | senderFill => exact filled
  | senderOpen => exact opened
  | receiverOpen => exact answered

end AsyncPsiRun

end BatchDualEx
