import BatchDualEx.PSI.Psi
import BatchDualEx.Lib.Pending
import BatchDualEx.Lib.Run
import Mathlib.Logic.Function.Basic

/- A run of `PsiSender` against `PsiReceiver`: one call of each kind for every index, in any order
   that the futures and the channels allow. The counters are `u32`; a set for which they would
   wrap has more than `2^64` bytes of tables. -/
namespace BatchDualEx

open Function Pending

variable {Digest : Type}

structure PsiSetup (Digest : Type) where
  aesFixedKey : Block → Block
  Commit : Block → Digest
  inputSize : Nat
  wordSize : Nat
  otRecv : I_OTExtReceiver
  otSend : I_OTExtSender
  otStartIdx : Nat
  recvSet : Nat → Block
  sendSet : Nat → Block

inductive PsiStep where
  | receiverCommitSend
  | senderCommitRecv
  | senderCommitSend
  | receiverCommitRecv
  | senderOpen
  | receiverOpen
  deriving DecidableEq, Repr

inductive PsiMessage (Digest : Type) where
  | commits (column : List Digest)
  | pseVals (row : List Block)

/-- Every index has its own channel, which both parties read in order. `made` are the calls that
    have returned and `answers` the results of `open`. -/
structure PsiRun (Digest : Type) where
  receiver : PsiReceiver Digest
  sender : PsiSender
  toSender : Nat → List (List Bytes.Byte)
  toReceiver : Nat → List (PsiMessage Digest)
  made : PsiStep → Finset Nat
  answers : Nat → Option Bool

namespace PsiRun

variable (setup : PsiSetup Digest)

def init : Except Fault (PsiRun Digest) := do
  let receiver ← PsiReceiver.init setup.aesFixedKey setup.inputSize setup.wordSize setup.otRecv
    setup.otStartIdx
  return {
    receiver := receiver
    sender := PsiSender.init setup.inputSize setup.wordSize setup.otStartIdx
    toSender := fun _ => []
    toReceiver := fun _ => []
    made := fun _ => ∅
    answers := fun _ => none }

def mark (made : PsiStep → Finset Nat) (k : PsiStep) (idx : Nat) : PsiStep → Finset Nat :=
  update made k (insert idx (made k))

theorem mem_mark {made : PsiStep → Finset Nat} {k : PsiStep} {idx i : Nat} (other : i ≠ idx)
    (k' : PsiStep) : i ∈ mark made k idx k' ↔ i ∈ made k' := by
  unfold mark
  by_cases same : k' = k
  · rw [same, update_self, Finset.mem_insert, or_iff_right other]
  · rw [update_of_ne same]

/-- One call; `none` while it waits for a future or for a message. -/
def call [DecidableEq Digest] (s : PsiRun Digest) (k : PsiStep) (idx : Nat) :
    Option (Except Fault (PsiRun Digest)) :=
  match k with
  | .receiverCommitSend => some do
    let (receiver, message) ← s.receiver.CommitSend (setup.recvSet idx) idx
    return { s with
      receiver := receiver
      toSender := update s.toSender idx (s.toSender idx ++ [message]) }
  | .senderCommitRecv =>
    match s.toSender idx with
    | [] => none
    | message :: rest => some do
      let sender ← s.sender.CommitRecv message idx
      return { s with
        sender := sender
        toSender := update s.toSender idx rest }
  | .senderCommitSend =>
    if s.sender.mRemainingInputCommits ≠ 0 then none
    else some do
      let (sender, column) ← s.sender.CommitSend setup.aesFixedKey setup.Commit setup.otSend
        (setup.sendSet idx) idx
      return { s with
        sender := sender
        toReceiver := update s.toReceiver idx (s.toReceiver idx ++ [.commits column]) }
  | .receiverCommitRecv =>
    match s.toReceiver idx with
    | [] => none
    | .commits column :: rest => some do
      let receiver ← s.receiver.CommitRecv column idx
      return { s with
        receiver := receiver
        toReceiver := update s.toReceiver idx rest }
    -- a row of blocks has another length in bytes than a column of commitments
    | .pseVals _ :: _ => some (.error (.thrown "BadReceiveBufferSize"))
  | .senderOpen =>
    if s.sender.mRemainingPSIVals ≠ 0 then none
    else some <| .ok { s with
      toReceiver :=
        update s.toReceiver idx (s.toReceiver idx ++ [.pseVals (s.sender.open idx)]) }
  | .receiverOpen =>
    if s.receiver.mRemainingInputCommits ≠ 0 then none
    else match s.toReceiver idx with
    | [] => none
    | .pseVals row :: rest => some do
      let answer ← s.receiver.open setup.Commit idx row
      return { s with
        toReceiver := update s.toReceiver idx rest
        answers := update s.answers idx (some answer) }
    | .commits _ :: _ => some (.error .undefined)

def due (s : PsiRun Digest) (c : PsiStep × Nat) : Prop :=
  c.2 < setup.inputSize ∧ c.2 ∉ s.made c.1

instance (s : PsiRun Digest) (c : PsiStep × Nat) : Decidable (s.due setup c) :=
  inferInstanceAs (Decidable (_ ∧ _))

def step [DecidableEq Digest] (s : PsiRun Digest) (c : PsiStep × Nat) : Option (PsiRun Digest) :=
  if s.due setup c then
    (s.call setup c.1 c.2).bind fun result =>
      result.toOption.map fun t => { t with made := mark s.made c.1 c.2 }
  else none

/-- What a call waits for, told by the calls that have returned. -/
def Ready (n : Nat) (made : PsiStep → Finset Nat) (idx : Nat) : PsiStep → Prop
  | .receiverCommitSend => True
  | .senderCommitRecv => idx ∈ made .receiverCommitSend
  | .senderCommitSend => ∀ i < n, i ∈ made .senderCommitRecv
  | .receiverCommitRecv => idx ∈ made .senderCommitSend
  | .senderOpen => ∀ i < n, i ∈ made .senderCommitSend
  | .receiverOpen => (∀ i < n, i ∈ made .receiverCommitRecv) ∧ idx ∈ made .senderOpen

/-- As long as not all calls are made, one of them does not have to wait. -/
theorem exists_ready {n : Nat} {made : PsiStep → Finset Nat}
    (waiting : ∀ k, ∀ idx < n, idx ∉ made k → ¬Ready n made idx k) :
    ∀ k, ∀ idx < n, idx ∈ made k := by
  have finished (k : PsiStep) (ready : ∀ idx < n, Ready n made idx k) :
      ∀ idx < n, idx ∈ made k := by
    intro idx below
    by_contra fresh
    exact waiting k idx below fresh (ready idx below)
  have sent := finished .receiverCommitSend fun _ _ => trivial
  have received := finished .senderCommitRecv sent
  have committed := finished .senderCommitSend fun _ _ => received
  have commits := finished .receiverCommitRecv committed
  have opened := finished .senderOpen fun _ _ => committed
  have answered := finished .receiverOpen fun idx below => ⟨commits, opened idx below⟩
  intro k
  cases k with
  | receiverCommitSend => exact sent
  | senderCommitRecv => exact received
  | senderCommitSend => exact committed
  | receiverCommitRecv => exact commits
  | senderOpen => exact opened
  | receiverOpen => exact answered

def left (n : Nat) (made : PsiStep → Finset Nat) : Nat :=
  pending n (made .receiverCommitSend) + pending n (made .senderCommitRecv) +
    pending n (made .senderCommitSend) + pending n (made .receiverCommitRecv) +
    pending n (made .senderOpen) + pending n (made .receiverOpen)

theorem left_mark {n : Nat} {made : PsiStep → Finset Nat} {k : PsiStep} {idx : Nat}
    (below : idx < n) (fresh : idx ∉ made k) : left n (mark made k idx) < left n made := by
  have fewer := pending_insert_lt below fresh
  unfold left mark
  cases k <;> simp only [update_self, update_of_ne, ne_eq, reduceCtorEq, not_false_eq_true] <;>
    omega

variable [DecidableEq Digest] {setup}

theorem step_some {s t : PsiRun Digest} {c : PsiStep × Nat} (taken : step setup s c = some t) :
    s.due setup c ∧ ∃ u, s.call setup c.1 c.2 = some (.ok u) ∧
      t = { u with made := mark s.made c.1 c.2 } := by
  unfold step at taken
  split at taken
  · rename_i isDue
    obtain ⟨result, called, taken⟩ := Option.bind_eq_some_iff.mp taken
    cases result with
    | error fault => cases taken
    | ok u =>
      cases taken
      exact ⟨isDue, u, called, rfl⟩
  · cases taken

theorem exec_length_le_six {s : PsiRun Digest} {cs : List (PsiStep × Nat)}
    (started : PsiRun.init setup = .ok s) {t : PsiRun Digest}
    (run : Run.exec (step setup) s cs = some t) : cs.length ≤ 6 * setup.inputSize := by
  have lowers (s : PsiRun Digest) (c : PsiStep × Nat) (t : PsiRun Digest)
      (taken : step setup s c = some t) :
      left setup.inputSize t.made < left setup.inputSize s.made := by
    obtain ⟨⟨below, fresh⟩, u, _, rfl⟩ := step_some taken
    exact left_mark below fresh
  obtain ⟨receiver, _, started⟩ := Result.bind_ok started
  cases started
  have bound := Run.exec_length_le lowers run
  simp only [left, pending_empty] at bound
  omega

end PsiRun

end BatchDualEx
