import BatchDualEx.PSI.PsiIntersection
import BatchDualEx.Lib.Calls

/- An honest run of `PsiSender` against `PsiReceiver`: `open` finds the words that both sets have
   in common, in whatever order the calls are made. -/
namespace BatchDualEx

open Bytes WordXor Result Function Pending

variable {Digest : Type}

namespace PsiRun

section
variable (setup : PsiSetup Digest)

def Queued (made : PsiStep → Finset Nat) (i : Nat) (queue : List (List Byte)) : Prop :=
  if i ∈ made .receiverCommitSend ∧ i ∉ made .senderCommitRecv then
    ∃ message, queue = [message] ∧ Masks setup i message
  else queue = []

/-- What the channel to the receiver holds: commitments before the opened row. -/
def replies (made : PsiStep → Finset Nat) (i : Nat) : List (PsiMessage Digest) :=
  (if i ∈ made .senderCommitSend ∧ i ∉ made .receiverCommitRecv then [.commits (setup.column i)]
    else []) ++
  if i ∈ made .senderOpen ∧ i ∉ made .receiverOpen then [.pseVals (setup.row i)] else []

structure Inv (s : PsiRun Digest) : Prop where
  receiver : ReceiverOk setup (s.made .receiverCommitSend) (s.made .receiverCommitRecv) s.receiver
  sender : SenderOk setup (s.made .senderCommitRecv) (s.made .senderCommitSend) s.sender
  received : s.made .senderCommitRecv ⊆ s.made .receiverCommitSend
  commits : s.made .receiverCommitRecv ⊆ s.made .senderCommitSend
  opened : s.made .senderOpen ⊆ s.made .senderCommitSend
  answered : s.made .receiverOpen ⊆ s.made .senderOpen
  toSender : ∀ i, Queued setup s.made i (s.toSender i)
  toReceiver : ∀ i, s.toReceiver i = replies setup s.made i
  answers : ∀ i, s.answers i = if i ∈ s.made .receiverOpen then some (setup.found i) else none

variable {setup}

theorem init_inv (word : setup.wordSize ≤ 128) : ∃ s, init setup = .ok s ∧ Inv setup s := by
  obtain ⟨r, started, ok⟩ : ∃ r : PsiReceiver Digest, _ ∧ ReceiverOk setup ∅ ∅ r :=
    receiver_init word
  unfold init
  rw [started]
  exact ⟨_, rfl, {
    receiver := ok
    sender := sender_init
    received := Finset.Subset.refl _
    commits := Finset.Subset.refl _
    opened := Finset.Subset.refl _
    answered := Finset.Subset.refl _
    toSender := fun i => by simp [Queued]
    toReceiver := fun i => by simp [replies]
    answers := fun i => by simp }⟩

variable {made : PsiStep → Finset Nat} {k : PsiStep} {i j : Nat}

theorem queued_mark (other : j ≠ i) {queue : List (List Byte)} :
    Queued setup (mark made k i) j queue ↔ Queued setup made j queue := by
  unfold Queued
  simp only [mem_mark other]

theorem replies_mark (other : j ≠ i) : replies setup (mark made k i) j = replies setup made j := by
  unfold replies
  simp only [mem_mark other]

theorem toSender_mark {toSender : Nat → List (List Byte)}
    (before : ∀ j, Queued setup made j (toSender j)) {queue : List (List Byte)}
    (after : Queued setup (mark made k i) i queue) :
    ∀ j, Queued setup (mark made k i) j (update toSender i queue j) := by
  rw [forall_update_iff toSender fun j queue => Queued setup (mark made k i) j queue]
  exact ⟨after, fun j other => (queued_mark other).mpr (before j)⟩

theorem toReceiver_mark {toReceiver : Nat → List (PsiMessage Digest)}
    (before : ∀ j, toReceiver j = replies setup made j) {queue : List (PsiMessage Digest)}
    (after : queue = replies setup (mark made k i) i) :
    ∀ j, update toReceiver i queue j = replies setup (mark made k i) j := by
  rw [forall_update_iff toReceiver fun j queue => queue = replies setup (mark made k i) j]
  exact ⟨after, fun j other => (before j).trans (replies_mark other).symm⟩

variable [DecidableEq Digest] {s : PsiRun Digest} (inv : Inv setup s) (below : i < setup.inputSize)
include inv below

theorem Inv.receiverCommitSend (word : setup.wordSize ≤ 128)
    (fresh : i ∉ s.made .receiverCommitSend) :
    ∃ t, s.call setup .receiverCommitSend i = some (.ok t) ∧
      Inv setup { t with made := mark s.made .receiverCommitSend i } := by
  obtain ⟨r, message, run, masks, ok⟩ := receiver_commitSend word inv.receiver below fresh
  have unreceived : i ∉ s.made .senderCommitRecv := mt (fun h => inv.received h) fresh
  have empty : s.toSender i = [] := by
    have queue := inv.toSender i
    unfold Queued at queue
    rwa [if_neg (fun h => fresh h.1)] at queue
  unfold call
  rw [run]
  refine ⟨_, rfl, { inv with receiver := ok, received := ?_, toSender := ?_ }⟩
  · exact inv.received.trans (Finset.subset_insert _ _)
  · apply toSender_mark inv.toSender
    unfold Queued
    rw [if_pos ⟨Finset.mem_insert_self _ _, unreceived⟩, empty]
    exact ⟨message, rfl, masks⟩

theorem Inv.senderCommitRecv (fresh : i ∉ s.made .senderCommitRecv)
    (ready : i ∈ s.made .receiverCommitSend) :
    ∃ t, s.call setup .senderCommitRecv i = some (.ok t) ∧
      Inv setup { t with made := mark s.made .senderCommitRecv i } := by
  have queue := inv.toSender i
  unfold Queued at queue
  rw [if_pos ⟨ready, fresh⟩] at queue
  obtain ⟨message, queue, masks⟩ := queue
  obtain ⟨sender, run, ok⟩ := sender_commitRecv inv.sender below fresh masks
  unfold call
  rw [queue]
  simp only [run]
  refine ⟨_, rfl, { inv with sender := ok, received := ?_, toSender := ?_ }⟩
  · exact Finset.insert_subset ready inv.received
  · apply toSender_mark inv.toSender
    unfold Queued
    rw [if_neg fun h => h.2 (Finset.mem_insert_self _ _)]

theorem Inv.senderCommitSend (word : setup.wordSize ≤ 128)
    (fresh : i ∉ s.made .senderCommitSend)
    (ready : ∀ j < setup.inputSize, j ∈ s.made .senderCommitRecv) :
    ∃ t, s.call setup .senderCommitSend i = some (.ok t) ∧
      Inv setup { t with made := mark s.made .senderCommitSend i } := by
  obtain ⟨sender, run, ok⟩ := sender_commitSend word inv.sender ready below fresh
  have uncommitted : i ∉ s.made .receiverCommitRecv := mt (fun h => inv.commits h) fresh
  have unopened : i ∉ s.made .senderOpen := mt (fun h => inv.opened h) fresh
  have noneLeft : s.sender.mRemainingInputCommits = 0 := by
    rw [inv.sender.remaining]
    exact pending_eq_zero_iff.mpr ready
  unfold call
  simp only [noneLeft, ne_eq, not_true_eq_false, if_false, run]
  refine ⟨_, rfl, { inv with
    sender := ok, commits := ?_, opened := ?_, toReceiver := ?_ }⟩
  · exact inv.commits.trans (Finset.subset_insert _ _)
  · exact inv.opened.trans (Finset.subset_insert _ _)
  · apply toReceiver_mark inv.toReceiver
    rw [inv.toReceiver i]
    simp [replies, mark, fresh, uncommitted, unopened]

theorem Inv.receiverCommitRecv (fresh : i ∉ s.made .receiverCommitRecv)
    (ready : i ∈ s.made .senderCommitSend) :
    ∃ t, s.call setup .receiverCommitRecv i = some (.ok t) ∧
      Inv setup { t with made := mark s.made .receiverCommitRecv i } := by
  obtain ⟨receiver, run, ok⟩ := receiver_commitRecv inv.receiver below fresh
  have queue := inv.toReceiver i
  unfold replies at queue
  rw [if_pos ⟨ready, fresh⟩] at queue
  unfold call
  rw [queue]
  simp only [List.singleton_append, run]
  refine ⟨_, rfl, { inv with receiver := ok, commits := ?_, toReceiver := ?_ }⟩
  · exact Finset.insert_subset ready inv.commits
  · apply toReceiver_mark inv.toReceiver
    simp [replies, mark]

theorem Inv.senderOpen (fresh : i ∉ s.made .senderOpen)
    (ready : ∀ j < setup.inputSize, j ∈ s.made .senderCommitSend) :
    ∃ t, s.call setup .senderOpen i = some (.ok t) ∧
      Inv setup { t with made := mark s.made .senderOpen i } := by
  have unanswered : i ∉ s.made .receiverOpen := mt (fun h => inv.answered h) fresh
  have noneLeft : s.sender.mRemainingPSIVals = 0 := by
    rw [inv.sender.remainingVals]
    exact pending_eq_zero_iff.mpr ready
  unfold call
  simp only [noneLeft, ne_eq, not_true_eq_false, if_false, sender_open inv.sender ready below]
  refine ⟨_, rfl, { inv with opened := ?_, answered := ?_, toReceiver := ?_ }⟩
  · exact Finset.insert_subset (ready i below) inv.opened
  · exact inv.answered.trans (Finset.subset_insert _ _)
  · apply toReceiver_mark inv.toReceiver
    rw [inv.toReceiver i]
    simp [replies, mark, fresh, unanswered]

theorem Inv.receiverOpen (fresh : i ∉ s.made .receiverOpen)
    (ready : ∀ j < setup.inputSize, j ∈ s.made .receiverCommitRecv)
    (isOpen : i ∈ s.made .senderOpen) :
    ∃ t, s.call setup .receiverOpen i = some (.ok t) ∧
      Inv setup { t with made := mark s.made .receiverOpen i } := by
  have queue := inv.toReceiver i
  unfold replies at queue
  rw [if_neg (fun h => h.2 (ready i below)), if_pos ⟨isOpen, fresh⟩] at queue
  have noneLeft : s.receiver.mRemainingInputCommits = 0 := by
    rw [inv.receiver.remaining]
    exact pending_eq_zero_iff.mpr ready
  unfold call
  simp only [noneLeft, ne_eq, not_true_eq_false, if_false, queue, List.nil_append,
    receiver_open inv.receiver ready below]
  refine ⟨_, rfl, { inv with answered := ?_, toReceiver := ?_, answers := ?_ }⟩
  · exact Finset.insert_subset isOpen inv.answered
  · apply toReceiver_mark inv.toReceiver
    simp [replies, mark, ready i below]
  · rw [forall_update_iff s.answers fun j answer => answer =
      if j ∈ mark s.made .receiverOpen i .receiverOpen then some (setup.found j) else none]
    refine ⟨by simp [mark], fun j other => ?_⟩
    simp only [mem_mark other]
    exact inv.answers j

theorem Inv.call_ready (word : setup.wordSize ≤ 128) (fresh : i ∉ s.made k)
    (ready : Ready setup.inputSize s.made i k) :
    ∃ t, s.call setup k i = some (.ok t) ∧ Inv setup { t with made := mark s.made k i } := by
  cases k with
  | receiverCommitSend => exact inv.receiverCommitSend below word fresh
  | senderCommitRecv => exact inv.senderCommitRecv below fresh ready
  | senderCommitSend => exact inv.senderCommitSend below word fresh ready
  | receiverCommitRecv => exact inv.receiverCommitRecv below fresh ready
  | senderOpen => exact inv.senderOpen below fresh ready
  | receiverOpen => exact inv.receiverOpen below fresh ready.1 ready.2

theorem Inv.call_waits (waiting : ¬Ready setup.inputSize s.made i k) : s.call setup k i = none := by
  cases k with
  | receiverCommitSend => exact absurd trivial waiting
  | senderCommitRecv =>
    have queue := inv.toSender i
    unfold Queued at queue
    rw [if_neg (fun h => waiting h.1)] at queue
    unfold call
    rw [queue]
  | senderCommitSend =>
    have counting : s.sender.mRemainingInputCommits ≠ 0 := by
      rw [inv.sender.remaining]
      exact mt pending_eq_zero_iff.mp waiting
    exact if_pos counting
  | receiverCommitRecv =>
    have queue := inv.toReceiver i
    unfold replies at queue
    rw [if_neg (fun h => waiting h.1), if_neg (fun h => waiting (inv.opened h.1))] at queue
    unfold call
    rw [queue]
    rfl
  | senderOpen =>
    have counting : s.sender.mRemainingPSIVals ≠ 0 := by
      rw [inv.sender.remainingVals]
      exact mt pending_eq_zero_iff.mp waiting
    exact if_pos counting
  | receiverOpen =>
    by_cases counting : s.receiver.mRemainingInputCommits ≠ 0
    · exact if_pos counting
    · have received : ∀ j < setup.inputSize, j ∈ s.made .receiverCommitRecv := by
        rw [← pending_eq_zero_iff, ← inv.receiver.remaining]
        exact not_not.mp counting
      have unopened : i ∉ s.made .senderOpen := fun opened => waiting ⟨received, opened⟩
      have queue := inv.toReceiver i
      unfold replies at queue
      rw [if_neg (fun h => h.2 (received i below)), if_neg (fun h => unopened h.1)] at queue
      unfold call
      simp only [counting, if_false, queue, List.append_nil]

end

section
variable [DecidableEq Digest] {setup : PsiSetup Digest}

def system (setup : PsiSetup Digest) : Calls.System (PsiRun Digest) PsiStep Fault where
  size := setup.inputSize
  call := call setup
  made := made
  record := fun s made => { s with made := made }

theorem honest (word : setup.wordSize ≤ 128) :
    (system setup).Honest (Ready setup.inputSize) (Inv setup) where
  records _ _ := rfl
  returns _ _ _ inv below fresh ready := inv.call_ready below word fresh ready
  waits _ _ _ inv below waiting := inv.call_waits below waiting
  live _ waiting := exists_ready waiting

theorem Inv.all_answered {s : PsiRun Digest} (inv : Inv setup s) (word : setup.wordSize ≤ 128)
    (stuck : ∀ c, PsiRun.step setup s c = none) {i : Nat} (below : i < setup.inputSize) :
    s.answers i ≠ none := by
  have all : i ∈ s.made .receiverOpen := (honest word).all_made inv stuck .receiverOpen i below
  rw [inv.answers i, if_pos all]
  exact Option.some_ne_none _

omit [DecidableEq Digest] in
theorem Inv.answers_eq {s : PsiRun Digest} (inv : Inv setup s) {i : Nat} {answer : Bool}
    (returned : s.answers i = some answer) : answer = setup.found i := by
  have value := inv.answers i
  rw [returned] at value
  split at value
  · exact Option.some.inj value
  · cases value

end

section
variable [DecidableEq Digest] {setup : PsiSetup Digest} (word : setup.wordSize ≤ 128)
  (correct : setup.Correct)
include word correct

/-- In every order of the calls that the futures and the channels allow: no call throws, every
    `open` returns in the end, and it returns `true` exactly when the word of its element is one
    of the words of the sender. Words without bits would be sent as an empty message, which the
    channel refuses. -/
theorem open_iff_agree (_ : 1 ≤ setup.wordSize) : ∃ start, init setup = .ok start ∧
    (∀ cs t, Run.exec (step setup) start cs = some t → cs.length ≤ 6 * setup.inputSize) ∧
    ∀ t, Run.Along (step setup) (fun _ _ => True) start t →
      (∀ c fault, t.due setup c → t.call setup c.1 c.2 ≠ some (.error fault)) ∧
      ((∀ c, step setup t c = none) → ∀ idx < setup.inputSize, t.answers idx ≠ none) ∧
      ∀ idx < setup.inputSize, ∀ answer, t.answers idx = some answer →
        ((∃ j < setup.inputSize,
          AgreeOn setup.wordSize (setup.sendSet j) (setup.recvSet idx)) → answer = true) ∧
        (setup.Independent →
          (∀ j < setup.inputSize, Injective fun b => PRF setup.aesFixedKey b j) →
            answer = true → ∃ j < setup.inputSize,
              AgreeOn setup.wordSize (setup.sendSet j) (setup.recvSet idx)) := by
  obtain ⟨start, started, invStart⟩ : ∃ s, init setup = .ok s ∧ Inv setup s := init_inv word
  refine ⟨start, started, fun cs t run => exec_length_le_six started run, fun t run => ?_⟩
  have inv := (honest word).run invStart run
  refine ⟨fun c fault isDue => (honest word).not_thrown inv isDue fault,
    fun stuck idx below => inv.all_answered word stuck below, ?_⟩
  intro idx below answer returned
  rw [inv.answers_eq returned]
  refine ⟨?_, fun independent injective isFound => ?_⟩
  · rintro ⟨j, inside, agree⟩
    exact PsiSetup.found_of_agree correct below inside agree
  · exact PsiSetup.agree_of_found correct independent injective below isFound

end

/-- Two elements of two bits each, with choice bits 0110. AES is a linear permutation here. -/
def twoWords : PsiSetup Block where
  aesFixedKey b := mmSetEpi64x b.lo (b.hi ^^^ b.lo)
  Commit := id
  inputSize := 2
  wordSize := 2
  otRecv := ⟨⟨[6], 4, by decide⟩, fun i => if i = 1 ∨ i = 2 then 1#128 <<< i else 0⟩
  otSend := ⟨fun i bit => if bit then 1#128 <<< i else 0⟩
  otStartIdx := 0
  recvSet i := if i = 0 then 1 else 2
  sendSet i := if i = 0 then 3 else 6

theorem twoWords_correct : twoWords.Correct where
  enough := by decide
  chosen i below := by
    change i < 0 + 2 * 2 at below
    interval_cases i <;> decide

theorem twoWords_independent : twoWords.Independent := by
  intro i element chosen zero b bit
  have both : ∀ i < 2, ∀ p q : Bool, select p (twoWords.difference i 0) ^^^
      select q (twoWords.difference i 1) = 0#128 → p = false ∧ q = false := by decide
  change (0#128 ^^^ _) ^^^ _ = _ at zero
  rw [BitVec.zero_xor] at zero
  have none := both i element (chosen 0) (chosen 1) zero
  change b < 2 at bit
  interval_cases b
  · exact none.1
  · exact none.2

/-- The sum of a block and its image is a permutation as well. -/
theorem twoWords_injective (j : Nat) : Injective fun b => PRF twoWords.aesFixedKey b j := by
  intro b b' same
  unfold PRF at same
  simp only at same
  generalize mmSet1Epi64x (BitVec.ofNat 64 j) = tweak at same
  have injective (t t' : Block)
      (equal : t ^^^ twoWords.aesFixedKey t = t' ^^^ twoWords.aesFixedKey t') : t = t' := by
    have bits (i : Nat) := congrArg (BitVec.getLsbD · i) equal
    simp only [twoWords, mmSetEpi64x, Block.lo, Block.hi, BitVec.getLsbD_xor,
      BitVec.getLsbD_append, BitVec.getLsbD_extractLsb'] at bits
    have cancel : ∀ p q : Bool, (p ^^ (q ^^ p)) = q := by decide
    have high (i : Nat) (below : i < 64) : t.getLsbD (64 + i) = t'.getLsbD (64 + i) := by
      simpa [below, cancel] using bits i
    apply BitVec.eq_of_getLsbD_eq
    intro i below
    by_cases low : i < 64
    · have pair := bits (64 + i)
      have upper := high i low
      simpa [low, upper] using pair
    · have upper := high (i - 64) (by omega)
      rwa [show 64 + (i - 64) = i by omega] at upper
  have tweaked := injective _ _ same
  simpa using tweaked

theorem open_iff_agree_two_words : ∃ start, init twoWords = .ok start ∧
    ∀ t, Run.Along (step twoWords) (fun _ _ => True) start t →
      ∀ idx < 2, ∀ answer, t.answers idx = some answer →
        (answer = true ↔ ∃ j < 2, AgreeOn 2 (twoWords.sendSet j) (twoWords.recvSet idx)) := by
  obtain ⟨start, started, _, runs⟩ := open_iff_agree (by decide) twoWords_correct (by decide)
  refine ⟨start, started, fun t run idx below answer returned => ?_⟩
  obtain ⟨_, _, opens⟩ := runs t run
  obtain ⟨found, agree⟩ := opens idx below answer returned
  exact ⟨agree twoWords_independent fun j _ => twoWords_injective j, found⟩

end PsiRun

end BatchDualEx
