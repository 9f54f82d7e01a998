import BatchDualEx.PSI.AsyncPsiCalls
import BatchDualEx.PSI.PsiOpen

/- An honest run of `AsyncPsiSender` against `AsyncPsiReceiver`, and the comparison of its results
   with those of `PsiSender` against `PsiReceiver`. -/
namespace BatchDualEx

open Bytes WordXor Result Function Pending Calls

variable {Digest : Type}

namespace AsyncPsiRun

section
variable (setup : AsyncPsiSetup Digest)

def Queued (made : AsyncPsiStep → Finset Nat) (i : Nat) (queue : List (List Byte)) : Prop :=
  if i ∈ made .receiverCommitSend ∧ i ∉ made .senderCommitRecv then
    ∃ message, queue = [message] ∧ Masks setup.toPsiSetup i message
  else queue = []

def buffs (made : AsyncPsiStep → Finset Nat) (i : Nat) : List AsyncPsiMessage :=
  if i ∈ made .senderOpen ∧ i ∉ made .receiverOpen then
    (List.range setup.inputSize).map fun j => .shares (setup.opening i j)
  else []

/-- What the channel to the receiver holds: the masked input before the shares. -/
def Replies (made : AsyncPsiStep → Finset Nat) (i : Nat) (queue : List AsyncPsiMessage) : Prop :=
  if i ∈ made .senderCommitSend ∧ i ∉ made .receiverCommitRecv then
    ∃ message, queue = .permute message :: buffs setup made i ∧ setup.Masked i message
  else queue = buffs setup made i

structure Inv (s : AsyncPsiRun Digest) : Prop where
  receiver : AsyncReceiverOk setup (s.made .receiverCommitSend) (s.made .receiverCommitRecv)
    s.receiver
  sender : AsyncSenderOk setup (s.made .senderCommitRecv) (s.made .senderCommitSend)
    (s.made .senderFill) (s.made .senderOpen) s.sender
  received : s.made .senderCommitRecv ⊆ s.made .receiverCommitSend
  committed : s.made .receiverCommitRecv ⊆ s.made .senderCommitSend
  late : ∀ i ∈ s.made .senderFill, ∀ j < setup.inputSize, j ∈ s.made .senderCommitSend
  filled : s.made .senderOpen ⊆ s.made .senderFill
  opened : s.made .receiverOpen ⊆ s.made .senderOpen
  toSender : ∀ i, Queued setup s.made i (s.toSender i)
  toReceiver : ∀ i, Replies setup s.made i (s.toReceiver i)
  answers : ∀ i, s.answers i = if i ∈ s.made .receiverOpen then some (setup.asyncFound i) else none

variable {setup}

theorem init_inv (nonempty : 1 ≤ setup.inputSize) (bits : 1 ≤ setup.wordSize)
    (word : setup.wordSize ≤ 128) : ∃ s, init setup = .ok s ∧ Inv setup s ∧ ∀ k, s.made k = ∅ := by
  obtain ⟨sender, messages, drawn, sent, table⟩ := @asyncSender_init Digest setup nonempty bits
  obtain ⟨receiver, started, ok⟩ := asyncReceiver_init word nonempty table
  unfold init
  rw [drawn]
  change ∃ s, (AsyncPsiReceiver.Full.init _ _ messages _ _ >>= _) = _ ∧ _
  rw [started]
  exact ⟨_, rfl, {
    receiver := ok
    sender := sent
    received := Finset.Subset.refl _
    committed := Finset.Subset.refl _
    late := fun i none => absurd none (Finset.notMem_empty i)
    filled := Finset.Subset.refl _
    opened := Finset.Subset.refl _
    toSender := fun i => by simp [Queued]
    toReceiver := fun i => by simp [Replies, buffs]
    answers := fun i => by simp }, fun _ => rfl⟩

variable {made : AsyncPsiStep → Finset Nat} {k : AsyncPsiStep} {i j : Nat}

theorem queued_mark (other : j ≠ i) {queue : List (List Byte)} :
    Queued setup (mark made k i) j queue ↔ Queued setup made j queue := by
  unfold Queued
  simp only [mem_mark other]

theorem replies_mark (other : j ≠ i) {queue : List AsyncPsiMessage} :
    Replies setup (mark made k i) j queue ↔ Replies setup made j queue := by
  unfold Replies buffs
  simp only [mem_mark other]

theorem toSender_mark {toSender : Nat → List (List Byte)}
    (before : ∀ j, Queued setup made j (toSender j)) {queue : List (List Byte)}
    (after : Queued setup (mark made k i) i queue) :
    ∀ j, Queued setup (mark made k i) j (update toSender i queue j) := by
  rw [forall_update_iff toSender fun j queue => Queued setup (mark made k i) j queue]
  exact ⟨after, fun j other => (queued_mark other).mpr (before j)⟩

theorem toReceiver_mark {toReceiver : Nat → List AsyncPsiMessage}
    (before : ∀ j, Replies setup made j (toReceiver j)) {queue : List AsyncPsiMessage}
    (after : Replies setup (mark made k i) i queue) :
    ∀ j, Replies setup (mark made k i) j (update toReceiver i queue j) := by
  rw [forall_update_iff toReceiver fun j queue => Replies setup (mark made k i) j queue]
  exact ⟨after, fun j other => (replies_mark other).mpr (before j)⟩

theorem mapM_buff (l : List (List Block)) :
    (l.map AsyncPsiMessage.shares).mapM AsyncPsiMessage.buff? = some l := by
  induction l with
  | nil => rfl
  | cons buff l ih =>
    rw [List.map_cons, List.mapM_cons, ih]
    rfl

variable [DecidableEq Digest] {s : AsyncPsiRun Digest} (inv : Inv setup s)
  (below : i < setup.inputSize)
include inv below

theorem Inv.receiverCommitSend (word : setup.wordSize ≤ 128)
    (fresh : i ∉ s.made .receiverCommitSend) :
    ∃ t, s.call setup .receiverCommitSend i = some (.ok t) ∧
      Inv setup { t with made := mark s.made .receiverCommitSend i } := by
  obtain ⟨r, message, run, masks, ok⟩ := asyncReceiver_commitSend word inv.receiver below fresh
  have unreceived : i ∉ s.made .senderCommitRecv := mt (fun h => inv.received h) fresh
  have empty : s.toSender i = [] := by
    have queue := inv.toSender i
    unfold Queued at queue
    rwa [if_neg (fun h => fresh h.1)] at queue
  unfold call
  rw [run]
  refine ⟨_, rfl, { inv with receiver := ok, received := ?_, toSender := ?_ }⟩
  · exact inv.received.trans (Finset.subset_insert _ _)
  · apply toSender_mark inv.toSender
    unfold Queued
    rw [if_pos ⟨Finset.mem_insert_self _ _, unreceived⟩, empty]
    exact ⟨message, rfl, masks⟩

theorem Inv.senderCommitRecv (fresh : i ∉ s.made .senderCommitRecv)
    (ready : i ∈ s.made .receiverCommitSend) :
    ∃ t, s.call setup .senderCommitRecv i = some (.ok t) ∧
      Inv setup { t with made := mark s.made .senderCommitRecv i } := by
  have queue := inv.toSender i
  unfold Queued at queue
  rw [if_pos ⟨ready, fresh⟩] at queue
  obtain ⟨message, queue, masks⟩ := queue
  obtain ⟨sender, run, ok⟩ := asyncSender_commitRecv inv.sender below fresh masks
  unfold call
  rw [queue]
  simp only [run]
  refine ⟨_, rfl, { inv with sender := ok, received := ?_, toSender := ?_ }⟩
  · exact Finset.insert_subset ready inv.received
  · apply toSender_mark inv.toSender
    unfold Queued
    rw [if_neg fun h => h.2 (Finset.mem_insert_self _ _)]

theorem Inv.senderCommitSend (word : setup.wordSize ≤ 128)
    (fresh : i ∉ s.made .senderCommitSend) :
    ∃ t, s.call setup .senderCommitSend i = some (.ok t) ∧
      Inv setup { t with made := mark s.made .senderCommitSend i } := by
  obtain ⟨sender, message, run, masked, ok⟩ :=
    asyncSender_commitSend word inv.sender below fresh
  have uncommitted : i ∉ s.made .receiverCommitRecv := mt (fun h => inv.committed h) fresh
  -- no row can be open before all elements are masked
  have unopened : i ∉ s.made .senderOpen := fun opened =>
    fresh (inv.late i (inv.filled opened) i below)
  have queue := inv.toReceiver i
  unfold Replies buffs at queue
  rw [if_neg (fun h => fresh h.1), if_neg (fun h => unopened h.1)] at queue
  unfold call
  rw [run]
  refine ⟨_, rfl, { inv with sender := ok, committed := ?_, late := ?_, toReceiver := ?_ }⟩
  · exact inv.committed.trans (Finset.subset_insert _ _)
  · exact fun k filled j inside => Finset.mem_insert_of_mem (inv.late k filled j inside)
  · apply toReceiver_mark inv.toReceiver
    unfold Replies buffs
    rw [if_pos ⟨Finset.mem_insert_self _ _, uncommitted⟩, if_neg (fun h => unopened h.1), queue]
    exact ⟨message, rfl, masked⟩

theorem Inv.receiverCommitRecv (fresh : i ∉ s.made .receiverCommitRecv)
    (ready : i ∈ s.made .senderCommitSend) :
    ∃ t, s.call setup .receiverCommitRecv i = some (.ok t) ∧
      Inv setup { t with made := mark s.made .receiverCommitRecv i } := by
  have queue := inv.toReceiver i
  unfold Replies at queue
  rw [if_pos ⟨ready, fresh⟩] at queue
  obtain ⟨message, queue, masked⟩ := queue
  obtain ⟨receiver, run, ok⟩ := asyncReceiver_commitRecv inv.receiver below fresh masked
  unfold call
  rw [queue]
  simp only [run]
  refine ⟨_, rfl, { inv with receiver := ok, committed := ?_, toReceiver := ?_ }⟩
  · exact Finset.insert_subset ready inv.committed
  · apply toReceiver_mark inv.toReceiver
    unfold Replies
    rw [if_neg fun h => h.2 (Finset.mem_insert_self _ _)]
    rfl

theorem Inv.senderFill (fresh : i ∉ s.made .senderFill) (here : i ∈ s.made .senderCommitRecv)
    (ready : ∀ j < setup.inputSize, j ∈ s.made .senderCommitSend ∧ j ∈ s.made .senderCommitRecv) :
    ∃ t, s.call setup .senderFill i = some (.ok t) ∧
      Inv setup { t with made := mark s.made .senderFill i } := by
  have unopened : i ∉ s.made .senderOpen := mt (fun h => inv.filled h) fresh
  have ok := asyncSender_fill inv.sender below fresh unopened here fun j inside =>
    (ready j inside).1
  have noneLeft : s.sender.mRemainingInputCommits = 0 := by
    rw [inv.sender.remaining, pending_eq_zero_iff.mpr fun j inside => (ready j inside).1,
      pending_eq_zero_iff.mpr fun j inside => (ready j inside).2]
  unfold call
  rw [if_neg (not_or.mpr ⟨not_not.mpr here, not_not.mpr noneLeft⟩)]
  refine ⟨_, rfl, { inv with sender := ok, late := ?_, filled := ?_ }⟩
  · exact fun k _ j inside => (ready j inside).1
  · exact inv.filled.trans (Finset.subset_insert _ _)

theorem Inv.senderOpen (fresh : i ∉ s.made .senderOpen) (ready : i ∈ s.made .senderFill) :
    ∃ t, s.call setup .senderOpen i = some (.ok t) ∧
      Inv setup { t with made := mark s.made .senderOpen i } := by
  obtain ⟨sender, run, ok⟩ := asyncSender_open inv.sender below fresh ready
  have unanswered : i ∉ s.made .receiverOpen := mt (fun h => inv.opened h) fresh
  have before : buffs setup s.made i = [] := if_neg fun h => fresh h.1
  have after : buffs setup (mark s.made .senderOpen i) i =
      (List.range setup.inputSize).map fun j => .shares (setup.opening i j) :=
    if_pos ⟨Finset.mem_insert_self _ _, unanswered⟩
  have queue := inv.toReceiver i
  unfold call
  rw [if_neg (not_not.mpr ready), run]
  refine ⟨_, rfl, { inv with sender := ok, filled := ?_, opened := ?_, toReceiver := ?_ }⟩
  · exact Finset.insert_subset ready inv.filled
  · exact inv.opened.trans (Finset.subset_insert _ _)
  · apply toReceiver_mark inv.toReceiver
    unfold Replies at queue ⊢
    rw [before] at queue
    rw [after, List.map_map]
    change if i ∈ s.made .senderCommitSend ∧ i ∉ s.made .receiverCommitRecv then _ else _
    by_cases waiting : i ∈ s.made .senderCommitSend ∧ i ∉ s.made .receiverCommitRecv
    · rw [if_pos waiting] at queue ⊢
      obtain ⟨message, queue, masked⟩ := queue
      rw [queue]
      exact ⟨message, rfl, masked⟩
    · rw [if_neg waiting] at queue ⊢
      rw [queue]
      rfl

theorem Inv.receiverOpen (fresh : i ∉ s.made .receiverOpen)
    (ready : ∀ j < setup.inputSize, j ∈ s.made .receiverCommitSend ∧ j ∈ s.made .receiverCommitRecv)
    (isOpen : i ∈ s.made .senderOpen) :
    ∃ t, s.call setup .receiverOpen i = some (.ok t) ∧
      Inv setup { t with made := mark s.made .receiverOpen i } := by
  have row : s.toReceiver i = ((List.range setup.inputSize).map (setup.opening i)).map .shares := by
    have queue := inv.toReceiver i
    unfold Replies buffs at queue
    rw [if_neg (fun h => h.2 (ready i below).2), if_pos ⟨isOpen, fresh⟩] at queue
    rw [queue, List.map_map]
    rfl
  have length : (s.toReceiver i).length = setup.inputSize := by
    rw [row]
    simp
  have noneLeft : s.receiver.mRemainingInputCommits = 0 := by
    rw [inv.receiver.remaining, pending_eq_zero_iff.mpr fun j inside => (ready j inside).1,
      pending_eq_zero_iff.mpr fun j inside => (ready j inside).2]
  have ready' : ¬ (s.receiver.mRemainingInputCommits ≠ 0 ∨
      (s.toReceiver i).length < setup.inputSize) := by
    rw [noneLeft, length]
    simp
  unfold call
  simp only [inv.receiver.columns, if_neg ready', List.take_of_length_le length.le,
    List.drop_of_length_le length.le]
  simp only [row, mapM_buff, asyncReceiver_open inv.receiver below ready]
  refine ⟨_, rfl, { inv with opened := ?_, toReceiver := ?_, answers := ?_ }⟩
  · exact Finset.insert_subset isOpen inv.opened
  · apply toReceiver_mark inv.toReceiver
    unfold Replies
    change if i ∈ s.made .senderCommitSend ∧ i ∉ s.made .receiverCommitRecv then _ else _
    rw [if_neg fun h => h.2 (ready i below).2]
    exact (if_neg fun h => h.2 (Finset.mem_insert_self _ _)).symm
  · rw [forall_update_iff s.answers fun j answer => answer =
      if j ∈ mark s.made .receiverOpen i .receiverOpen then some (setup.asyncFound j) else none]
    refine ⟨by simp [mark], fun j other => ?_⟩
    simp only [mem_mark other]
    exact inv.answers j

theorem Inv.call_ready (word : setup.wordSize ≤ 128) (fresh : i ∉ s.made k)
    (ready : Ready setup.inputSize s.made i k) :
    ∃ t, s.call setup k i = some (.ok t) ∧ Inv setup { t with made := mark s.made k i } := by
  cases k with
  | receiverCommitSend => exact inv.receiverCommitSend below word fresh
  | receiverCommitRecv => exact inv.receiverCommitRecv below fresh ready
  | senderCommitSend => exact inv.senderCommitSend below word fresh
  | senderCommitRecv => exact inv.senderCommitRecv below fresh ready
  | senderFill => exact inv.senderFill below fresh ready.1 ready.2
  | senderOpen => exact inv.senderOpen below fresh ready
  | receiverOpen => exact inv.receiverOpen below fresh ready.1 ready.2

theorem Inv.call_waits (waiting : ¬ Ready setup.inputSize s.made i k) :
    s.call setup k i = none := by
  cases k with
  | receiverCommitSend => exact absurd trivial waiting
  | receiverCommitRecv =>
    have queue := inv.toReceiver i
    unfold Replies buffs at queue
    rw [if_neg (fun h => waiting h.1),
      if_neg fun h => waiting (inv.late i (inv.filled h.1) i below)] at queue
    unfold call
    rw [queue]
  | senderCommitSend => exact absurd trivial waiting
  | senderCommitRecv =>
    have queue := inv.toSender i
    unfold Queued at queue
    rw [if_neg (fun h => waiting h.1)] at queue
    unfold call
    rw [queue]
  | senderFill =>
    refine if_pos ?_
    by_contra ready
    obtain ⟨here, noneLeft⟩ := not_or.mp ready
    have both := Nat.add_eq_zero_iff.mp (inv.sender.remaining ▸ not_not.mp noneLeft)
    exact waiting ⟨not_not.mp here, fun j inside =>
      ⟨pending_eq_zero_iff.mp both.2 j inside, pending_eq_zero_iff.mp both.1 j inside⟩⟩
  | senderOpen => exact if_pos waiting
  | receiverOpen =>
    refine if_pos ?_
    by_contra ready
    obtain ⟨noneLeft, length⟩ := not_or.mp ready
    have both := Nat.add_eq_zero_iff.mp (inv.receiver.remaining ▸ not_not.mp noneLeft)
    have received : ∀ j < setup.inputSize, j ∈ s.made .receiverCommitRecv :=
      pending_eq_zero_iff.mp both.2
    have unopened : i ∉ s.made .senderOpen := fun opened => waiting
      ⟨fun j inside => ⟨pending_eq_zero_iff.mp both.1 j inside, received j inside⟩, opened⟩
    have queue := inv.toReceiver i
    unfold Replies buffs at queue
    rw [if_neg (fun h => h.2 (received i below)), if_neg (fun h => unopened h.1)] at queue
    rw [queue, inv.receiver.columns, List.length_nil] at length
    omega

end

section
variable [DecidableEq Digest] {setup : AsyncPsiSetup Digest}

theorem honest (word : setup.wordSize ≤ 128) :
    (system setup).Honest (Ready setup.inputSize) (Inv setup) where
  records _ _ := rfl
  returns _ _ _ inv below fresh ready := inv.call_ready below word fresh ready
  waits _ _ _ inv below waiting := inv.call_waits below waiting
  live _ waiting := exists_ready waiting

theorem Inv.all_answered {s : AsyncPsiRun Digest} (inv : Inv setup s)
    (word : setup.wordSize ≤ 128) (stuck : ∀ c, (system setup).step s c = none) {i : Nat}
    (below : i < setup.inputSize) : s.answers i ≠ none := by
  have all : i ∈ s.made .receiverOpen := (honest word).all_made inv stuck .receiverOpen i below
  rw [inv.answers i, if_pos all]
  exact Option.some_ne_none _

omit [DecidableEq Digest] in
theorem Inv.answers_eq {s : AsyncPsiRun Digest} (inv : Inv setup s) {i : Nat} {answer : Bool}
    (returned : s.answers i = some answer) : answer = setup.asyncFound i := by
  have value := inv.answers i
  rw [returned] at value
  split at value
  · exact Option.some.inj value
  · cases value

end

/-- The two protocols are run on the same sets. -/
structure SameSets (setup : PsiSetup Digest) (async : AsyncPsiSetup Digest) : Prop where
  inputSize : async.inputSize = setup.inputSize
  wordSize : async.wordSize = setup.wordSize
  recvSet : ∀ i < setup.inputSize, async.recvSet i = setup.recvSet i
  sendSet : ∀ j < setup.inputSize, async.sendSet j = setup.sendSet j

theorem asyncFound_eq {setup : PsiSetup Digest} {async : AsyncPsiSetup Digest}
    (same : SameSets setup async) (correct : setup.Correct) (asyncCorrect : async.Correct)
    (independent : setup.Independent) (prfIndependent : async.PrfIndependent)
    (injective : ∀ j < setup.inputSize, Injective fun b => PRF setup.aesFixedKey b j) {i : Nat}
    (element : i < setup.inputSize) : async.asyncFound i = setup.found i := by
  rw [Bool.eq_iff_iff, PsiSetup.found_iff correct independent injective element,
    PsiSetup.asyncFound_iff asyncCorrect prfIndependent (same.inputSize ▸ element),
    same.inputSize, same.wordSize, same.recvSet i element]
  constructor
  · rintro ⟨j, inside, agree⟩
    exact ⟨j, inside, same.sendSet j inside ▸ agree⟩
  · rintro ⟨j, inside, agree⟩
    exact ⟨j, inside, (same.sendSet j inside).symm ▸ agree⟩

/-- Honest runs of both protocols end without an exception in every order of the calls, and
    `open` returns the same for every element. -/
theorem async_open_eq [DecidableEq Digest] {setup : PsiSetup Digest}
    {async : AsyncPsiSetup Digest} (same : SameSets setup async) (nonempty : 1 ≤ setup.inputSize)
    (bits : 1 ≤ setup.wordSize) (word : setup.wordSize ≤ 128) (correct : setup.Correct)
    (asyncCorrect : async.Correct) (independent : setup.Independent)
    (prfIndependent : async.PrfIndependent)
    (injective : ∀ j < setup.inputSize, Injective fun b => PRF setup.aesFixedKey b j) :
    ∃ start asyncStart, PsiRun.init setup = .ok start ∧ init async = .ok asyncStart ∧
      (∀ cs t, Run.exec (PsiRun.step setup) start cs = some t →
        cs.length ≤ 6 * setup.inputSize) ∧
      (∀ cs t, Run.exec (system async).step asyncStart cs = some t →
        cs.length ≤ 7 * setup.inputSize) ∧
      ∀ s t, Run.Along (PsiRun.step setup) (fun _ _ => True) start s →
        Run.Along (system async).step (fun _ _ => True) asyncStart t →
        (∀ c fault, s.due setup c → s.call setup c.1 c.2 ≠ some (.error fault)) ∧
        (∀ c fault, (system async).due t c → t.call async c.1 c.2 ≠ some (.error fault)) ∧
        ((∀ c, PsiRun.step setup s c = none) → ∀ idx < setup.inputSize, s.answers idx ≠ none) ∧
        ((∀ c, (system async).step t c = none) → ∀ idx < setup.inputSize, t.answers idx ≠ none) ∧
        ∀ idx < setup.inputSize, ∀ answer asyncAnswer, s.answers idx = some answer →
          t.answers idx = some asyncAnswer → asyncAnswer = answer := by
  have asyncWord : async.wordSize ≤ 128 := same.wordSize ▸ word
  obtain ⟨start, started, inv⟩ : ∃ s, PsiRun.init setup = .ok s ∧ PsiRun.Inv setup s :=
    PsiRun.init_inv word
  obtain ⟨asyncStart, asyncStarted, asyncInv, fresh⟩ : ∃ s, init async = .ok s ∧ Inv async s ∧ _ :=
    init_inv (same.inputSize ▸ nonempty) (same.wordSize ▸ bits) asyncWord
  refine ⟨start, asyncStart, started, asyncStarted,
    fun cs t run => PsiRun.exec_length_le_six started run, fun cs t run => ?_,
    fun s t run asyncRun => ?_⟩
  · rw [← same.inputSize]
    exact System.exec_length_le (fun _ _ => rfl) fresh run
  · have inv := (PsiRun.honest word).run inv run
    have asyncInv := (honest asyncWord).run asyncInv asyncRun
    refine ⟨fun c fault isDue => (PsiRun.honest word).not_thrown inv isDue fault,
      fun c fault isDue => (honest asyncWord).not_thrown asyncInv isDue fault,
      fun stuck idx below => inv.all_answered word stuck below,
      fun stuck idx below => asyncInv.all_answered asyncWord stuck (same.inputSize ▸ below), ?_⟩
    intro idx below answer asyncAnswer returned asyncReturned
    rw [inv.answers_eq returned, asyncInv.answers_eq asyncReturned]
    exact asyncFound_eq same correct asyncCorrect independent prfIndependent injective below

/-- The same words and OTs, with permutations 10 and 10. -/
def asyncTwoWords : AsyncPsiSetup Block where
  toPsiSetup := PsiRun.twoWords
  prng := Stream'.const 1

theorem asyncTwoWords_independent : asyncTwoWords.PrfIndependent := by
  intro j inside i element chosen zero b bit
  have both : ∀ j < 2, ∀ i < 2, ∀ p q : Bool,
      select p ((PsiRun.twoWords.prf j).difference i 0) ^^^
        select q ((PsiRun.twoWords.prf j).difference i 1) = 0#128 → p = false ∧ q = false := by
    decide
  change (0#128 ^^^ _) ^^^ _ = _ at zero
  rw [BitVec.zero_xor] at zero
  have none := both j inside i element (chosen 0) (chosen 1) zero
  change b < 2 at bit
  interval_cases b
  · exact none.1
  · exact none.2

theorem async_open_eq_two_words : ∃ start asyncStart,
    PsiRun.init PsiRun.twoWords = .ok start ∧ init asyncTwoWords = .ok asyncStart ∧
    ∀ s t, Run.Along (PsiRun.step PsiRun.twoWords) (fun _ _ => True) start s →
      Run.Along (system asyncTwoWords).step (fun _ _ => True) asyncStart t →
      ∀ idx < 2, ∀ answer asyncAnswer, s.answers idx = some answer →
        t.answers idx = some asyncAnswer → asyncAnswer = answer := by
  have same : SameSets PsiRun.twoWords asyncTwoWords :=
    ⟨rfl, rfl, fun _ _ => rfl, fun _ _ => rfl⟩
  obtain ⟨start, asyncStart, started, asyncStarted, _, _, runs⟩ :=
    async_open_eq same (by decide) (by decide) (by decide) PsiRun.twoWords_correct
      PsiRun.twoWords_correct PsiRun.twoWords_independent asyncTwoWords_independent
      fun j _ => PsiRun.twoWords_injective j
  exact ⟨start, asyncStart, started, asyncStarted, fun s t run asyncRun =>
    (runs s t run asyncRun).2.2.2.2⟩

end AsyncPsiRun

end BatchDualEx
