import BatchDualEx.PSI.AsyncPsiRun
import BatchDualEx.PSI.PsiIntersection

/- What the calls of `AsyncPsiSender` and `AsyncPsiReceiver` compute. For one element of the
   sender the opened shares are what `PsiSender` would take from OTs whose messages are hashed
   with its index, so the masks of `PsiSetup` describe both protocols. -/
namespace BatchDualEx

open Bytes WordXor Result Function Pending

variable {Digest : Type}

namespace PsiSetup

/-- The OTs with every message replaced by its `PRF` for column `j`. -/
def prf (setup : PsiSetup Digest) (j : Nat) : PsiSetup Digest :=
  { setup with
    otRecv := { setup.otRecv with
      GetMessage := fun k => PRF setup.aesFixedKey (setup.otRecv.GetMessage k) j }
    otSend := ⟨fun k bit => PRF setup.aesFixedKey (setup.otSend.GetMessage k bit) j⟩ }

/-- In the OT set of each element no sum of some of the differences is zero after the `PRF`. -/
def PrfIndependent (setup : PsiSetup Digest) : Prop :=
  ∀ j < setup.inputSize, (setup.prf j).Independent

def asyncFound (setup : PsiSetup Digest) (i : Nat) : Bool :=
  (List.range setup.inputSize).any fun j =>
    decide ((setup.prf j).receiverMask i = (setup.prf j).senderMask i j)

def opening (setup : PsiSetup Digest) (i j : Nat) : List Block :=
  (List.range setup.wordSize).map fun b => (setup.prf j).otSend.GetMessage (setup.otIdx i b)
    ((setup.sendSet j).getLsbD b ^^ setup.permute i b)

variable {setup : PsiSetup Digest}

theorem prf_correct (correct : setup.Correct) (j : Nat) : (setup.prf j).Correct where
  enough := correct.enough
  chosen k below := congrArg (PRF setup.aesFixedKey · j) (correct.chosen k below)

theorem asyncFound_iff (correct : setup.Correct) (independent : setup.PrfIndependent) {i : Nat}
    (element : i < setup.inputSize) : setup.asyncFound i = true ↔
      ∃ j < setup.inputSize, AgreeOn setup.wordSize (setup.sendSet j) (setup.recvSet i) := by
  unfold asyncFound
  rw [List.any_eq_true]
  constructor
  · rintro ⟨j, listed, same⟩
    have inside := List.mem_range.mp listed
    exact ⟨j, inside, agree_of_senderMask (prf_correct correct j) (independent j inside) element
      (of_decide_eq_true same).symm⟩
  · rintro ⟨j, inside, agree⟩
    exact ⟨j, List.mem_range.mpr inside,
      decide_eq_true (senderMask_of_agree (prf_correct correct j) element agree).symm⟩

theorem found_iff (correct : setup.Correct) (independent : setup.Independent)
    (injective : ∀ j < setup.inputSize, Injective fun b => PRF setup.aesFixedKey b j) {i : Nat}
    (element : i < setup.inputSize) : setup.found i = true ↔
      ∃ j < setup.inputSize, AgreeOn setup.wordSize (setup.sendSet j) (setup.recvSet i) := by
  constructor
  · exact agree_of_found correct independent injective element
  · rintro ⟨j, inside, agree⟩
    exact found_of_agree correct element inside agree

end PsiSetup

namespace AsyncPsiSetup

variable (setup : AsyncPsiSetup Digest)

def myPermute (j : Nat) : BitVector :=
  (AsyncPsiSender.randomPermutes setup.wordSize setup.inputSize setup.prng).getD j .empty

def ordered (i j b : Nat) (bit : Bool) : Block :=
  (setup.prf j).otSend.GetMessage (setup.otIdx i b) ((setup.myPermute j).get b ^^ bit)

def maskedBit (j b : Nat) : Bool := (setup.myPermute j).get b ^^ (setup.sendSet j).getLsbD b

/-- The bytes of the masked element `j`, whatever their padding. -/
structure Masked (j : Nat) (message : List Byte) : Prop where
  length : message.length = (setup.wordSize + 7) / 8
  bits : ∀ b < setup.wordSize, bit message b = setup.maskedBit j b

theorem ordered_maskedBit (i j b : Nat) :
    setup.ordered i j b (setup.permute i b ^^ setup.maskedBit j b) =
      (setup.prf j).otSend.GetMessage (setup.otIdx i b)
        ((setup.sendSet j).getLsbD b ^^ setup.permute i b) := by
  unfold ordered maskedBit
  congr 1
  cases (setup.myPermute j).get b <;> cases setup.permute i b <;> simp

end AsyncPsiSetup

section
variable (setup : AsyncPsiSetup Digest)

/-- The sender after `AsyncCommitRecv` for the indices `received`, whose second half has been made
    for `filled`, `AsyncCommitSend` for `sent` and `open` for `opened`. -/
structure AsyncSenderOk (received sent filled opened : Finset Nat) (s : AsyncPsiSender) :
    Prop where
  word : s.mWordSize = setup.wordSize
  drawn : ∀ j < setup.inputSize, j ∉ sent → s.mMyPermute[j]? = some (setup.myPermute j)
  mine : s.mMyPermute.length = setup.inputSize
  masked : ∀ j < setup.inputSize, j ∈ sent → ∀ b < setup.wordSize,
    (s.mMyPermute.getD j .empty).get b = setup.maskedBit j b
  fresh : ∀ i < setup.inputSize, i ∉ received → s.mTheirPermute.getD i .empty = .empty
  theirs : s.mTheirPermute.length = setup.inputSize
  permutes : ∀ i < setup.inputSize, i ∈ received → ∀ b < setup.wordSize,
    (s.mTheirPermute.getD i .empty).get b = setup.permute i b
  remaining : s.mRemainingInputCommits =
    pending setup.inputSize received + pending setup.inputSize sent
  shares : ∀ i < setup.inputSize, ∀ j < setup.inputSize, ∀ b < setup.wordSize, ∀ bit,
    s.share i j b bit = setup.ordered i j b bit
  columns : (s.mShares.getD 0 []).length = setup.inputSize
  rows : s.mOpenBuff.length = setup.inputSize
  buffers : ∀ i < setup.inputSize, i ∉ opened → s.mOpenBuff.getD i [] =
    (List.range setup.inputSize).map fun j => if i ∈ filled then setup.opening i j else []

/-- The receiver after `CommitSend` for the indices `sent` and `CommitRecv` for `received`. -/
structure AsyncReceiverOk (sent received : Finset Nat) (r : AsyncPsiReceiver.Full Digest) :
    Prop where
  word : r.mWordSize = setup.wordSize
  fresh : ∀ i < setup.inputSize, i ∉ sent → ∃ permute, r.mMyPermute[i]? = some permute ∧
    permute.mNumBits = setup.wordSize ∧
    ∀ b < setup.wordSize, permute.get b = setup.otRecv.mChoiceBits.get (setup.otIdx i b)
  permutes : ∀ i < setup.inputSize, i ∈ sent → ∀ b < setup.wordSize,
    (r.mMyPermute.getD i .empty).get b = setup.permute i b
  reset : ∀ j < setup.inputSize, j ∉ received →
    r.mTheirPermute.getD j .empty = BitVector.empty.reset setup.wordSize
  theirs : r.mTheirPermute.length = setup.inputSize
  masked : ∀ j < setup.inputSize, j ∈ received → ∀ b < setup.wordSize,
    (r.mTheirPermute.getD j .empty).get b = setup.maskedBit j b
  remaining : r.mRemainingInputCommits =
    pending setup.inputSize sent + pending setup.inputSize received
  commits : ∀ i < setup.inputSize, ∀ j < setup.inputSize, ∀ b < setup.wordSize, ∀ bit,
    r.commit i j b bit = some (setup.Commit (setup.ordered i j b bit))
  columns : (r.mCommits.getD 0 []).length = setup.inputSize
  ots : r.motRecv = setup.otRecv
  start : r.mOTIdx = setup.otStartIdx

variable {setup}

theorem randomPermutes_spec (w n : Nat) (prng : PRNG) :
    (AsyncPsiSender.randomPermutes w n prng).length = n ∧
      ∀ permute ∈ AsyncPsiSender.randomPermutes w n prng, permute.mNumBits = w := by
  induction n generalizing prng with
  | zero => exact ⟨rfl, fun _ none => absurd none List.not_mem_nil⟩
  | succ n ih =>
    obtain ⟨length, sizes⟩ := ih ((BitVector.empty.reset w).randomize prng).2
    refine ⟨congrArg (· + 1) length, ?_⟩
    exact List.forall_mem_cons.mpr ⟨BitVector.reset_numBits _ w, sizes⟩

/-- No blinding is left in the shares. -/
theorem shares_eq (aesFixedKey : Block → Block) (otSend : I_OTExtSender) (permute : BitVector)
    {w : Nat} (bits : 1 ≤ w) (oti j : Nat) :
    AsyncPsiSender.shares aesFixedKey otSend permute w oti j = (List.range w).map fun b =>
      (PRF aesFixedKey (otSend.GetMessage (oti + b) (permute.get b)) j,
        PRF aesFixedKey (otSend.GetMessage (oti + b) (!permute.get b)) j) := by
  obtain ⟨w, rfl⟩ := Nat.exists_eq_add_of_le' bits
  have sum : (List.range w).foldl (fun ZiXorSum _ => ZiXorSum ^^^ zeroBlock) zeroBlock =
      zeroBlock := by
    induction w with
    | zero => rfl
    | succ w ih =>
      rw [List.range_succ, List.foldl_append, ih (Nat.le_add_left _ _)]
      rfl
  unfold AsyncPsiSender.shares
  rw [Nat.add_sub_cancel, sum, List.range_succ, List.map_append]
  simp [zeroBlock_eq]

theorem length_myPermutes : (AsyncPsiSender.randomPermutes setup.wordSize setup.inputSize
    setup.prng).length = setup.inputSize :=
  (randomPermutes_spec _ _ _).1

theorem shares_myPermute (bits : 1 ≤ setup.wordSize) (i j : Nat) :
    AsyncPsiSender.shares setup.aesFixedKey setup.otSend (setup.myPermute j) setup.wordSize
      (setup.otStartIdx + i * setup.wordSize) j = (List.range setup.wordSize).map fun b =>
        (setup.ordered i j b false, setup.ordered i j b true) := by
  rw [shares_eq _ _ _ bits]
  simp [AsyncPsiSetup.ordered, PsiSetup.prf, PsiSetup.otIdx]

theorem shareTable_eq (bits : 1 ≤ setup.wordSize) (i : Nat) :
    ((AsyncPsiSender.randomPermutes setup.wordSize setup.inputSize setup.prng).mapIdx
      fun j permute => AsyncPsiSender.shares setup.aesFixedKey setup.otSend permute setup.wordSize
        (setup.otStartIdx + i * setup.wordSize) j) = (List.range setup.inputSize).map fun j =>
          (List.range setup.wordSize).map fun b =>
            (setup.ordered i j b false, setup.ordered i j b true) := by
  apply Lists.ext_getD []
  · rw [List.length_mapIdx, length_myPermutes, List.length_map, List.length_range]
  · intro j below
    rw [List.length_mapIdx, length_myPermutes] at below
    rw [Lists.getD_mapIdx _ (by rw [length_myPermutes]; exact below) .empty,
      Lists.map_range_getD _ _ below]
    exact shares_myPermute bits i j

def AsyncPsiSetup.commitMessage (setup : AsyncPsiSetup Digest) (i j : Nat) : List Digest :=
  (List.range setup.wordSize).flatMap fun b =>
    [setup.Commit (setup.ordered i j b false), setup.Commit (setup.ordered i j b true)]

theorem asyncSender_init (nonempty : 1 ≤ setup.inputSize) (bits : 1 ≤ setup.wordSize) :
    ∃ s messages, AsyncPsiSender.init setup.aesFixedKey setup.Commit setup.inputSize setup.wordSize
      setup.otSend setup.otStartIdx setup.prng = .ok (s, messages) ∧
      AsyncSenderOk setup ∅ ∅ ∅ ∅ s ∧ ∀ i < setup.inputSize, ∀ j < setup.inputSize,
        messages[i * setup.inputSize + j]? = some (setup.commitMessage i j) := by
  unfold AsyncPsiSender.init
  rw [if_neg (by omega), if_neg (by omega)]
  simp only [shareTable_eq bits]
  refine ⟨_, _, rfl, ?_, fun i element j inside => ?_⟩
  · exact {
      word := rfl
      drawn := fun j inside _ => by
        have below := lt_of_lt_of_eq inside length_myPermutes.symm
        unfold AsyncPsiSetup.myPermute
        rw [List.getElem?_eq_getElem below, List.getD_eq_getElem _ _ below]
      mine := length_myPermutes
      masked := fun _ _ none => absurd none (Finset.notMem_empty _)
      fresh := fun i element _ => List.getD_replicate _ element
      theirs := List.length_replicate
      permutes := fun _ _ none => absurd none (Finset.notMem_empty _)
      remaining := by rw [pending_empty, Nat.mul_two]
      shares := fun i element j inside b bit side => by
        unfold AsyncPsiSender.share
        rw [Lists.map_range_getD _ _ element, Lists.map_range_getD _ _ inside,
          Lists.map_range_getD _ _ bit]
        cases side <;> rfl
      columns := by rw [Lists.map_range_getD _ _ nonempty]; simp
      rows := List.length_replicate
      buffers := fun i element _ => by
        rw [List.getD_replicate _ element]
        simp }
  · rw [Lists.getElem?_flatMap (n := setup.inputSize) _ i inside, List.getElem?_map,
      List.getElem?_range element, Option.map_some, Option.bind_some, List.getElem?_map,
      List.getElem?_map, List.getElem?_range inside]
    · simp only [Option.map_some, AsyncPsiSender.commitments, List.flatMap_map]
      rfl
    · intro row listed
      obtain ⟨i, _, rfl⟩ := List.mem_map.mp listed
      simp

theorem pairs_flatMap {α : Type} (l : List α) (f g : α → Digest) :
    AsyncPsiReceiver.Full.pairs (l.flatMap fun a => [f a, g a]) = l.map fun a => (f a, g a) := by
  induction l with
  | nil => rfl
  | cons a l ih =>
    rw [List.flatMap_cons, List.map_cons, ← ih]
    rfl

theorem length_commitMessage (setup : AsyncPsiSetup Digest) (i j : Nat) :
    (setup.commitMessage i j).length = setup.wordSize * 2 := by
  simp [AsyncPsiSetup.commitMessage, List.length_flatMap]

variable (word : setup.wordSize ≤ 128)

include word in
theorem asyncReceiver_init {messages : List (List Digest)} (nonempty : 1 ≤ setup.inputSize)
    (sent : ∀ i < setup.inputSize, ∀ j < setup.inputSize,
      messages[i * setup.inputSize + j]? = some (setup.commitMessage i j)) :
    ∃ r : AsyncPsiReceiver.Full Digest, AsyncPsiReceiver.Full.init setup.inputSize setup.wordSize
      messages setup.otRecv setup.otStartIdx = .ok r ∧ AsyncReceiverOk setup ∅ ∅ r := by
  have received (i j : Nat) (element : i < setup.inputSize) (inside : j < setup.inputSize) :
      AsyncPsiReceiver.Full.recvCommits setup.wordSize messages (i * setup.inputSize + j) =
        .ok ((List.range setup.wordSize).map fun b =>
          (setup.Commit (setup.ordered i j b false), setup.Commit (setup.ordered i j b true))) := by
    unfold AsyncPsiReceiver.Full.recvCommits
    rw [sent i element j inside]
    simp only [length_commitMessage, ne_eq, not_true_eq_false, if_false]
    exact congrArg Except.ok (pairs_flatMap _ _ _)
  have table : ((List.range setup.inputSize).mapM fun i => (List.range setup.inputSize).mapM
      fun j => AsyncPsiReceiver.Full.recvCommits setup.wordSize messages
        (i * setup.inputSize + j)) = .ok _ :=
    mapM_eq_map fun i listed => mapM_eq_map fun j inside =>
      received i j (List.mem_range.mp listed) (List.mem_range.mp inside)
  obtain ⟨permutes, copied, entries⟩ := copyPermutes_ok word setup.inputSize
  unfold AsyncPsiReceiver.Full.init AsyncPsiReceiver.init
  rw [table, copied]
  refine ⟨_, rfl, ?_⟩
  exact {
    word := rfl
    fresh := fun i element _ => entries i element
    permutes := fun _ _ none => absurd none (Finset.notMem_empty _)
    reset := fun j inside _ => List.getD_replicate _ inside
    theirs := List.length_replicate
    masked := fun _ _ none => absurd none (Finset.notMem_empty _)
    remaining := by rw [pending_empty, ← Nat.mul_two]
    commits := fun i element j inside b bit side => by
      unfold AsyncPsiReceiver.Full.commit
      rw [Lists.map_range_getD _ _ element, Lists.map_range_getD _ _ inside, List.getElem?_map,
        List.getElem?_range bit]
      cases side <;> rfl
    columns := by rw [Lists.map_range_getD _ _ nonempty]; simp
    ots := rfl
    start := rfl }

section Receiver

variable {sent received : Finset Nat} {r : AsyncPsiReceiver.Full Digest}
  (ok : AsyncReceiverOk setup sent received r) {i : Nat} (below : i < setup.inputSize)
include ok below

include word in
theorem asyncReceiver_commitSend (fresh : i ∉ sent) : ∃ r' message,
    r.CommitSend (setup.recvSet i) i = .ok (r', message) ∧ Masks setup.toPsiSetup i message ∧
      AsyncReceiverOk setup (insert i sent) received r' := by
  obtain ⟨permute, entry, size, choices⟩ := ok.fresh i below fresh
  obtain ⟨masked, run, _, length, bits⟩ := maskInput_spec word entry size (setup.recvSet i)
  have hidden (b : Nat) (inside : b < setup.wordSize) : masked.get b = setup.permute i b := by
    rw [(bits b inside).1, choices b inside]
    rfl
  unfold AsyncPsiReceiver.Full.CommitSend AsyncPsiReceiver.CommitSend
  rw [ok.word, run]
  refine ⟨_, _, rfl, ⟨length, fun b inside => ?_⟩, ?_⟩
  · rw [(bits b inside).2, hidden b inside]
  · refine { ok with word := rfl, fresh := ?_, permutes := ?_, remaining := ?_ }
    · intro k element other
      obtain ⟨apart, unsent⟩ := not_or.mp (mt Finset.mem_insert.mpr other)
      have kept := ok.fresh k element unsent
      rwa [← List.getElem?_set_ne (Ne.symm apart)] at kept
    · intro k element member b inside
      by_cases same : i = k
      · subst same
        rw [Lists.getD_set_self (List.getElem?_eq_some_iff.mp entry).1]
        exact hidden b inside
      · have earlier := (Finset.mem_insert.mp member).resolve_left (Ne.symm same)
        rw [Lists.getD_set_ne _ same]
        exact ok.permutes k element earlier b inside
    · rw [Nat.add_comm, pending_add_insert below fresh, ok.remaining, Nat.add_comm]

theorem asyncReceiver_commitRecv (fresh : i ∉ received) {message : List Byte}
    (masked : setup.Masked i message) : ∃ r', r.CommitRecv message i = .ok r' ∧
      AsyncReceiverOk setup sent (insert i received) r' := by
  obtain ⟨permute, run, _, bits⟩ := BitVector.recv_reset masked.length
  unfold AsyncPsiReceiver.Full.CommitRecv
  rw [ok.reset i below fresh, run]
  refine ⟨_, rfl, { ok with reset := ?_, theirs := ?_, masked := ?_, remaining := ?_ }⟩
  · intro k element other
    obtain ⟨apart, unsent⟩ := not_or.mp (mt Finset.mem_insert.mpr other)
    rw [Lists.getD_set_ne _ (Ne.symm apart)]
    exact ok.reset k element unsent
  · rw [List.length_set, ok.theirs]
  · intro k element member b bit
    by_cases same : i = k
    · subst same
      rw [Lists.getD_set_self (by rw [ok.theirs]; exact below), bits b bit, masked.bits b bit]
    · have earlier := (Finset.mem_insert.mp member).resolve_left (Ne.symm same)
      rw [Lists.getD_set_ne _ same]
      exact ok.masked k element earlier b bit
  · rw [pending_add_insert below fresh, ok.remaining]

variable [DecidableEq Digest] (all : ∀ k < setup.inputSize, k ∈ sent ∧ k ∈ received)
include all

theorem asyncReceiver_openBits {j : Nat} (inside : j < setup.inputSize) {k : Nat}
    (few : k ≤ setup.wordSize) : (List.range k).foldlM
      (r.openBit setup.aesFixedKey setup.Commit i j (setup.opening i j)) (zeroBlock, zeroBlock) =
      .ok (xorSum k fun b => (setup.prf j).otSend.GetMessage (setup.otIdx i b)
          ((setup.sendSet j).getLsbD b ^^ setup.permute i b),
        xorSum k fun b => (setup.prf j).otRecv.GetMessage (setup.otIdx i b)) := by
  induction k with
  | zero => rfl
  | succ k ih =>
    have bit : k < setup.wordSize := few
    have share : (setup.opening i j).getD k zeroBlock = _ := Lists.map_range_getD _ _ bit
    rw [List.range_succ, List.foldlM_append, ih (Nat.le_of_succ_le few), xorSum_succ, xorSum_succ]
    simp only [List.foldlM_cons, List.foldlM_nil, bind, Except.bind, AsyncPsiReceiver.Full.openBit,
      share, ok.permutes i below (all i below).1 k bit, ok.masked j inside (all j inside).2 k bit,
      ok.commits i below j inside k bit, AsyncPsiSetup.ordered_maskedBit, ne_eq,
      not_true_eq_false, if_false, ok.ots, ok.start, ok.word]
    rfl

theorem asyncReceiver_open : r.open setup.aesFixedKey setup.Commit i
    ((List.range setup.inputSize).map (setup.opening i)) = .ok (setup.asyncFound i) := by
  have column (j : Nat) (inside : j < setup.inputSize) :
      r.openColumn setup.aesFixedKey setup.Commit i j
        (((List.range setup.inputSize).map (setup.opening i)).getD j []) =
        .ok (decide ((setup.prf j).receiverMask i = (setup.prf j).senderMask i j)) := by
    have length : (setup.opening i j).length = r.mWordSize := by
      rw [ok.word]
      simp [PsiSetup.opening]
    unfold AsyncPsiReceiver.Full.openColumn
    rw [Lists.map_range_getD _ _ inside, if_neg (not_not.mpr length), ok.word,
      asyncReceiver_openBits ok below all inside (Nat.le_refl _)]
    rfl
  have loop (js : List Nat) (inside : ∀ j ∈ js, j < setup.inputSize) (ret : Bool) :
      js.foldlM (fun ret j => do
        let same ← r.openColumn setup.aesFixedKey setup.Commit i j
          (((List.range setup.inputSize).map (setup.opening i)).getD j [])
        return ret || same) ret = .ok (ret || js.any fun j =>
          decide ((setup.prf j).receiverMask i = (setup.prf j).senderMask i j)) := by
    induction js generalizing ret with
    | nil =>
      rw [List.any_nil, Bool.or_false]
      rfl
    | cons j js ih =>
      rw [List.foldlM_cons, column j (inside j List.mem_cons_self), List.any_cons, ← Bool.or_assoc]
      exact ih (fun k later => inside k (List.mem_cons_of_mem _ later)) _
  unfold AsyncPsiReceiver.Full.open
  rw [ok.columns]
  exact loop _ (fun j listed => List.mem_range.mp listed) false

end Receiver

section Sender

variable {received sent filled opened : Finset Nat} {s : AsyncPsiSender}
  (ok : AsyncSenderOk setup received sent filled opened s) {i : Nat} (below : i < setup.inputSize)
include ok below

include word in
theorem asyncSender_commitSend (fresh : i ∉ sent) : ∃ s' message,
    s.AsyncCommitSend (setup.sendSet i) i = .ok (s', message) ∧ setup.Masked i message ∧
      AsyncSenderOk setup received (insert i sent) filled opened s' := by
  have entry := ok.drawn i below fresh
  have size : (setup.myPermute i).mNumBits = setup.wordSize := by
    obtain ⟨length, sizes⟩ := randomPermutes_spec setup.wordSize setup.inputSize setup.prng
    have inside := lt_of_lt_of_eq below length.symm
    unfold AsyncPsiSetup.myPermute
    rw [List.getD_eq_getElem _ _ inside]
    exact sizes _ (List.getElem_mem inside)
  obtain ⟨masked, run, _, length, bits⟩ := maskInput_spec word entry size (setup.sendSet i)
  unfold AsyncPsiSender.AsyncCommitSend
  rw [ok.word, run]
  refine ⟨_, _, rfl, ⟨length, fun b inside => ?_⟩, ?_⟩
  · rw [(bits b inside).2, (bits b inside).1]
    rfl
  · refine { ok with word := rfl, drawn := ?_, mine := ?_, masked := ?_, remaining := ?_ }
    · intro k element other
      obtain ⟨apart, unsent⟩ := not_or.mp (mt Finset.mem_insert.mpr other)
      rw [List.getElem?_set_ne (Ne.symm apart)]
      exact ok.drawn k element unsent
    · rw [List.length_set, ok.mine]
    · intro k element member b inside
      by_cases same : i = k
      · subst same
        rw [Lists.getD_set_self (List.getElem?_eq_some_iff.mp entry).1, (bits b inside).1]
        rfl
      · have earlier := (Finset.mem_insert.mp member).resolve_left (Ne.symm same)
        rw [Lists.getD_set_ne _ same]
        exact ok.masked k element earlier b inside
    · rw [pending_add_insert below fresh, ok.remaining]

theorem asyncSender_commitRecv (fresh : i ∉ received) {message : List Byte}
    (masks : Masks setup.toPsiSetup i message) : ∃ s', s.AsyncCommitRecv message i = .ok s' ∧
      AsyncSenderOk setup (insert i received) sent filled opened s' := by
  obtain ⟨permute, run, _, bits⟩ := BitVector.recv_reset masks.length
  unfold AsyncPsiSender.AsyncCommitRecv
  rw [ok.fresh i below fresh, ok.word, run]
  refine ⟨_, rfl, { ok with
    word := rfl, fresh := ?_, theirs := ?_, permutes := ?_, remaining := ?_ }⟩
  · intro k element other
    obtain ⟨apart, unsent⟩ := not_or.mp (mt Finset.mem_insert.mpr other)
    rw [Lists.getD_set_ne _ (Ne.symm apart)]
    exact ok.fresh k element unsent
  · rw [List.length_set, ok.theirs]
  · intro k element member b bit
    by_cases same : i = k
    · subst same
      rw [Lists.getD_set_self (by rw [ok.theirs]; exact below), bits b bit, masks.bits b bit]
    · have earlier := (Finset.mem_insert.mp member).resolve_left (Ne.symm same)
      rw [Lists.getD_set_ne _ same]
      exact ok.permutes k element earlier b bit
  · rw [Nat.add_comm, pending_add_insert below fresh, ok.remaining, Nat.add_comm]

theorem asyncSender_fill (fresh : i ∉ filled) (unopened : i ∉ opened) (here : i ∈ received)
    (all : ∀ j < setup.inputSize, j ∈ sent) :
    AsyncSenderOk setup received sent (insert i filled) opened (s.fillOpenBuff i) := by
  refine { ok with rows := ?_, buffers := ?_ }
  · rw [AsyncPsiSender.fillOpenBuff, List.length_set, ok.rows]
  · intro k element closed
    by_cases same : i = k
    · subst same
      have empty := ok.buffers i below unopened
      have length : (s.mOpenBuff.getD i []).length = setup.inputSize := by rw [empty]; simp
      rw [AsyncPsiSender.fillOpenBuff, Lists.getD_set_self (by rw [ok.rows]; exact below)]
      apply Lists.ext_getD []
      · rw [List.length_mapIdx, length, List.length_map, List.length_range]
      · intro j inside
        rw [List.length_mapIdx, length] at inside
        rw [Lists.getD_mapIdx _ (by rw [length]; exact inside) [], empty,
          Lists.map_range_getD _ _ inside, Lists.map_range_getD _ _ inside, if_neg fresh,
          if_pos (Finset.mem_insert_self _ _), List.nil_append, ok.word]
        refine List.map_congr_left fun b listed => ?_
        have bit := List.mem_range.mp listed
        rw [ok.permutes i below here b bit, ok.masked j inside (all j inside) b bit,
          ok.shares i below j inside b bit, AsyncPsiSetup.ordered_maskedBit]
    · rw [AsyncPsiSender.fillOpenBuff, Lists.getD_set_ne _ same, ok.buffers k element closed]
      simp only [Finset.mem_insert, Ne.symm same, false_or]

theorem asyncSender_open (fresh : i ∉ opened) (here : i ∈ filled) : ∃ s',
    s.open i = .ok (s', (List.range setup.inputSize).map (setup.opening i)) ∧
      AsyncSenderOk setup received sent filled (insert i opened) s' := by
  have row : s.mOpenBuff.getD i [] = (List.range setup.inputSize).map (setup.opening i) := by
    rw [ok.buffers i below fresh]
    simp only [here, if_true]
  have length : (s.mOpenBuff.getD i []).length = (s.mShares.getD 0 []).length := by
    rw [row, ok.columns]
    simp
  unfold AsyncPsiSender.open
  rw [if_neg (not_not.mpr length), row]
  refine ⟨_, rfl, { ok with rows := ?_, buffers := ?_ }⟩
  · rw [List.length_set, ok.rows]
  · intro k element closed
    obtain ⟨apart, before⟩ := not_or.mp (mt Finset.mem_insert.mpr closed)
    rw [Lists.getD_set_ne _ (Ne.symm apart)]
    exact ok.buffers k element before

end Sender

end

end BatchDualEx
