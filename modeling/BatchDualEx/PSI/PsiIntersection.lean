import BatchDualEx.PSI.PsiRun
import BatchDualEx.PSI.PsiPadding

/- What the calls of `PsiSender` and `PsiReceiver` compute: the values of both tables, and for
   each call what it needs of its party and what it leaves behind. -/
namespace BatchDualEx

open Bytes WordXor Result Function Pending

variable {Digest : Type}

namespace PsiSetup

variable (setup : PsiSetup Digest)

def otIdx (i b : Nat) : Nat := setup.otStartIdx + i * setup.wordSize + b

def permute (i b : Nat) : Bool :=
  setup.otRecv.mChoiceBits.get (setup.otIdx i b) ^^ (setup.recvSet i).getLsbD b

def receiverMask (i : Nat) : Block :=
  xorSum setup.wordSize fun b => setup.otRecv.GetMessage (setup.otIdx i b)

def senderMask (i j : Nat) : Block :=
  xorSum setup.wordSize fun b =>
    setup.otSend.GetMessage (setup.otIdx i b) ((setup.sendSet j).getLsbD b ^^ setup.permute i b)

def receiverVal (i j : Nat) : Block := PRF setup.aesFixedKey (setup.receiverMask i) j
def senderVal (i j : Nat) : Block := PRF setup.aesFixedKey (setup.senderMask i j) j

def column (j : Nat) : List Digest :=
  (List.range setup.inputSize).map fun i => setup.Commit (setup.senderVal i j)

def row (i : Nat) : List Block := (List.range setup.inputSize).map (setup.senderVal i)

def found (i : Nat) : Bool :=
  (List.range setup.inputSize).any fun j => decide (setup.receiverVal i j = setup.senderVal i j)

def difference (i b : Nat) : Block :=
  setup.otSend.GetMessage (setup.otIdx i b) false ^^^
    setup.otSend.GetMessage (setup.otIdx i b) true

/-- In the OT set of each element no sum of some of the differences is zero. -/
def Independent : Prop :=
  ∀ i < setup.inputSize, ∀ chosen : Nat → Bool,
    (xorSum setup.wordSize fun b => select (chosen b) (setup.difference i b)) = 0#128 →
      ∀ b < setup.wordSize, chosen b = false

def Correct : Prop :=
  OTsCorrect (setup.otStartIdx + setup.inputSize * setup.wordSize) setup.otRecv setup.otSend

variable {setup}

theorem otIdx_lt {i b : Nat} (element : i < setup.inputSize) (bit : b < setup.wordSize) :
    setup.otIdx i b < setup.otStartIdx + setup.inputSize * setup.wordSize := by
  have rows : (i + 1) * setup.wordSize ≤ setup.inputSize * setup.wordSize :=
    Nat.mul_le_mul_right _ element
  rw [Nat.add_mul, Nat.one_mul] at rows
  unfold otIdx
  omega

theorem getMessage_change (send : I_OTExtSender) (k : Nat) (p q : Bool) :
    send.GetMessage k (p ^^ q) = send.GetMessage k q ^^^
      select p (send.GetMessage k false ^^^ send.GetMessage k true) := by
  cases p <;> cases q <;> simp

theorem senderMask_eq (correct : setup.Correct) {i : Nat} (element : i < setup.inputSize)
    (j : Nat) : setup.senderMask i j = setup.receiverMask i ^^^
      xorSum setup.wordSize fun b =>
        select ((setup.sendSet j).getLsbD b ^^ (setup.recvSet i).getLsbD b)
          (setup.difference i b) := by
  unfold senderMask receiverMask
  rw [← xorSum_xor]
  apply xorSum_congr
  intro b bit
  have held := correct.chosen _ (otIdx_lt element bit)
  have bits : ((setup.sendSet j).getLsbD b ^^ setup.permute i b) =
      (((setup.sendSet j).getLsbD b ^^ (setup.recvSet i).getLsbD b) ^^
        setup.otRecv.mChoiceBits.get (setup.otIdx i b)) := by
    unfold permute
    cases (setup.sendSet j).getLsbD b <;> cases (setup.recvSet i).getLsbD b <;> simp
  rw [bits, getMessage_change, ← held]
  rfl

theorem senderMask_of_agree (correct : setup.Correct) {i j : Nat} (element : i < setup.inputSize)
    (agree : AgreeOn setup.wordSize (setup.sendSet j) (setup.recvSet i)) :
    setup.senderMask i j = setup.receiverMask i := by
  rw [senderMask_eq correct element, xorSum_eq_zero, BitVec.xor_zero]
  intro b bit
  rw [agree b bit, Bool.xor_self]
  rfl

theorem agree_of_senderMask (correct : setup.Correct) (independent : setup.Independent) {i j : Nat}
    (element : i < setup.inputSize) (same : setup.senderMask i j = setup.receiverMask i) :
    AgreeOn setup.wordSize (setup.sendSet j) (setup.recvSet i) := by
  rw [senderMask_eq correct element] at same
  have sum := congrArg (setup.receiverMask i ^^^ ·) same
  simp only [xor_cancel_left, BitVec.xor_self] at sum
  have zero := independent i element _ sum
  intro b bit
  have equal := zero b bit
  rwa [bne_eq_false_iff_eq] at equal

theorem found_of_agree (correct : setup.Correct) {i j : Nat} (element : i < setup.inputSize)
    (inside : j < setup.inputSize)
    (agree : AgreeOn setup.wordSize (setup.sendSet j) (setup.recvSet i)) :
    setup.found i = true := by
  unfold found
  rw [List.any_eq_true]
  refine ⟨j, List.mem_range.mpr inside, decide_eq_true ?_⟩
  unfold receiverVal senderVal
  rw [senderMask_of_agree correct element agree]

theorem agree_of_found (correct : setup.Correct) (independent : setup.Independent)
    (injective : ∀ j < setup.inputSize, Injective fun b => PRF setup.aesFixedKey b j) {i : Nat}
    (element : i < setup.inputSize) (isFound : setup.found i = true) :
    ∃ j < setup.inputSize, AgreeOn setup.wordSize (setup.sendSet j) (setup.recvSet i) := by
  unfold found at isFound
  obtain ⟨j, listed, equal⟩ := List.any_eq_true.mp isFound
  have inside := List.mem_range.mp listed
  have masks := injective j inside (of_decide_eq_true equal)
  exact ⟨j, inside, agree_of_senderMask correct independent element masks.symm⟩

end PsiSetup

section
variable (setup : PsiSetup Digest)

/-- The bytes of the permutation of element `i`, whatever their padding. -/
structure Masks (i : Nat) (message : List Byte) : Prop where
  length : message.length = (setup.wordSize + 7) / 8
  bits : ∀ b < setup.wordSize, bit message b = setup.permute i b

/-- The receiver after `CommitSend` for the indices `sent` and `CommitRecv` for `received`. -/
structure ReceiverOk (sent received : Finset Nat) (r : PsiReceiver Digest) : Prop where
  word : r.mWordSize = setup.wordSize
  permutes : ∀ i < setup.inputSize, i ∉ sent → ∃ permute, r.mMyPermute[i]? = some permute ∧
    permute.mNumBits = setup.wordSize ∧
    ∀ b < setup.wordSize, permute.get b = setup.otRecv.mChoiceBits.get (setup.otIdx i b)
  values : r.mMyPSIValues = (List.range setup.inputSize).map fun i =>
    (List.range setup.inputSize).map (setup.receiverVal i)
  sized : r.mCommits.length = setup.inputSize
  commits : ∀ j < setup.inputSize, j ∈ received → r.mCommits.getD j [] = setup.column j
  remaining : r.mRemainingInputCommits = pending setup.inputSize received

/-- The sender after `CommitRecv` for the indices `received` and `CommitSend` for `sent`. -/
structure SenderOk (received sent : Finset Nat) (s : PsiSender) : Prop where
  word : s.mWordSize = setup.wordSize
  start : s.mOTIdx = setup.otStartIdx
  fresh : ∀ i < setup.inputSize, i ∉ received → s.mTheirPermute.getD i .empty = .empty
  sized : s.mTheirPermute.length = setup.inputSize
  permutes : ∀ i < setup.inputSize, i ∈ received → ∀ b < setup.wordSize,
    (s.mTheirPermute.getD i .empty).get b = setup.permute i b
  remaining : s.mRemainingInputCommits = pending setup.inputSize received
  rows : s.mPseVals.length = setup.inputSize
  columns : ∀ i < setup.inputSize, (s.mPseVals.getD i []).length = setup.inputSize
  values : ∀ i < setup.inputSize, ∀ j < setup.inputSize, j ∈ sent →
    (s.mPseVals.getD i []).getD j zeroBlock = setup.senderVal i j
  remainingVals : s.mRemainingPSIVals = pending setup.inputSize sent

variable {setup} (word : setup.wordSize ≤ 128) {sent received : Finset Nat} {i : Nat}

include word in
theorem copyPermutes_ok (n : Nat) : ∃ permutes,
    copyPermutes n setup.wordSize setup.otRecv setup.otStartIdx = .ok permutes ∧
      ∀ i < n, ∃ permute, permutes[i]? = some permute ∧ permute.mNumBits = setup.wordSize ∧
        ∀ b < setup.wordSize, permute.get b = setup.otRecv.mChoiceBits.get (setup.otIdx i b) := by
  have each (i : Nat) : ∃ permute, BitVector.empty.copy setup.otRecv.mChoiceBits
      (setup.otStartIdx + i * setup.wordSize) setup.wordSize = .ok permute := by
    rw [BitVector.copy_empty]
    obtain ⟨permute, copied, _⟩ := BitVector.append_empty setup.otRecv.mChoiceBits.mData
      (setup.otStartIdx + i * setup.wordSize) (show setup.wordSize + 8 < 2 ^ 31 by omega)
    exact ⟨permute, copied⟩
  obtain ⟨permutes, copied⟩ := mapM_total fun i (_ : i ∈ List.range n) => each i
  obtain ⟨length, entries⟩ := mapM_range_ok copied .empty
  refine ⟨permutes, copied, fun i below => ?_⟩
  obtain ⟨size, read⟩ := BitVector.copy_empty_ok (entries i below)
  have inside : i < permutes.length := length ▸ below
  rw [List.getD_eq_getElem _ _ inside] at size read
  refine ⟨_, List.getElem?_eq_getElem inside, size, fun b bit => ?_⟩
  have inUse : b < 8 * permutes[i].sizeBytes := by
    unfold BitVector.sizeBytes
    omega
  rw [read b inUse]
  simp [bit, PsiSetup.otIdx]

include word in
theorem receiver_init : ∃ r : PsiReceiver Digest,
    PsiReceiver.init setup.aesFixedKey setup.inputSize setup.wordSize setup.otRecv
      setup.otStartIdx = .ok r ∧ ReceiverOk setup ∅ ∅ r := by
  obtain ⟨permutes, copied, entries⟩ := copyPermutes_ok word setup.inputSize
  unfold PsiReceiver.init
  rw [copied]
  refine ⟨_, rfl, rfl, fun i below _ => entries i below, ?_, by simp, by simp, by simp⟩
  apply List.map_congr_left
  intro i _
  unfold PsiReceiver.mask PsiSetup.receiverVal PsiSetup.receiverMask xorSum
  rw [zeroBlock_eq]
  rfl

theorem sender_init : SenderOk setup ∅ ∅
    (PsiSender.init setup.inputSize setup.wordSize setup.otStartIdx) where
  word := rfl
  start := rfl
  fresh i below _ := List.getD_replicate _ below
  sized := List.length_replicate
  permutes _ _ none := absurd none (Finset.notMem_empty _)
  remaining := (pending_empty _).symm
  rows := List.length_replicate
  columns i below := by
    unfold PsiSender.init
    rw [List.getD_replicate _ below, List.length_replicate]
  values _ _ _ _ none := absurd none (Finset.notMem_empty _)
  remainingVals := (pending_empty _).symm

theorem maskInput_spec {w : Nat} (word : w ≤ 128) {permutes : List BitVector} {permute : BitVector}
    (entry : permutes[i]? = some permute) (size : permute.mNumBits = w) (inputBlk : Block) :
    ∃ masked, maskInput w permutes inputBlk i = .ok (permutes.set i masked, masked.bytes) ∧
      masked.mNumBits = w ∧ masked.bytes.length = (w + 7) / 8 ∧
      ∀ b < w, masked.get b = (permute.get b ^^ inputBlk.getLsbD b) ∧
        bit masked.bytes b = masked.get b := by
  obtain ⟨input, made, inputSize, bits⟩ := inputBits_spec inputBlk word
  have bytes : permute.sizeBytes = (w + 7) / 8 := by rw [← size]; rfl
  have inputBytes : input.sizeBytes = (w + 7) / 8 := by rw [← inputSize]; rfl
  refine ⟨_, maskInput_eq entry made, size, ?_, fun b inside => ?_⟩
  · rw [BitVector.bytes_length]
    exact bytes
  · have inBytes : b < 8 * permute.sizeBytes := by omega
    refine ⟨?_, BitVector.bit_bytes (permute.xorAssign input) inBytes⟩
    rw [BitVector.get_xorAssign input inBytes, bits b (by omega)]

include word in
theorem receiver_commitSend {r : PsiReceiver Digest} (ok : ReceiverOk setup sent received r)
    (below : i < setup.inputSize) (fresh : i ∉ sent) : ∃ r' message,
      r.CommitSend (setup.recvSet i) i = .ok (r', message) ∧ Masks setup i message ∧
        ReceiverOk setup (insert i sent) received r' := by
  obtain ⟨permute, entry, size, choices⟩ := ok.permutes i below fresh
  obtain ⟨masked, run, _, length, bits⟩ := maskInput_spec word entry size (setup.recvSet i)
  unfold PsiReceiver.CommitSend
  rw [ok.word, run]
  refine ⟨_, _, rfl, ⟨length, fun b inside => ?_⟩, ?_⟩
  · rw [(bits b inside).2, (bits b inside).1, choices b inside]
    rfl
  · refine { ok with word := rfl, permutes := ?_ }
    intro k element other
    obtain ⟨apart, unsent⟩ := not_or.mp (mt Finset.mem_insert.mpr other)
    have kept := ok.permutes k element unsent
    rwa [← List.getElem?_set_ne (Ne.symm apart)] at kept

theorem receiver_commitRecv {r : PsiReceiver Digest} (ok : ReceiverOk setup sent received r)
    (below : i < setup.inputSize) (fresh : i ∉ received) : ∃ r',
      r.CommitRecv (setup.column i) i = .ok r' ∧ ReceiverOk setup sent (insert i received) r' := by
  have length : (setup.column i).length = r.mCommits.length := by
    rw [ok.sized]
    simp [PsiSetup.column]
  refine ⟨_, if_neg (not_not.mpr length), { ok with sized := ?_, commits := ?_, remaining := ?_ }⟩
  · rw [List.length_set, ok.sized]
  · intro j element member
    by_cases same : i = j
    · subst same
      exact Lists.getD_set_self (by rw [ok.sized]; exact below) _ _
    · have earlier := (Finset.mem_insert.mp member).resolve_left (Ne.symm same)
      rw [Lists.getD_set_ne _ same]
      exact ok.commits j element earlier
  · rw [pending_insert below fresh, ok.remaining]

theorem sender_commitRecv {s : PsiSender} (ok : SenderOk setup received sent s)
    (below : i < setup.inputSize) (fresh : i ∉ received) {message : List Byte}
    (masks : Masks setup i message) : ∃ s',
      s.CommitRecv message i = .ok s' ∧ SenderOk setup (insert i received) sent s' := by
  obtain ⟨permute, run, _, bits⟩ := BitVector.recv_reset masks.length
  unfold PsiSender.CommitRecv
  rw [ok.fresh i below fresh, ok.word, run]
  refine ⟨_, rfl, { ok with
    word := rfl, fresh := ?_, sized := ?_, permutes := ?_, remaining := ?_ }⟩
  · intro k element other
    obtain ⟨apart, unsent⟩ := not_or.mp (mt Finset.mem_insert.mpr other)
    rw [Lists.getD_set_ne _ (Ne.symm apart)]
    exact ok.fresh k element unsent
  · rw [List.length_set, ok.sized]
  · intro k element member b bit
    by_cases same : i = k
    · subst same
      rw [Lists.getD_set_self (by rw [ok.sized]; exact below), bits b bit, masks.bits b bit]
    · have earlier := (Finset.mem_insert.mp member).resolve_left (Ne.symm same)
      rw [Lists.getD_set_ne _ same]
      exact ok.permutes k element earlier b bit
  · rw [pending_insert below fresh, ok.remaining]

theorem sender_mask {s : PsiSender} (ok : SenderOk setup received sent s)
    {input : BitVector} (size : input.mNumBits = setup.wordSize) {j : Nat}
    (bits : ∀ b < 8 * input.sizeBytes, input.get b = (setup.sendSet j).getLsbD b)
    (below : i < setup.inputSize) (member : i ∈ received) :
    s.mask setup.otSend input i = setup.senderMask i j := by
  unfold PsiSender.mask PsiSetup.senderMask xorSum
  rw [ok.word, zeroBlock_eq]
  apply List.foldl_ext
  intro sum b listed
  have bit := List.mem_range.mp listed
  have inUse : b < 8 * input.sizeBytes := by
    unfold BitVector.sizeBytes
    omega
  rw [ok.permutes i below member b bit, bits b inUse, ok.start]
  rfl

include word in
theorem sender_commitSend {s : PsiSender} (ok : SenderOk setup received sent s)
    (all : ∀ k < setup.inputSize, k ∈ received) (below : i < setup.inputSize) (fresh : i ∉ sent) :
    ∃ s', s.CommitSend setup.aesFixedKey setup.Commit setup.otSend (setup.sendSet i) i =
        .ok (s', setup.column i) ∧ SenderOk setup received (insert i sent) s' := by
  obtain ⟨input, made, size, bits⟩ := inputBits_spec (setup.sendSet i) word
  have column : (List.range s.mTheirPermute.length).map (fun j =>
      PRF setup.aesFixedKey (s.mask setup.otSend input j) i) =
        (List.range setup.inputSize).map fun j => setup.senderVal j i := by
    rw [ok.sized]
    apply List.map_congr_left
    intro j listed
    have element := List.mem_range.mp listed
    rw [sender_mask ok size bits element (all j element)]
    rfl
  have committed : ((List.range setup.inputSize).map fun j => setup.senderVal j i).map
      setup.Commit = setup.column i := List.map_map
  have entry (k : Nat) (element : k < setup.inputSize) (f : Nat → List Block → List Block) :
      (s.mPseVals.mapIdx f).getD k [] = f k (s.mPseVals.getD k []) :=
    Lists.getD_mapIdx f (by rw [ok.rows]; exact element) [] []
  unfold PsiSender.CommitSend
  rw [ok.word, made]
  change ∃ s', Except.ok _ = _ ∧ _
  rw [column, committed]
  refine ⟨_, rfl, { ok with
    word := rfl, rows := ?_, columns := ?_, values := ?_, remainingVals := ?_ }⟩
  · rw [List.length_mapIdx, ok.rows]
  · intro k element
    rw [entry k element, List.length_set, ok.columns k element]
  · intro k element j inside member
    rw [entry k element]
    by_cases same : i = j
    · subst same
      rw [Lists.getD_set_self (by rw [ok.columns k element]; exact below),
        Lists.map_range_getD _ _ element]
    · have earlier := (Finset.mem_insert.mp member).resolve_left (Ne.symm same)
      rw [Lists.getD_set_ne _ same]
      exact ok.values k element j inside earlier
  · rw [pending_insert below fresh, ok.remainingVals]

theorem sender_open {s : PsiSender} (ok : SenderOk setup received sent s)
    (all : ∀ k < setup.inputSize, k ∈ sent) (below : i < setup.inputSize) :
    s.open i = setup.row i := by
  have length := ok.columns i below
  unfold PsiSender.open PsiSetup.row
  apply Lists.ext_getD zeroBlock
  · rw [length, List.length_map, List.length_range]
  · intro j inside
    rw [length] at inside
    rw [ok.values i below j inside (all j inside), Lists.map_range_getD _ _ inside]

/-- The loop of `open` meets the commitments it compares with and stops at the first match. -/
theorem receiver_openLoop [DecidableEq Digest] {r : PsiReceiver Digest}
    (ok : ReceiverOk setup sent received r) (all : ∀ k < setup.inputSize, k ∈ received)
    (below : i < setup.inputSize) {js : List Nat} (inside : ∀ j ∈ js, j < setup.inputSize) :
    r.openLoop setup.Commit i (setup.row i) js =
      .ok (js.any fun j => decide (setup.receiverVal i j = setup.senderVal i j)) := by
  induction js with
  | nil => rfl
  | cons j js ih =>
    have element := inside j List.mem_cons_self
    have rest := ih fun k later => inside k (List.mem_cons_of_mem _ later)
    have pse : (setup.row i).getD j zeroBlock = setup.senderVal i j :=
      Lists.map_range_getD _ _ element
    have committed : r.commit j i = some (setup.Commit (setup.senderVal i j)) := by
      unfold PsiReceiver.commit
      rw [ok.commits j element (all j element)]
      unfold PsiSetup.column
      rw [List.getElem?_map, List.getElem?_range below]
      rfl
    have mine : (r.mMyPSIValues.getD i []).getD j zeroBlock = setup.receiverVal i j := by
      rw [ok.values, Lists.map_range_getD _ _ below, Lists.map_range_getD _ _ element]
    unfold PsiReceiver.openLoop
    simp only [pse, committed, mine, ne_eq, not_true_eq_false, if_false]
    by_cases same : setup.receiverVal i j = setup.senderVal i j
    · rw [if_pos same, List.any_cons, decide_eq_true same, Bool.true_or]
    · rw [if_neg same, List.any_cons, decide_eq_false same, Bool.false_or, rest]

theorem receiver_open [DecidableEq Digest] {r : PsiReceiver Digest}
    (ok : ReceiverOk setup sent received r) (all : ∀ k < setup.inputSize, k ∈ received)
    (below : i < setup.inputSize) :
    r.open setup.Commit i (setup.row i) = .ok (setup.found i) := by
  have length : (setup.row i).length = r.mCommits.length := by
    rw [ok.sized]
    simp [PsiSetup.row]
  unfold PsiReceiver.open
  rw [if_neg (not_not.mpr length), ok.sized]
  exact receiver_openLoop ok all below fun j listed => List.mem_range.mp listed

end

end BatchDualEx
