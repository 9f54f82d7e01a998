import BatchDualEx.DualEx.InputConsistency

/- How the evaluator of a bucket gets its input labels: the deltas of `initSend` and
   `initRecv`, the masked k-probe labels of `initKProbeInputSend` and `initKProbeInputRecv`,
   the input correction string of `evaluate`, and the two messages from `sendCircuitInputs`
   to `evalCircuit`. -/
namespace BatchDualEx.Opening

open WordXor Lists Result

variable {Digest : Type}

/-- One bucket of both parties from the deltas to the label buffer of circuit `i`; the sender
    has `role` and `kProbe` is the matrix of the evaluator's input. -/
def offlineOnline [DecidableEq Digest] (Commit : Block → Digest) (kProbe : KProbeMatrix)
    (cir : Circuit) (role : Role) (sender evaluator : Bucket Digest)
    (senderInput evaluatorInput : BitVector) (buffer : List Block) (i : Nat) :
    Except Fault (List Block) := do
  require (senderInput.size = cir.inputs role) (.thrown "input size")
  require (evaluatorInput.size = cir.inputs role.other) (.thrown "input size")
  let sender ← sender.initRecvDeltas kProbe
    (initSendDeltas (evaluator.mMyCircuits.map CircuitPackage.mOTRecvChoices))
  let (sender, masked) ← sender.initKProbeInputSend kProbe
  let evaluator ← evaluator.initKProbeInputRecv Commit cir role.other kProbe masked
  let correction ← (sender.mTheirInputCorrection.reset (cir.inputs role.other)).recv
    (evaluator.inputCorrection evaluatorInput)
  let sender := { sender with mTheirInputCorrection := correction }
  let messages ← sender.sendCircuitInputs cir role senderInput i
  evaluator.receiveLabels cir role.other i buffer messages

/-- What an honest offline phase has fixed between the two buckets: equally many circuits, a
    matrix for the evaluator's input, and OTs that deliver the chosen messages. -/
structure HonestPair (kProbe : KProbeMatrix) (cir : Circuit) (role : Role)
    (sender evaluator : Bucket Digest) : Prop where
  mine : evaluator.mMyCircuits.length = sender.mMyCircuits.length
  theirs : evaluator.mTheirCircuits.length = sender.mMyCircuits.length
  rows : kProbe.n = cir.inputs role.other
  columns : kProbe.n ≤ kProbe.mEncodingSize
  choices : ∀ i < sender.mMyCircuits.length,
    (evaluator.mMyCircuit i).mOTRecvChoices.mNumBits = kProbe.mEncodingSize
  transfer : ∀ i < sender.mMyCircuits.length, ∀ t < kProbe.mEncodingSize,
    (evaluator.mMyCircuit i).OTRecvMsg t =
      sender.OTSendMsg i t ((evaluator.mMyCircuit i).mOTRecvChoices.get t)

theorem takeD_map_range_getD (f : Nat → Block) {n loc t : Nat} (below : t < n)
    (sent : t < loc) :
    (((List.range n).map f).takeD loc zeroBlock).getD t zeroBlock = f t := by
  rw [getD_takeD _ _ _ sent, map_range_getD _ _ below]

section
variable {kProbe : KProbeMatrix} {cir : Circuit} {role : Role}
  {sender evaluator : Bucket Digest} (honest : HonestPair kProbe cir role sender evaluator)
include honest

theorem row_inside {t : Nat} (input : t < cir.inputs role.other) :
    kProbe.h + t < kProbe.mEncodingSize := by
  have rows := honest.rows
  have columns := honest.columns
  unfold KProbeMatrix.n at rows columns
  unfold KProbeMatrix.h
  omega

theorem permutes_spec {updated : Bucket Digest}
    (run : sender.initRecvDeltas kProbe (initSendDeltas
      (evaluator.mMyCircuits.map CircuitPackage.mOTRecvChoices)) = .ok updated) :
    updated = { sender with mTheirPermutes := updated.mTheirPermutes } ∧
      updated.mTheirPermutes.length = sender.mMyCircuits.length - 1 ∧
      ∀ j, j + 1 < sender.mMyCircuits.length → ∀ t < cir.inputs role.other,
        (updated.mTheirPermutes.getD j []).getD t false =
          (kProbe.decodeBit (evaluator.mMyCircuit 0).mOTRecvChoices.bits t ^^
            kProbe.decodeBit (evaluator.mMyCircuit (j + 1)).mOTRecvChoices.bits t) := by
  have sizes : ∀ p ∈ evaluator.mMyCircuits, p.mOTRecvChoices.mNumBits = kProbe.encodingSize := by
    intro p listed
    obtain ⟨i, position⟩ := List.mem_iff_getElem?.mp listed
    have inside := (List.getElem?_eq_some_iff.mp position).1
    rw [← Bucket.mMyCircuit_eq position]
    exact honest.choices i (honest.mine ▸ inside)
  obtain ⟨kept, length, permutes⟩ := initRecvDeltas_permutes sizes run
  refine ⟨kept, length.trans (congrArg (· - 1) honest.mine), fun j later t input => ?_⟩
  have listed (i : Nat) (inside : i < sender.mMyCircuits.length) :=
    Bucket.getElem?_mMyCircuit (honest.mine.symm ▸ inside : i < evaluator.mMyCircuits.length)
  obtain ⟨_, out⟩ := KProbeMatrix.decodeBits_ok
    (permutes j _ _ (listed 0 (by omega)) (listed (j + 1) later))
  have zero := (BitVector.bits_length _).trans (honest.choices 0 (by omega))
  have other := (BitVector.bits_length _).trans (honest.choices (j + 1) later)
  rw [out, map_range_getD _ _ (by rw [honest.rows]; exact input)]
  exact kProbe.decodeBit_xor (row_inside honest input) fun s below =>
    xorBits_getD (zero.trans other.symm) s

theorem maskedLabels_spec {updated : Bucket Digest} {messages : List (List (Block × Block))}
    (filled : sender.mTheirPermutes.length = sender.mMyCircuits.length - 1)
    (run : sender.initKProbeInputSend kProbe = .ok (updated, messages)) :
    updated = { sender with mTheirInputOffsets := updated.mTheirInputOffsets } ∧
      ∀ i < sender.mMyCircuits.length,
        messages.getD i [] = sender.maskedLabels kProbe i ∧
        ∀ t < cir.inputs role.other, (updated.mTheirInputOffsets.getD i []).getD t zeroBlock =
          kProbe.decodeLabel (sender.mMyCircuit i).mKProbeInputs t := by
  unfold Bucket.initKProbeInputSend at run
  obtain ⟨offsets, decoded, run⟩ := Result.bind_ok run
  cases run
  obtain ⟨_, each⟩ := Result.mapM_range_ok decoded []
  refine ⟨rfl, fun i circuit => ⟨map_range_getD _ _ (by omega), fun t input => ?_⟩⟩
  obtain ⟨_, out⟩ := KProbeMatrix.decodeLabels_ok (each i (by omega))
  simp only
  rw [out, map_range_getD _ _ (by rw [honest.rows]; exact input)]

end

section
variable [DecidableEq Digest] {Commit : Block → Digest} {kProbe : KProbeMatrix} {cir : Circuit}
  {role : Role} {sender evaluator : Bucket Digest}

theorem unmaskLabel_ok {b : Bucket Digest} {i t : Nat} {message : List (Block × Block)}
    {label : Block} (run : b.unmaskLabel Commit i message t = .ok label) :
    label = b.unmasked i message t := by
  unfold Bucket.unmaskLabel at run
  split at run
  · exact nomatch run
  · cases run
    rfl

omit [DecidableEq Digest] in
theorem unmasked_eq (honest : HonestPair kProbe cir role sender evaluator) {i t : Nat}
    (circuit : i < sender.mMyCircuits.length) (bit : t < kProbe.mEncodingSize) :
    evaluator.unmasked i (sender.maskedLabels kProbe i) t =
      (sender.mMyCircuit i).mKProbeInputs.getD t zeroBlock ^^^
        select ((evaluator.mMyCircuit i).mOTRecvChoices.get t)
          (sender.mMyCircuit i).mCircuit.mGlobalOffset := by
  have sent : t < kProbe.encodingSize := bit
  unfold Bucket.unmasked Bucket.maskedLabels
  rw [map_range_getD _ _ sent, honest.transfer i circuit t bit]
  cases (evaluator.mMyCircuit i).mOTRecvChoices.get t <;>
    simp [pick, BitVec.xor_comm, xor_left_comm]

theorem decodeCircuit_ok {b : Bucket Digest} {i : Nat} {messages : List (List (Block × Block))}
    {decoded : List Block} (run : b.decodeCircuit Commit cir role kProbe messages i = .ok decoded) :
    ∃ labels, (List.range kProbe.encodingSize).mapM
        (b.unmaskLabel Commit i (messages.getD i [])) = .ok labels ∧
      (messages.getD i []).length = kProbe.encodingSize ∧ kProbe.n ≤ cir.inputs role ∧
      decoded = ((List.range kProbe.n).map (kProbe.decodeLabel labels)).takeD (cir.inputs role)
        zeroBlock := by
  obtain ⟨sized, run⟩ := then_ok_iff.mp run
  obtain ⟨labels, unmasked, run⟩ := bind_ok run
  obtain ⟨out, decoding, run⟩ := bind_ok run
  obtain ⟨room, run⟩ := then_ok_iff.mp run
  obtain ⟨_, _, run⟩ := bind_ok run
  obtain ⟨_, rfl⟩ := KProbeMatrix.decodeLabels_ok decoding
  cases run
  rw [require_ok_iff] at sized room
  exact ⟨labels, unmasked, sized, by simpa using room, rfl⟩

/-- The evaluator's decoded labels are those of the sender, shifted by its decoded choices. -/
theorem decoded_spec (honest : HonestPair kProbe cir role sender evaluator)
    {updated : Bucket Digest} {messages : List (List (Block × Block))}
    (sent : ∀ i < sender.mMyCircuits.length,
      messages.getD i [] = sender.maskedLabels kProbe i)
    (run : evaluator.initKProbeInputRecv Commit cir role.other kProbe messages = .ok updated) :
    (∀ t < cir.inputs role.other, updated.mInputCorrectionString.get t =
        kProbe.decodeBit (evaluator.mMyCircuit 0).mOTRecvChoices.bits t) ∧
      updated.mInputCorrectionString.mNumBits = cir.inputs role.other ∧
      ∀ i < sender.mMyCircuits.length,
        (updated.mMyDecodedKProbeLabels.getD i []).length = cir.inputs role.other ∧
        ∀ t < cir.inputs role.other,
          (updated.mMyDecodedKProbeLabels.getD i []).getD t zeroBlock =
            kProbe.decodeLabel (sender.mMyCircuit i).mKProbeInputs t ^^^
              select (kProbe.decodeBit (evaluator.mMyCircuit i).mOTRecvChoices.bits t)
                (sender.mMyCircuit i).mCircuit.mGlobalOffset := by
  obtain ⟨correction, first, run⟩ := bind_ok run
  obtain ⟨decoded, all, run⟩ := bind_ok run
  cases run
  obtain ⟨_, rfl⟩ := KProbeMatrix.decodeBits_ok first
  obtain ⟨_, each⟩ := mapM_range_ok all []
  rw [honest.theirs] at each
  obtain ⟨size, written⟩ := writeBits_spec (BitVector.empty.reset (cir.inputs role.other))
    ((List.range kProbe.n).map
      (kProbe.decodeBit (evaluator.mMyCircuit 0).mOTRecvChoices.bits))
  rw [List.length_map, List.length_range] at size written
  refine ⟨fun t input => ?_, size.trans honest.rows, fun i circuit => ?_⟩
  · have row : t < kProbe.n := honest.rows.symm ▸ input
    exact (written t row).trans (map_range_getD _ _ row)
  · obtain ⟨labels, unmasked, _, _, out⟩ := decodeCircuit_ok (each i circuit)
    obtain ⟨_, labelOf⟩ := mapM_range_ok unmasked zeroBlock
    simp only [out]
    refine ⟨List.takeD_length _ _ _, fun t input => ?_⟩
    rw [takeD_map_range_getD _ (honest.rows.symm ▸ input) input]
    apply kProbe.decodeLabel_shift (row_inside honest input)
    intro s below
    have masked := labelOf s below
    rw [sent i circuit] at masked
    rw [bits_getD (honest.choices i circuit ▸ below), unmaskLabel_ok masked]
    exact unmasked_eq honest circuit below

end

/-- The label buffer holds the received labels of the other party and, on my wires, the sums
    of the decoded labels and the received corrections. -/
theorem receiveLabels_spec {cir : Circuit} {role : Role} {b : Bucket Digest} {i : Nat}
    {buffer labels : List Block} {messages : EvalMessages}
    (room : cir.inputWireCount ≤ buffer.length)
    (sized : (b.mMyDecodedKProbeLabels.getD i []).length = cir.inputs role)
    (run : b.receiveLabels cir role i buffer messages = .ok labels) :
    messages.theirLabels.length = cir.inputs role.other ∧
      messages.corrections.length = cir.inputs role ∧
      (∀ t < cir.inputs role.other, labels.getD (cir.start role.other + t) zeroBlock =
        messages.theirLabels.getD t zeroBlock) ∧
      ∀ t < cir.inputs role, labels.getD (cir.start role + t) zeroBlock =
        (b.mMyDecodedKProbeLabels.getD i []).getD t zeroBlock ^^^
          messages.corrections.getD t zeroBlock := by
  obtain ⟨theirs, gotTheirs, afterTheirs⟩ := bind_ok run
  obtain ⟨mine, gotMine, afterMine⟩ := bind_ok afterTheirs
  cases afterMine
  obtain ⟨theirsSize, rfl⟩ := recvBlocks_ok gotTheirs
  obtain ⟨mineSize, rfl⟩ := recvBlocks_ok gotMine
  have apart := cir.inputs_apart role
  have inside := cir.start_inputs_le role
  have otherInside := cir.start_inputs_le role.other
  refine ⟨theirsSize, mineSize, fun t input => ?_, fun t input => ?_⟩
  · have last : t < messages.theirLabels.length := by omega
    rw [writeAt_outside, writeAt_outside, writeAt_inside last]
    all_goals first
      | omega
      | simp only [writeAt_length, List.length_map, List.length_range]; omega
  · rw [writeAt_inside, map_range_getD _ _ (by omega), writeAt_inside]
    all_goals first
      | omega
      | simp only [writeAt_length, List.length_map, List.length_range]; omega

/-- The decoded label and the correction leave the circuit's label of the input bit. -/
theorem correction_cancels (label wire offset : Block) (choice bit : Bool) :
    label ^^^ select choice offset ^^^ (label ^^^ wire ^^^ select (choice ^^ bit) offset) =
      wire ^^^ select bit offset := by
  cases choice <;> cases bit <;>
    simp [BitVec.xor_assoc, xor_left_comm, BitVec.xor_comm wire]

theorem received_correction {n : Nat} {correction input v w : BitVector}
    (size : correction.mNumBits = n)
    (received : (v.reset n).recv (correction.xorAssign input).bytes = .ok w) :
    w.mNumBits = n ∧ ∀ t < n, w.get t = (correction.get t ^^ input.get t) := by
  have bytes : correction.sizeBytes = (n + 7) / 8 := by
    unfold BitVector.sizeBytes
    rw [size]
  obtain ⟨w', received', count, read⟩ := BitVector.recv_reset (v := v)
    ((BitVector.bytes_length (correction.xorAssign input)).trans bytes)
  cases received.symm.trans received'
  refine ⟨count, fun t below => ?_⟩
  have inside : t < 8 * correction.sizeBytes := by omega
  rw [read t below, BitVector.bit_bytes (correction.xorAssign input) inside,
    BitVector.get_xorAssign _ inside]

theorem cancel_bits : ∀ a b x : Bool, ((a ^^ x) ^^ (a ^^ b)) = (b ^^ x) := by decide

/-- The delta of a circuit turns the correction for circuit 0 into that for the circuit. -/
theorem correctionBit_spec {b : Bucket Digest} (choices : Nat → Bool) {t : Nat} {x : Bool}
    (first : b.mTheirInputCorrection.get t = (choices 0 ^^ x)) {i : Nat}
    (deltas : ∀ j, j + 1 = i →
      (b.mTheirPermutes.getD j []).getD t false = (choices 0 ^^ choices (j + 1))) :
    b.correctionBit i t = (choices i ^^ x) := by
  unfold Bucket.correctionBit
  cases i with
  | zero => exact first
  | succ j =>
    rw [if_neg (Nat.succ_ne_zero j), Nat.add_sub_cancel, first, deltas j rfl]
    exact cancel_bits _ _ _

/-- In every run that raises nothing, every input wire of every circuit of the bucket ends up
    with its zero label moved by the input bit times the offset of that circuit. -/
theorem assembled_labels_correct [DecidableEq Digest] {Commit : Block → Digest}
    {kProbe : KProbeMatrix} {cir : Circuit} {role : Role} {sender evaluator : Bucket Digest}
    (honest : HonestPair kProbe cir role sender evaluator)
    {senderInput evaluatorInput : BitVector} {buffer : List Block}
    (room : cir.inputWireCount ≤ buffer.length) {i : Nat}
    (circuit : i < sender.mMyCircuits.length) {labels : List Block}
    (run : offlineOnline Commit kProbe cir role sender evaluator senderInput evaluatorInput
      buffer i = .ok labels) :
    (∀ t < cir.inputs role, labels.getD (cir.start role + t) zeroBlock =
      (sender.mMyCircuit i).mCircuit.mInputWires.getD (cir.start role + t) zeroBlock ^^^
        select (senderInput.get t) (sender.mMyCircuit i).mCircuit.mGlobalOffset) ∧
    ∀ t < cir.inputs role.other, labels.getD (cir.start role.other + t) zeroBlock =
      (sender.mMyCircuit i).mCircuit.mInputWires.getD (cir.start role.other + t) zeroBlock ^^^
        select (evaluatorInput.get t) (sender.mMyCircuit i).mCircuit.mGlobalOffset := by
  obtain ⟨_, run⟩ := then_ok_iff.mp run
  obtain ⟨_, run⟩ := then_ok_iff.mp run
  obtain ⟨sender₁, deltas, run⟩ := bind_ok run
  obtain ⟨⟨sender₂, masked⟩, sent, run⟩ := bind_ok run
  obtain ⟨evaluator₁, received, run⟩ := bind_ok run
  obtain ⟨correction, arrived, run⟩ := bind_ok run
  obtain ⟨messages, sending, run⟩ := bind_ok run
  obtain ⟨theirLabels, mine, sending⟩ := bind_ok sending
  obtain ⟨corrections, theirs, sending⟩ := bind_ok sending
  cases sending
  obtain ⟨keeps₁, permutesLength, permutes⟩ := permutes_spec honest deltas
  rw [keeps₁] at sent
  have honest₁ : HonestPair kProbe cir role
      { sender with mTheirPermutes := sender₁.mTheirPermutes } evaluator :=
    ⟨honest.mine, honest.theirs, honest.rows, honest.columns, honest.choices, honest.transfer⟩
  obtain ⟨keeps₂, offsets⟩ := maskedLabels_spec honest₁ permutesLength sent
  obtain ⟨corrects, correctionSize, decoded⟩ :=
    decoded_spec honest₁ (fun j below => (offsets j below).1) received
  obtain ⟨decodedLength, decodedLabel⟩ := decoded i circuit
  obtain ⟨theirsSize, mineSize, onTheirs, onMine⟩ := receiveLabels_spec room decodedLength run
  rw [Role.other_other] at theirsSize onTheirs
  obtain ⟨_, mineSent⟩ := setp_ok mine
  obtain ⟨_, theirsSent⟩ := setp_ok theirs
  rw [keeps₂] at mineSent theirsSent
  obtain ⟨_, online⟩ := received_correction correctionSize arrived
  simp only at theirsSize mineSize onTheirs onMine
  refine ⟨fun t input => ?_, fun t input => ?_⟩
  · rw [onTheirs t input, mineSent, takeD_map_range_getD _ input input]
    rfl
  · have message : t < cir.inputs role := by
      rw [theirsSent, List.takeD_length] at mineSize
      omega
    have shift := correctionBit_spec (b := { sender with
        mTheirPermutes := sender₁.mTheirPermutes
        mTheirInputOffsets := sender₂.mTheirInputOffsets
        mTheirInputCorrection := correction })
      (fun i => kProbe.decodeBit (evaluator.mMyCircuit i).mOTRecvChoices.bits t)
      (x := evaluatorInput.get t) (by rw [← corrects t input]; exact online t input) (i := i)
      fun j later => permutes j (by omega) t input
    rw [onMine t input, decodedLabel t input, theirsSent, takeD_map_range_getD _ input message,
      shift, (offsets i circuit).2 t input]
    exact correction_cancels _ _ _ _ _

/-- A bucket of two circuits with one input bit on either side, and its OT messages. -/
def twoCircuitMessages (i t : Nat) (bit : Bool) : Block :=
  BitVec.ofNat 128 (16 * i + 2 * t + bit.toNat + 3)

def twoCircuitChoices : Nat → BitVector
  | 0 => writeBits .empty [true, false, true]
  | _ => writeBits .empty [true, true, false]

def twoCircuitPackage (mInputWires : List Block) (mGlobalOffset : Block)
    (mKProbeInputs : List Block) : CircuitPackage :=
  { CircuitPackage.new with
    mCircuit := ⟨mGlobalOffset, mInputWires, [], [], []⟩
    mKProbeInputs := mKProbeInputs }

def twoCircuitReceiver (i : Nat) : CircuitPackage :=
  { CircuitPackage.new with
    mRecvOT := ⟨.empty, fun t => twoCircuitMessages i t ((twoCircuitChoices i).get t)⟩
    mOTRecvChoices := twoCircuitChoices i }

def twoCircuitComm (i : Nat) (mMyKProbeInputCommit : List (Block × Block)) :
    CommCircuitPackage Block :=
  ⟨⟨0, [], [], [], []⟩, mMyKProbeInputCommit, 0, [], ⟨twoCircuitMessages i⟩, 0, 3⟩

def twoCircuitSender : Bucket Block :=
  { (Bucket.new : Bucket Block) with
    mMyCircuits := [twoCircuitPackage [5, 6] 3 [1, 2, 4], twoCircuitPackage [8, 9] 7 [3, 1, 2]]
    mTheirCircuits := [twoCircuitComm 0 [], twoCircuitComm 1 []] }

def twoCircuitEvaluator : Bucket Block :=
  { (Bucket.new : Bucket Block) with
    mMyCircuits := [twoCircuitReceiver 0, twoCircuitReceiver 1]
    mTheirCircuits := [
      twoCircuitComm 0 [(~~~1, ~~~(1 ^^^ 3)), (~~~2, ~~~(2 ^^^ 3)), (~~~4, ~~~(4 ^^^ 3))],
      twoCircuitComm 1 [(~~~3, ~~~(3 ^^^ 7)), (~~~1, ~~~(1 ^^^ 7)), (~~~2, ~~~(2 ^^^ 7))]] }

def twoInputCircuit : Circuit := ⟨3, 1, 1, (1, 1), [⟨0, 1, 2, .and⟩], [2]⟩

theorem twoCircuit_honest : HonestPair ⟨[[true, false]], 3⟩ twoInputCircuit .first
    twoCircuitSender twoCircuitEvaluator := by
  constructor <;> decide

def oneBit (bit : Bool) : BitVector := writeBits .empty [bit]

theorem twoCircuit_runs : ∃ labels, offlineOnline (~~~ ·) ⟨[[true, false]], 3⟩ twoInputCircuit
    .first twoCircuitSender twoCircuitEvaluator (oneBit true) (oneBit false) [0, 0, 0] 1 =
      .ok labels :=
  ⟨_, rfl⟩

theorem assembled_labels_two_circuits :
    ∃ labels, offlineOnline (~~~ ·) ⟨[[true, false]], 3⟩ twoInputCircuit .first twoCircuitSender
        twoCircuitEvaluator (oneBit true) (oneBit false) [0, 0, 0] 1 = .ok labels ∧
      (∀ t < twoInputCircuit.inputs .first,
        labels.getD (twoInputCircuit.start .first + t) zeroBlock =
          (twoCircuitSender.mMyCircuit 1).mCircuit.mInputWires.getD
              (twoInputCircuit.start .first + t) zeroBlock ^^^
            select ((oneBit true).get t) (twoCircuitSender.mMyCircuit 1).mCircuit.mGlobalOffset) ∧
      ∀ t < twoInputCircuit.inputs Role.first.other,
        labels.getD (twoInputCircuit.start Role.first.other + t) zeroBlock =
          (twoCircuitSender.mMyCircuit 1).mCircuit.mInputWires.getD
              (twoInputCircuit.start Role.first.other + t) zeroBlock ^^^
            select ((oneBit false).get t)
              (twoCircuitSender.mMyCircuit 1).mCircuit.mGlobalOffset := by
  obtain ⟨labels, run⟩ := twoCircuit_runs
  exact ⟨labels, run, assembled_labels_correct twoCircuit_honest (by decide) (by decide) run⟩

end BatchDualEx.Opening
