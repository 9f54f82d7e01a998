import BatchDualEx.DualEx.BucketLabels

/- Which messages `Bucket::initKProbeInputRecv` accepts, and what it decodes from them. -/
namespace BatchDualEx.Opening

open WordXor Lists Result

variable {Digest : Type}

/-- The other party has committed to the k-probe labels `K` and their shifts by `D`, circuit by
    circuit, and the own choices are encodings of an input. -/
structure ProbeCommitted (Commit : Block → Digest) (cir : Circuit) (role : Role)
    (myKProbe : KProbeMatrix) (b : Bucket Digest) (K : Nat → List Block) (D : Nat → Block) :
    Prop where
  nonempty : 0 < b.mTheirCircuits.length
  bucketed : b.mMyCircuits.length = b.mTheirCircuits.length
  rows : myKProbe.n = cir.inputs role
  columns : myKProbe.n ≤ myKProbe.encodingSize
  choices : ∀ i < b.mTheirCircuits.length,
    (b.mMyCircuit i).mOTRecvChoices.mNumBits = myKProbe.encodingSize
  labels : ∀ i < b.mTheirCircuits.length, (K i).length = myKProbe.encodingSize
  commits : ∀ i < b.mTheirCircuits.length,
    b.mTheirCircuits[i]?.map CommCircuitPackage.mMyKProbeInputCommit =
      some ((K i).map fun label => (Commit label, Commit (label ^^^ D i)))

def Bucket.receivedBlock (b : Bucket Digest) (i : Nat) (message : List (Block × Block))
    (t : Nat) : Block :=
  pick ((b.mMyCircuit i).mOTRecvChoices.get t) (message.getD t (zeroBlock, zeroBlock))

structure Bucket.Unmasks (myKProbe : KProbeMatrix) (b : Bucket Digest) (i : Nat)
    (message : List (Block × Block)) (K : List Block) (D : Block) : Prop where
  sized : message.length = myKProbe.encodingSize
  opens : ∀ t < myKProbe.encodingSize, b.receivedBlock i message t =
    (b.mMyCircuit i).OTRecvMsg t ^^^ K.getD t zeroBlock ^^^
      select ((b.mMyCircuit i).mOTRecvChoices.get t) D

section
variable {Commit : Block → Digest} {cir : Circuit} {role : Role} {myKProbe : KProbeMatrix}
  {b : Bucket Digest} {K : Nat → List Block} {D : Nat → Block}

theorem ProbeCommitted.kProbeCommit_eq (committed : ProbeCommitted Commit cir role myKProbe b K D)
    {i t : Nat} (circuit : i < b.mTheirCircuits.length) (bit : t < myKProbe.encodingSize) :
    b.kProbeCommit i t = some (Commit ((K i).getD t zeroBlock ^^^
      select ((b.mMyCircuit i).mOTRecvChoices.get t) (D i))) := by
  have inside : t < (K i).length := by
    rw [committed.labels i circuit]
    exact bit
  obtain ⟨c, listed, commits⟩ := Option.map_eq_some_iff.mp (committed.commits i circuit)
  have entry : c.mMyKProbeInputCommit[t]? =
      some (Commit (K i)[t], Commit ((K i)[t] ^^^ D i)) := by
    rw [commits, List.getElem?_map, List.getElem?_eq_getElem inside, Option.map_some]
  unfold Bucket.kProbeCommit
  rw [listed, Option.bind_eq_bind, Option.bind_some, entry, Option.bind_eq_bind, Option.bind_some,
    List.getD_eq_getElem _ _ inside]
  cases (b.mMyCircuit i).mOTRecvChoices.get t <;> simp [pick]

/-- Unmasking with the OT message is an involution. -/
theorem unmasked_eq_iff {i t : Nat} {message : List (Block × Block)} {label : Block} :
    b.unmasked i message t = label ↔
      b.receivedBlock i message t = (b.mMyCircuit i).OTRecvMsg t ^^^ label := by
  have split : b.unmasked i message t =
      b.receivedBlock i message t ^^^ (b.mMyCircuit i).OTRecvMsg t := rfl
  rw [split]
  constructor
  · intro unmasked
    rw [← unmasked, BitVec.xor_comm, BitVec.xor_assoc, BitVec.xor_self, BitVec.xor_zero]
  · intro received
    rw [received, BitVec.xor_comm, xor_cancel_left]

variable [DecidableEq Digest]

theorem unmaskLabel_iff (committed : ProbeCommitted Commit cir role myKProbe b K D)
    (binding : Function.Injective Commit) {i t : Nat} (circuit : i < b.mTheirCircuits.length)
    (bit : t < myKProbe.encodingSize) {message : List (Block × Block)} :
    (∃ label, b.unmaskLabel Commit i message t = .ok label) ↔
      b.receivedBlock i message t = (b.mMyCircuit i).OTRecvMsg t ^^^ (K i).getD t zeroBlock ^^^
        select ((b.mMyCircuit i).mOTRecvChoices.get t) (D i) := by
  rw [BitVec.xor_assoc, ← unmasked_eq_iff]
  unfold Bucket.unmaskLabel
  rw [committed.kProbeCommit_eq circuit bit]
  by_cases opened : b.unmasked i message t = (K i).getD t zeroBlock ^^^
      select ((b.mMyCircuit i).mOTRecvChoices.get t) (D i)
  · simp [opened]
  · have refused : Commit (b.unmasked i message t) ≠ Commit ((K i).getD t zeroBlock ^^^
        select ((b.mMyCircuit i).mOTRecvChoices.get t) (D i)) :=
      fun same => opened (binding same)
    rw [if_pos fun same => refused (Option.some.inj same)]
    constructor
    · intro ⟨label, run⟩
      cases run
    · intro same
      exact absurd same opened

theorem decodeLabels_total {encoding : List Block}
    (sized : encoding.length = myKProbe.mEncodingSize) : myKProbe.decodeLabels encoding =
      .ok ((List.range myKProbe.n).map (myKProbe.decodeLabel encoding)) := by
  unfold KProbeMatrix.decodeLabels
  rw [if_neg (not_not.mpr sized)]

theorem decodeBits_total {encoding : List Bool}
    (sized : encoding.length = myKProbe.mEncodingSize) : myKProbe.decodeBits encoding =
      .ok ((List.range myKProbe.n).map (myKProbe.decodeBit encoding)) := by
  unfold KProbeMatrix.decodeBits
  rw [if_neg (not_not.mpr sized)]

theorem decodeCircuit_run (committed : ProbeCommitted Commit cir role myKProbe b K D) {i : Nat}
    (circuit : i < b.mTheirCircuits.length) {messages : List (List (Block × Block))}
    (unmasks : b.Unmasks myKProbe i (messages.getD i []) (K i) (D i)) {labels : List Block}
    (unmasked : (List.range myKProbe.encodingSize).mapM
      (b.unmaskLabel Commit i (messages.getD i [])) = .ok labels) :
    b.decodeCircuit Commit cir role myKProbe messages i =
      .ok (((List.range myKProbe.n).map (myKProbe.decodeLabel labels)).takeD (cir.inputs role)
        zeroBlock) := by
  have sized := (mapM_range_ok unmasked zeroBlock).1
  have choices := (BitVector.bits_length _).trans (committed.choices i circuit)
  refine then_ok_iff.mpr ⟨require_ok_iff.mpr unmasks.sized, bind_ok_iff.mpr ⟨labels, unmasked,
    bind_ok_iff.mpr ⟨_, decodeLabels_total sized, then_ok_iff.mpr ⟨require_ok_iff.mpr ?_,
      bind_ok_iff.mpr ⟨_, decodeBits_total choices, rfl⟩⟩⟩⟩⟩
  rw [List.length_map, List.length_range]
  exact Nat.le_of_eq committed.rows

theorem decodeCircuit_iff (committed : ProbeCommitted Commit cir role myKProbe b K D)
    (binding : Function.Injective Commit) {i : Nat} (circuit : i < b.mTheirCircuits.length)
    {messages : List (List (Block × Block))} :
    (∃ decoded, b.decodeCircuit Commit cir role myKProbe messages i = .ok decoded) ↔
      b.Unmasks myKProbe i (messages.getD i []) (K i) (D i) := by
  constructor
  · rintro ⟨decoded, run⟩
    obtain ⟨labels, unmasked, sized, _⟩ := decodeCircuit_ok run
    obtain ⟨_, each⟩ := mapM_range_ok unmasked zeroBlock
    exact ⟨sized, fun t bit =>
      (unmaskLabel_iff committed binding circuit bit).mp ⟨_, each t bit⟩⟩
  · intro unmasks
    obtain ⟨labels, unmasked⟩ := mapM_range_total fun t (bit : t < myKProbe.encodingSize) =>
      (unmaskLabel_iff committed binding circuit bit).mpr (unmasks.opens t bit)
    exact ⟨_, decodeCircuit_run committed circuit unmasks unmasked⟩

theorem decodeCircuit_spec (committed : ProbeCommitted Commit cir role myKProbe b K D)
    {i : Nat} (circuit : i < b.mTheirCircuits.length) {messages : List (List (Block × Block))}
    (unmasks : b.Unmasks myKProbe i (messages.getD i []) (K i) (D i)) {decoded : List Block}
    (run : b.decodeCircuit Commit cir role myKProbe messages i = .ok decoded) :
    decoded = (List.range myKProbe.n).map fun t => myKProbe.decodeLabel (K i) t ^^^
      select (myKProbe.decodeBit (b.mMyCircuit i).mOTRecvChoices.bits t) (D i) := by
  obtain ⟨labels, unmasked, _, _, rfl⟩ := decodeCircuit_ok run
  obtain ⟨_, labelOf⟩ := mapM_range_ok unmasked zeroBlock
  rw [← committed.rows, List.takeD_eq_take _ (by simp), List.take_of_length_le (by simp)]
  apply List.map_congr_left
  intro t row
  apply myKProbe.decodeLabel_shift
  · have columns := committed.columns
    have row := List.mem_range.mp row
    unfold KProbeMatrix.n KProbeMatrix.encodingSize at *
    unfold KProbeMatrix.h
    omega
  · intro s below
    rw [bits_getD (committed.choices i circuit ▸ below), unmaskLabel_ok (labelOf s below),
      unmasked_eq_iff, ← BitVec.xor_assoc]
    exact unmasks.opens s below

omit [DecidableEq Digest] in
/-- The messages of the honest sender open every choice. -/
theorem maskedLabels_unmask {sender : Bucket Digest}
    (honest : HonestPair myKProbe cir role sender b) {i : Nat}
    (circuit : i < sender.mMyCircuits.length) :
    b.Unmasks myKProbe i (sender.maskedLabels myKProbe i) (sender.mMyCircuit i).mKProbeInputs
      (sender.mMyCircuit i).mCircuit.mGlobalOffset := by
  refine ⟨by simp [Bucket.maskedLabels], fun t bit => ?_⟩
  rw [BitVec.xor_assoc]
  exact unmasked_eq_iff.mp (unmasked_eq honest circuit bit)

/-- `initKProbeInputRecv` returns exactly on the messages that open every choice in every
    circuit, then holds the decoded labels, and returns on those of an honest sender. -/
theorem initKProbeInputRecv_correct (committed : ProbeCommitted Commit cir role myKProbe b K D)
    (binding : Function.Injective Commit) (messages : List (List (Block × Block))) :
    ((∃ updated, b.initKProbeInputRecv Commit cir role myKProbe messages = .ok updated) ↔
      ∀ i < b.mTheirCircuits.length, b.Unmasks myKProbe i (messages.getD i []) (K i) (D i)) ∧
    (∀ updated, b.initKProbeInputRecv Commit cir role myKProbe messages = .ok updated →
      updated.mInputCorrectionString.bits = (List.range myKProbe.n).map
        (myKProbe.decodeBit (b.mMyCircuit 0).mOTRecvChoices.bits) ∧
      updated.mMyDecodedKProbeLabels = (List.range b.mTheirCircuits.length).map fun i =>
        (List.range myKProbe.n).map fun t => myKProbe.decodeLabel (K i) t ^^^
          select (myKProbe.decodeBit (b.mMyCircuit i).mOTRecvChoices.bits t) (D i)) ∧
    ∀ sender : Bucket Digest, HonestPair myKProbe cir role.other sender b →
      sender.mTheirPermutes.length = sender.mMyCircuits.length - 1 →
      (∀ i < sender.mMyCircuits.length, (sender.mMyCircuit i).mKProbeInputs = K i ∧
        (sender.mMyCircuit i).mCircuit.mGlobalOffset = D i) →
      ∃ sent masked updated, sender.initKProbeInputSend myKProbe = .ok (sent, masked) ∧
        b.initKProbeInputRecv Commit cir role myKProbe masked = .ok updated := by
  have first := (BitVector.bits_length _).trans (committed.choices 0 committed.nonempty)
  have accepts (messages : List (List (Block × Block))) :
      (∃ updated, b.initKProbeInputRecv Commit cir role myKProbe messages = .ok updated) ↔
        ∀ i < b.mTheirCircuits.length, b.Unmasks myKProbe i (messages.getD i []) (K i) (D i) := by
    unfold Bucket.initKProbeInputRecv
    rw [decodeBits_total first]
    constructor
    · intro ⟨updated, run⟩ i circuit
      obtain ⟨_, _, run⟩ := bind_ok run
      obtain ⟨decoded, all, _⟩ := bind_ok run
      exact (decodeCircuit_iff committed binding circuit).mp ⟨_, (mapM_range_ok all []).2 i circuit⟩
    · intro unmasks
      obtain ⟨decoded, all⟩ := mapM_range_total fun i (circuit : i < b.mTheirCircuits.length) =>
        (decodeCircuit_iff committed binding circuit).mpr (unmasks i circuit)
      exact ⟨_, bind_ok_iff.mpr ⟨_, rfl, bind_ok_iff.mpr ⟨decoded, all, rfl⟩⟩⟩
  refine ⟨accepts messages, ?_, ?_⟩
  · intro updated run
    have unmasks := (accepts messages).mp ⟨updated, run⟩
    obtain ⟨correction, decoding, run⟩ := bind_ok run
    obtain ⟨decoded, all, run⟩ := bind_ok run
    cases run
    obtain ⟨count, each⟩ := mapM_range_ok all []
    refine ⟨?_, ext_getD [] (by simpa using count) ?_⟩
    · rw [← (KProbeMatrix.decodeBits_ok decoding).2]
      exact writeBits_bits _ _
    · intro i circuit
      rw [count] at circuit
      rw [map_range_getD _ _ circuit]
      exact decodeCircuit_spec committed circuit (unmasks i circuit) (each i circuit)
  · intro sender honest filled same
    have count := honest.theirs
    have nonempty := committed.nonempty
    obtain ⟨offsets, decoded⟩ := mapM_range_total (n := 1 + sender.mTheirPermutes.length)
      (f := fun i => myKProbe.decodeLabels (sender.mMyCircuit i).mKProbeInputs) fun i circuit => by
        rw [(same i (by omega)).1]
        exact ⟨_, decodeLabels_total (committed.labels i (by omega))⟩
    have sent : sender.initKProbeInputSend myKProbe =
        .ok ({ sender with mTheirInputOffsets := offsets },
          (List.range (1 + sender.mTheirPermutes.length)).map (sender.maskedLabels myKProbe)) :=
      bind_ok_iff.mpr ⟨offsets, decoded, rfl⟩
    obtain ⟨updated, received⟩ := (accepts ((List.range (1 + sender.mTheirPermutes.length)).map
        (sender.maskedLabels myKProbe))).mpr fun i circuit => by
      rw [map_range_getD _ _ (by omega), ← (same i (by omega)).1, ← (same i (by omega)).2]
      exact maskedLabels_unmask honest (by omega)
    exact ⟨_, _, updated, sent, received⟩

end

theorem twoCircuit_committed : ProbeCommitted (~~~ ·) twoInputCircuit .second ⟨[[true, false]], 3⟩
    twoCircuitEvaluator (fun i => (twoCircuitSender.mMyCircuit i).mKProbeInputs)
    (fun i => (twoCircuitSender.mMyCircuit i).mCircuit.mGlobalOffset) := by
  constructor <;> decide

def twoCircuitDeltas : Bucket Block := { twoCircuitSender with mTheirPermutes := [[false]] }

theorem initKProbeInputRecv_two_circuits :
    ∃ sent masked updated, twoCircuitDeltas.initKProbeInputSend ⟨[[true, false]], 3⟩ =
        .ok (sent, masked) ∧
      twoCircuitEvaluator.initKProbeInputRecv (~~~ ·) twoInputCircuit .second
        ⟨[[true, false]], 3⟩ masked = .ok updated := by
  have binding : Function.Injective fun label : Block => ~~~label := by
    intro label label' same
    exact BitVec.not_inj.mp same
  have honest : HonestPair ⟨[[true, false]], 3⟩ twoInputCircuit .first twoCircuitDeltas
      twoCircuitEvaluator := by
    constructor <;> decide
  exact (initKProbeInputRecv_correct twoCircuit_committed binding []).2.2 twoCircuitDeltas honest
    (by decide) (by decide)

end BatchDualEx.Opening
