import BatchDualEx.DualEx.HonestOffline

/- The online phase of two honest parties, and with it the whole bucket: every circuit of both
   parties evaluates to the plain output. -/
namespace BatchDualEx.Opening

open WordXor Lists Result HalfGtGarbledCircuit

variable {Digest : Type}

structure Corrected (e : Execution) (bucket probed ready : Role → Bucket Digest) : Prop where
  kept : ∀ r, ready r = { bucket r with
    mTheirInputOffsets := (probed r).mTheirInputOffsets
    mMyDecodedKProbeLabels := (probed r).mMyDecodedKProbeLabels
    mInputCorrectionString := (probed r).mInputCorrectionString
    mTheirInputCorrection := (ready r).mTheirInputCorrection }
  correction : ∀ r, ∀ t < e.cir.inputs r.other, (ready r).mTheirInputCorrection.get t =
    ((probed r.other).mInputCorrectionString.get t ^^ (e.input r.other).get t)

theorem recvCorrections_total {aes : Block → Block → Block} {Commit : List Block → Digest}
    {e : Execution} (honest : e.Honest) {bucket : Role → Bucket Digest}
    (bucketed : Bucketed aes Commit e bucket) {probed : Role → Bucket Digest}
    (decoded : Probed e bucket probed) :
    ∃ ready, e.recvCorrections probed = .ok ready ∧ Corrected e bucket probed ready := by
  have length (r : Role) : ((probed r).inputCorrection (e.input r)).length =
      (e.cir.inputs r + 7) / 8 := by
    have size := decoded.size r
    refine (BitVector.bytes_length _).trans ?_
    unfold BitVector.sizeBytes BitVector.xorAssign
    rw [size]
  have arrives (r : Role) : ∃ w, (probed r).mTheirInputCorrection.recv
      ((probed r.other).inputCorrection (e.input r.other)) = .ok w := by
    rw [decoded.kept r]
    simp only [bucketed.correction r]
    exact (BitVector.recv_reset (length r.other)).imp fun w arrived => arrived.1
  choose w received using arrives
  have fits (r : Role) : dispatch [((probed r).inputCorrection (e.input r)).length] = .ok () := by
    refine dispatch_ok fun bytes listed => ?_
    have inputs := honest.inputs r
    have small := honest.inputs_small r
    rw [List.mem_singleton.mp listed, length r]
    omega
  refine ⟨fun r => { probed r with mTheirInputCorrection := w r }, ?_, ?_⟩
  · exact bothRoles_ok fun r => then_ok_iff.mpr ⟨require_ok_iff.mpr (honest.plain r.other),
      then_ok_iff.mpr ⟨fits r.other, bind_ok_iff.mpr ⟨w r, received r, rfl⟩⟩⟩
  · constructor
    · intro r
      rw [decoded.kept r]
    · intro r t input
      have arrived := received r
      rw [decoded.kept r] at arrived
      simp only [bucketed.correction r] at arrived
      exact (received_correction (decoded.size r.other) arrived).2 t input

theorem setp_total {capacity loc : Nat} (written : List Block) (fits : loc ≤ capacity) :
    setp capacity loc written = .ok (written.takeD loc zeroBlock) :=
  if_neg (Nat.not_lt.mpr fits)

theorem recvBlocks_total {length : Nat} {message : List Block} (sized : message.length = length) :
    recvBlocks length message = .ok message :=
  if_neg (not_not.mpr sized)

section
variable {aes : Block → Block → Block} {Commit : List Block → Digest} {e : Execution}
  {bucket probed ready : Role → Bucket Digest}

structure InputsSent (e : Execution) (r : Role) (p : CircuitPackage) (choices : List Bool)
    (message : EvalMessages) : Prop where
  seed : message.adaptiveSecureSeed = p.mAdaptiveSecureMaskSeed
  theirLength : message.theirLabels.length = e.cir.inputs r
  theirs : ∀ t < e.cir.inputs r, message.theirLabels.getD t zeroBlock =
    p.mCircuit.mInputWires.getD (e.cir.start r + t) zeroBlock ^^^
      select ((e.input r).get t) p.mCircuit.mGlobalOffset
  correctionLength : message.corrections.length = e.cir.inputs r.other
  corrections : ∀ t < e.cir.inputs r.other, message.corrections.getD t zeroBlock =
    (e.kProbe r.other).decodeLabel p.mKProbeInputs t ^^^
      p.mCircuit.mInputWires.getD (e.cir.start r.other + t) zeroBlock ^^^
      select ((e.kProbe r.other).decodeBit choices t ^^ (e.input r.other).get t)
        p.mCircuit.mGlobalOffset

/-- The correction string is the input of the other party moved by what the choice bits of its
    circuit 0 decode to. -/
theorem correction_eq (decoded : Probed e bucket probed)
    (corrected : Corrected e bucket probed ready) (r : Role) {t : Nat}
    (input : t < e.cir.inputs r.other) : (ready r).mTheirInputCorrection.get t =
      ((e.kProbe r.other).decodeBit ((bucket r.other).mMyCircuit 0).mOTRecvChoices.bits t ^^
        (e.input r.other).get t) := by
  rw [corrected.correction r t input, decoded.corrects r.other t input]

theorem delta_eq (honest : e.Honest) (bucketed : Bucketed aes Commit e bucket) (r : Role)
    {j t : Nat} (later : j + 1 < e.bucketSize) (input : t < e.cir.inputs r.other) :
    ((bucket r).mTheirPermutes.getD j []).getD t false =
      ((e.kProbe r.other).decodeBit ((bucket r.other).mMyCircuit 0).mOTRecvChoices.bits t ^^
        (e.kProbe r.other).decodeBit ((bucket r.other).mMyCircuit (j + 1)).mOTRecvChoices.bits
          t) := by
  obtain ⟨p, _, first, mine, _, same⟩ := bucketed.circuit r.other honest.nonempty
  obtain ⟨q, _, second, mine', _, same'⟩ := bucketed.circuit r.other later
  have delta := decodeBits_xorBits
    (decodeBits_total ((BitVector.bits_length _).trans first.choices))
    (decodeBits_total ((BitVector.bits_length _).trans second.choices))
    (bucketed.permutes r j p q mine mine') t
  have row : t < (e.kProbe r.other).n := (honest.rows r.other).symm ▸ input
  rw [map_range_getD _ _ row, map_range_getD _ _ row] at delta
  rw [same, same', delta]

theorem correctionBit_eq (honest : e.Honest) (bucketed : Bucketed aes Commit e bucket)
    (decoded : Probed e bucket probed) (corrected : Corrected e bucket probed ready) (r : Role)
    {i t : Nat} (inside : i < e.bucketSize) (input : t < e.cir.inputs r.other) :
    (ready r).correctionBit i t =
      ((e.kProbe r.other).decodeBit ((bucket r.other).mMyCircuit i).mOTRecvChoices.bits t ^^
        (e.input r.other).get t) := by
  refine correctionBit_spec
    (fun i => (e.kProbe r.other).decodeBit ((bucket r.other).mMyCircuit i).mOTRecvChoices.bits t)
    (correction_eq decoded corrected r input) fun j later => ?_
  rw [corrected.kept r]
  exact delta_eq honest bucketed r (later ▸ inside) input

theorem sendCircuitInput_total (honest : e.Honest) (bucketed : Bucketed aes Commit e bucket)
    (decoded : Probed e bucket probed) (corrected : Corrected e bucket probed ready) {r : Role}
    {i : Nat} (inside : i < e.bucketSize) {p : CircuitPackage}
    (listed : (bucket r).mMyCircuits[i]? = some p) :
    ∃ message, e.sendCircuitInput r (ready r) i = .ok message ∧
      InputsSent e r p ((bucket r.other).mMyCircuit i).mOTRecvChoices.bits message := by
  have circuit : (ready r).mMyCircuit i = p := by
    rw [corrected.kept r]
    exact Bucket.mMyCircuit_eq listed
  have offsets : (ready r).mTheirInputOffsets = (probed r).mTheirInputOffsets := by
    rw [corrected.kept r]
  have equal := honest.sameInputs r
  have sends : ∃ message, (ready r).sendCircuitInputs e.cir r (e.input r) i = .ok message ∧
      InputsSent e r p ((bucket r.other).mMyCircuit i).mOTRecvChoices.bits message := by
    refine ⟨_, bind_ok_iff.mpr ⟨_, setp_total _ (Nat.le_refl _), bind_ok_iff.mpr
      ⟨_, setp_total _ (Nat.le_of_eq equal.symm), rfl⟩⟩, by rw [circuit], List.takeD_length _ _ _,
      fun t input => ?_, (List.takeD_length _ _ _).trans equal.symm, fun t input => ?_⟩
    · simp only
      rw [takeD_map_range_getD _ input input, circuit]
    · simp only
      rw [takeD_map_range_getD _ input (equal ▸ input), circuit, offsets,
        correctionBit_eq honest bucketed decoded corrected r inside input,
        decoded.offsets r i inside t input, Bucket.mMyCircuit_eq listed]
  obtain ⟨message, run, sent⟩ := sends
  refine ⟨message, bind_ok_iff.mpr ⟨message, run, then_ok_iff.mpr
    ⟨dispatch_ok fun bytes listed => ?_, rfl⟩⟩, sent⟩
  have inputs := honest.inputs r
  have small := honest.inputs_small r
  rw [sent.theirLength, sent.correctionLength, equal, List.mem_pair] at listed
  omega

def Execution.plainInput (e : Execution) : List Bool :=
  (e.input .first).bits ++ (e.input .second).bits

theorem plainInput_getD (honest : e.Honest) (r : Role) {t : Nat} (input : t < e.cir.inputs r) :
    e.plainInput.getD (e.cir.start r + t) false = (e.input r).get t := by
  have length := (BitVector.bits_length (e.input .first)).trans (honest.plain .first)
  have bit := bits_getD ((honest.plain r).symm ▸ input)
  unfold Execution.plainInput
  cases r with
  | first =>
    simp only [Circuit.start, Nat.zero_add]
    rw [List.getD_append _ _ _ _ (length ▸ input), bit]
  | second =>
    have start : e.cir.start .second = (e.input .first).bits.length := length.symm
    rw [List.getD_append_right _ _ _ _ (by omega), start, Nat.add_sub_cancel_left, bit]

theorem wire_owner (cir : Circuit) {w : Nat} (input : w < cir.inputWireCount) :
    ∃ r t, t < cir.inputs r ∧ w = cir.start r + t := by
  by_cases first : w < cir.mInputs.1
  · exact ⟨.first, w, first, (Nat.zero_add w).symm⟩
  · unfold Circuit.inputWireCount at input
    exact ⟨.second, w - cir.mInputs.1, by simp only [Circuit.inputs]; omega,
      by simp only [Circuit.start]; omega⟩

def Active (e : Execution) (p : CircuitPackage) (labels : List Block) : Prop :=
  ∀ w < e.cir.inputWireCount, labels.getD w zeroBlock =
    p.mCircuit.mInputWires.getD w zeroBlock ^^^
      select (e.plainInput.getD w false) p.mCircuit.mGlobalOffset

/-- Party `r` gets the labels of the plain input for circuit `i` of the other party. -/
theorem receiveLabels_total (honest : e.Honest) (decoded : Probed e bucket probed)
    (corrected : Corrected e bucket probed ready) {r : Role} {i : Nat}
    (inside : i < e.bucketSize) {p : CircuitPackage}
    (listed : (bucket r.other).mMyCircuits[i]? = some p) {message : EvalMessages}
    (sent : InputsSent e r.other p ((bucket r).mMyCircuit i).mOTRecvChoices.bits message) :
    ∃ active, (ready r).receiveLabels e.cir r i (e.mLabels r i) message = .ok active ∧
      active.length = e.cir.mWireCount ∧ Active e p active := by
  have corrections := sent.corrections
  have correctionLength := sent.correctionLength
  rw [Role.other_other] at corrections correctionLength
  have run : ∃ active, (ready r).receiveLabels e.cir r i (e.mLabels r i) message = .ok active :=
    ⟨_, bind_ok_iff.mpr ⟨_, recvBlocks_total sent.theirLength,
      bind_ok_iff.mpr ⟨_, recvBlocks_total correctionLength, rfl⟩⟩⟩
  obtain ⟨active, run⟩ := run
  have length := (receiveLabels_length run).trans (honest.labels r i inside)
  refine ⟨active, run, length, ?_⟩
  have labels : (ready r).mMyDecodedKProbeLabels = (probed r).mMyDecodedKProbeLabels := by
    rw [corrected.kept r]
  obtain ⟨sized, decodedLabel⟩ := decoded.decoded r i inside
  rw [← labels] at sized decodedLabel
  obtain ⟨_, _, onTheirs, onMine⟩ := receiveLabels_spec
    (by rw [honest.labels r i inside, honest.wf.wires]; omega) sized run
  have onWires (s : Role) : ∀ t < e.cir.inputs s, active.getD (e.cir.start s + t) zeroBlock =
      p.mCircuit.mInputWires.getD (e.cir.start s + t) zeroBlock ^^^
        select ((e.input s).get t) p.mCircuit.mGlobalOffset := by
    obtain rfl | rfl : s = r ∨ s = r.other := by cases s <;> cases r <;> simp [Role.other]
    · intro t input
      have label := decodedLabel t input
      rw [Bucket.mMyCircuit_eq listed] at label
      refine (onMine t input).trans ?_
      rw [corrections t input]
      exact (congrArg (· ^^^ _) label).trans (correction_cancels _ _ _ _ _)
    · intro t input
      exact (onTheirs t input).trans (sent.theirs t input)
  intro w input
  obtain ⟨s, t, below, rfl⟩ := wire_owner e.cir input
  rw [onWires s t below, plainInput_getD honest s below]

/-- The sum of the common labels of both parties for the output of the plain circuit. -/
def Execution.psiValue (aes : Block → Block → Block) (e : Execution) : Block :=
  let common (r : Role) :=
    Bucket.commonOutput aes (e.prng r).getBlock.1 e.indexArray e.cir.mOutputs.length
  Bucket.commonPsi (common .first) (common .second) e.cir.mOutputs.length
    (e.cir.translate (e.cir.evaluate e.plainInput))

theorem evalCircuit_total (honest : e.Honest) (bucketed : Bucketed aes Commit e bucket)
    (decoded : Probed e bucket probed) (corrected : Corrected e bucket probed ready) {r : Role}
    {i : Nat} (inside : i < e.bucketSize) {p : CircuitPackage}
    (listed : (bucket r.other).mMyCircuits[i]? = some p) {messages : List EvalMessages}
    {message : EvalMessages} (position : messages[i]? = some message)
    (sent : InputsSent e r.other p ((bucket r).mMyCircuit i).mOTRecvChoices.bits message) :
    ∃ labels, e.evalCircuit aes r (ready r) messages i =
      .ok (e.psiValue aes, e.cir.translate (e.cir.evaluate e.plainInput), labels) ∧
      Active e p labels := by
  obtain ⟨active, received, length, given⟩ :=
    receiveLabels_total honest decoded corrected inside listed sent
  obtain ⟨p', c, mine, theirs, circuit⟩ := bucketed.listed r.other i inside
  cases listed.symm.trans mine
  rw [Role.other_other] at theirs
  obtain ⟨count, labelled⟩ := honest_outputs aes honest.wf honest.supported honest.inputReach
    circuit.garbled honest.masks honest.maskReach length given
  have sized : (bucket r.other).mCommonOutput.length = p.mCircuit.mOutputWires.length := by
    rw [bucketed.common r.other, Bucket.commonOutput_length, count]
  have loop := Bucket.evalOutputs_spec aes (bucket r).mCommonOutput sized
    (fun i inside => (labelled i (count ▸ inside)).1)
    (fun i inside => (labelled i (count ▸ inside)).2) (Nat.le_of_eq count.symm)
  have psi : Bucket.commonPsi (bucket r.other).mCommonOutput (bucket r).mCommonOutput
      e.cir.mOutputs.length (e.cir.translate (e.cir.evaluate e.plainInput)) = e.psiValue aes := by
    rw [bucketed.common r.other, bucketed.common r, bucketed.seed r.other, bucketed.seed r]
    cases r with
    | first => exact Bucket.commonPsi_comm _ _ _ _
    | second => rfl
  have values : ((List.range e.cir.mOutputs.length).map fun i =>
      (e.cir.translate (e.cir.evaluate e.plainInput)).getD i false) =
      e.cir.translate (e.cir.evaluate e.plainInput) := by
    have outputs : (e.cir.translate (e.cir.evaluate e.plainInput)).length =
        e.cir.mOutputs.length := by
      rw [Circuit.translate_eq honest.wf, List.length_map]
    rw [← outputs]
    exact map_range_getD_self _ _
  have circuits : (ready r).mTheirCircuits[i]? = some c := by
    rw [corrected.kept r]
    exact theirs
  have translation : (ready r).mTranlation.getD i [] =
      Bucket.translationValues aes e.cir (bucket r.other).mCommonOutput p.mCircuit := by
    rw [corrected.kept r]
    exact bucketed.translation r i p listed
  have common : (ready r).mCommonOutput = (bucket r).mCommonOutput := by rw [corrected.kept r]
  have outputs : i < (ready r).mOutputs.length := by
    rw [corrected.kept r]
    simpa [bucketed.outputs r] using inside
  refine ⟨c.mCircuit.evaluate aes e.cir active (ecbEncBlocks aes p.mAdaptiveSecureMaskSeed
    e.indexArray e.adaptiveSecureTableMasks.length), ?_, ?_⟩
  · unfold Execution.evalCircuit Bucket.evalCircuit
    simp only [position, circuits, received, sent.seed, bind, Except.bind, translation, common,
      loop, psi, values, pure, Except.pure]
    rw [getD_set_self outputs]
  · intro w input
    rw [← given w input]
    exact evaluate_frame aes honest.wf.ordered _ input

section
variable [DecidableEq Digest]

theorem checkLabel_total (honest : e.Honest) (bucketed : Bucketed aes Commit e bucket)
    (corrected : Corrected e bucket probed ready) {r : Role} {j t : Nat}
    (inside : j < e.bucketSize) (input : t < e.cir.inputs r.other) {labels : List (List Block)}
    (label : ∀ p, (bucket r.other).mMyCircuits[j]? = some p →
      (labels.getD j []).getD (e.cir.start r.other + t) zeroBlock =
        p.mCircuit.mInputWires.getD (e.cir.start r.other + t) zeroBlock ^^^
          select ((e.input r.other).get t) p.mCircuit.mGlobalOffset) :
    (ready r).checkLabel Commit e.cir r labels t j
      ((e.kProbe r.other).decodeBit ((bucket r.other).mMyCircuit j).mOTRecvChoices.bits t ^^
        (e.input r.other).get t) = .ok () := by
  obtain ⟨p, c, circuit, mine, theirs, same⟩ := bucketed.circuit r.other inside
  rw [Role.other_other] at theirs
  have listed : (ready r).mTheirCircuits[j]? = some c := by
    rw [corrected.kept r]
    exact theirs
  have decoding : (e.kProbe r.other).decodeBits p.mOTRecvChoices.bits = .ok _ :=
    decodeBits_total ((BitVector.bits_length p.mOTRecvChoices).trans circuit.choices)
  have commits := circuit.inputCommits
  unfold CircuitPackage.commitToInputs at commits
  rw [decoding] at commits
  unfold Bucket.checkLabel
  simp only [listed, (Except.ok.inj commits).symm, List.getElem?_map, List.getElem?_range input,
    Option.map_some]
  rw [require_ok_iff, label p mine, pick_permutedCommits,
    map_range_getD _ _ ((honest.rows r.other).symm ▸ input : t < (e.kProbe r.other).n), same]
  have unmasked : ∀ a x : Bool, ((a ^^ x) ^^ a) = x := by decide
  rw [unmasked]

theorem evaluate_total (honest : e.Honest) (bucketed : Bucketed aes Commit e bucket)
    (decoded : Probed e bucket probed) (corrected : Corrected e bucket probed ready) (r : Role)
    {labels : List (List Block)}
    (active : ∀ i p, (bucket r.other).mMyCircuits[i]? = some p → Active e p (labels.getD i [])) :
    ((ready r).evaluate Commit e.cir r (e.input r) labels).2 = .ok () := by
  have label {j t : Nat} (input : t < e.cir.inputs r.other) (p : CircuitPackage)
      (listed : (bucket r.other).mMyCircuits[j]? = some p) :
      (labels.getD j []).getD (e.cir.start r.other + t) zeroBlock =
        p.mCircuit.mInputWires.getD (e.cir.start r.other + t) zeroBlock ^^^
          select ((e.input r.other).get t) p.mCircuit.mGlobalOffset := by
    have inside := e.cir.start_inputs_le r.other
    rw [active j p listed _ (by omega), plainInput_getD honest r.other input]
  have count : (ready r).mTheirCircuits.length = e.bucketSize := by
    rw [corrected.kept r]
    exact bucketed.theirs r
  have permutes : (ready r).mTheirPermutes = (bucket r).mTheirPermutes := by rw [corrected.kept r]
  unfold Bucket.evaluate Bucket.checkInputLabels
  simp only [forM_ok_iff, List.mem_range, then_ok_iff]
  intro t input
  constructor
  · rw [correction_eq decoded corrected r input]
    exact checkLabel_total honest bucketed corrected honest.nonempty input (label input)
  · intro j inside
    have later : j + 1 < e.bucketSize := by omega
    have bits := cancel_bits
      ((e.kProbe r.other).decodeBit ((bucket r.other).mMyCircuit 0).mOTRecvChoices.bits t)
      ((e.kProbe r.other).decodeBit ((bucket r.other).mMyCircuit (j + 1)).mOTRecvChoices.bits t)
      ((e.input r.other).get t)
    rw [correction_eq decoded corrected r input, permutes,
      delta_eq honest bucketed r later input, Bool.xor_comm, bits]
    exact checkLabel_total honest bucketed corrected later input (label input)

theorem translationValues_entry (cir : Circuit) {common : List (Block × Block)}
    {gc : HalfGtGarbledCircuit} (sized : common.length = gc.mOutputWires.length) {k : Nat}
    (below : k < gc.mOutputWires.length) (d : Block × Block) :
    let hash := (hashOutputs aes gc.mGlobalOffset (outputTweaks cir) gc.mOutputWires).getD k d
    (Bucket.translationValues aes cir common gc).getD k d =
      (hash.1 ^^^ (common.getD k d).1, hash.2 ^^^ (common.getD k d).2) := by
  intro hash
  have hashed := hashOutputs_length aes gc.mGlobalOffset (outputTweaks cir) gc.mOutputWires
  have hash_eq : hash = _ := List.getD_eq_getElem _ _ (show k < (hashOutputs aes gc.mGlobalOffset
    (outputTweaks cir) gc.mOutputWires).length by omega)
  unfold Bucket.translationValues
  rw [List.getD_eq_getElem _ _ (by rw [List.length_zipWith]; omega), List.getElem_zipWith, hash_eq,
    List.getD_eq_getElem common _ (by omega)]

theorem checkTranslation_total (honest : e.Honest) (bucketed : Bucketed aes Commit e bucket)
    (corrected : Corrected e bucket probed ready) (r : Role) {i : Nat}
    (inside : i < e.bucketSize) :
    ∃ left, e.checkTranslation aes Commit ready r i = .ok left := by
  obtain ⟨p, c, circuit, mine, theirs, _⟩ := bucketed.circuit r.other inside
  rw [Role.other_other] at theirs
  have listed : (ready r).mTheirCircuits[i]? = some c := by
    rw [corrected.kept r]
    exact theirs
  have translation : (ready r).mTranlation.getD i [] =
      Bucket.translationValues aes e.cir (bucket r.other).mCommonOutput p.mCircuit := by
    rw [corrected.kept r]
    exact bucketed.translation r i p mine
  have seed : (ready r.other).mOutputLabelSeed = (bucket r.other).mOutputLabelSeed := by
    rw [corrected.kept r.other]
  have count := circuit.outputs honest
  have sized : (bucket r.other).mCommonOutput.length = p.mCircuit.mOutputWires.length := by
    rw [bucketed.common r.other, Bucket.commonOutput_length, count]
  have opens : (List.range e.cir.mOutputs.length).map
      (translated (outLabels aes e.cir (bucket r.other).mOutputLabelSeed e.indexArray)
        (Bucket.translationValues aes e.cir (bucket r.other).mCommonOutput p.mCircuit)) =
      hashOutputs aes p.mCircuit.mGlobalOffset (outputTweaks e.cir) p.mCircuit.mOutputWires := by
    apply ext_getD (zeroBlock, zeroBlock)
    · rw [List.length_map, List.length_range, hashOutputs_length, count]
    · intro k below
      rw [List.length_map, List.length_range] at below
      rw [map_range_getD _ _ below, translated, translationValues_entry e.cir sized
        (count.symm ▸ below), bucketed.common r.other]
      simp only [Bucket.commonOutput, map_range_getD _ _ below, outLabels, honest.wf.outputCount,
        xor_cancel_outer]
  unfold Execution.checkTranslation Bucket.checkTranslation
  simp only [listed, translation, seed, opens]
  refine ⟨_, then_ok_iff.mpr ⟨require_ok_iff.mpr ?_, then_ok_iff.mpr ⟨require_ok_iff.mpr ?_, rfl⟩⟩⟩
  · rw [List.length_replicate, honest.wf.outputCount]
    omega
  · rw [List.take_left' (by rw [Bucket.flatMap_pairs_length, hashOutputs_length, count,
      honest.wf.outputCount])]
    exact circuit.outputCommit.symm

/-- The results of the bucket, whatever the circuit, the inputs and the randomness. -/
theorem run_total (honest : e.Honest) : ∃ results, e.run aes Commit = .ok results ∧
    ∀ r, (results r).length = e.bucketSize ∧ ∀ result ∈ results r,
      result = (e.psiValue aes, e.cir.translate (e.cir.evaluate e.plainInput)) := by
  obtain ⟨circuits, made, spec⟩ := @circuits_total _ aes Commit e honest
  obtain ⟨bucket, prepared, bucketed⟩ := initBucket_total honest spec
  obtain ⟨probed, probing, decoded⟩ := initKProbeInput_total honest bucketed
  obtain ⟨ready, correcting, corrected⟩ := recvCorrections_total honest bucketed decoded
  obtain ⟨messages, sending, sent⟩ := bothRoles_spec fun r =>
    mapM_range_spec (P := fun i message => ∀ p, (bucket r).mMyCircuits[i]? = some p →
      InputsSent e r p ((bucket r.other).mMyCircuit i).mOTRecvChoices.bits message)
      fun i inside => by
      obtain ⟨p, _, listed, _, _⟩ := bucketed.listed r i inside
      obtain ⟨message, run, inputs⟩ :=
        sendCircuitInput_total honest bucketed decoded corrected inside listed
      refine ⟨message, run, fun p' listed' => ?_⟩
      cases listed.symm.trans listed'
      exact inputs
  obtain ⟨evaluated, evaluating, results⟩ := bothRoles_spec fun r =>
    mapM_range_spec (f := e.evalCircuit aes r (ready r) (messages r.other))
      (P := fun i result => result.1 = e.psiValue aes ∧
        result.2.1 = e.cir.translate (e.cir.evaluate e.plainInput) ∧
        ∀ p, (bucket r.other).mMyCircuits[i]? = some p → Active e p result.2.2) fun i inside => by
      obtain ⟨p, _, listed, _, _⟩ := bucketed.listed r.other i inside
      obtain ⟨message, position⟩ : ∃ message, (messages r.other)[i]? = some message :=
        ⟨_, List.getElem?_eq_getElem ((sent r.other).1.symm ▸ inside)⟩
      have inputs := (sent r.other).2 i message position p listed
      rw [Role.other_other] at inputs
      obtain ⟨labels, run, active⟩ :=
        evalCircuit_total honest bucketed decoded corrected inside listed position inputs
      refine ⟨_, run, rfl, rfl, fun p' listed' => ?_⟩
      cases listed.symm.trans listed'
      exact active
  have checked (r : Role) : ((ready r).evaluate Commit e.cir r (e.input r)
      ((evaluated r).map fun result => result.2.2)).2 = .ok () := by
    refine evaluate_total honest bucketed decoded corrected r fun i p listed => ?_
    have inside := (List.getElem?_eq_some_iff.mp listed).1
    rw [bucketed.mine r.other, ← (results r).1] at inside
    rw [List.getD_eq_getElem?_getD, List.getElem?_map, List.getElem?_eq_getElem inside]
    exact ((results r).2 i _ (List.getElem?_eq_getElem inside)).2.2 p listed
  obtain ⟨translated, translating, _⟩ := bothRoles_spec fun r =>
    mapM_range_spec (P := fun _ _ => True) fun i inside => by
      obtain ⟨left, run⟩ :=
        checkTranslation_total honest bucketed corrected r inside
      exact ⟨left, run, trivial⟩
  have returns : e.run aes Commit =
      .ok fun r => (evaluated r).map fun result => (result.1, result.2.1) :=
    bind_ok_iff.mpr ⟨circuits, made, bind_ok_iff.mpr
    ⟨fun _ => (), bothRoles_ok (openCircuits_total honest spec), bind_ok_iff.mpr ⟨bucket, prepared,
    bind_ok_iff.mpr ⟨probed, probing, bind_ok_iff.mpr ⟨ready, correcting,
    bind_ok_iff.mpr ⟨messages, sending, bind_ok_iff.mpr ⟨evaluated, evaluating,
    bind_ok_iff.mpr ⟨_, bothRoles_ok checked, bind_ok_iff.mpr
    ⟨translated, translating, rfl⟩⟩⟩⟩⟩⟩⟩⟩⟩
  refine ⟨_, returns, fun r => ⟨(List.length_map _).trans (results r).1, ?_⟩⟩
  intro pair listed
  obtain ⟨result, member, rfl⟩ := List.mem_map.mp listed
  obtain ⟨i, entry⟩ := List.mem_iff_getElem?.mp member
  obtain ⟨psi, outputs, _⟩ := (results r).2 i result entry
  rw [psi, outputs]

end

end

/-- Three circuits on each side. One is opened, the others are in the bucket in another order than
    they were made in. -/
def threeCircuits : Execution where
  cir := threeGates
  kProbe _ := ⟨[[]], 1⟩
  indexArray := [0, 1, 2, 3]
  wireBuff := List.replicate 5 zeroBlock
  adaptiveSecureTableMasks := List.replicate 4 zeroBlock
  otRecv _ :=
    let choices := (BitVector.empty.reset 8).set 1 true
    ⟨choices, fun i => BitVec.ofNat 128 (2 * i + (choices.get i).toNat)⟩
  otSend _ := ⟨fun i bit => BitVec.ofNat 128 (2 * i + bit.toNat)⟩
  otIdx _ j := j
  circuitCount := 3
  circuitPrng _ j n := UInt8.ofNat (5 * j + n)
  opened _ := [1]
  cirIdxs _ := [2, 0]
  prng := partyPRNG
  input
    | .first => (BitVector.empty.reset 1).set 0 true
    | .second => BitVector.empty.reset 1
  mLabels _ _ := List.replicate 5 zeroBlock

theorem threeCircuits_honest : threeCircuits.Honest where
  wf := threeGates_wellFormed
  supported := by decide
  gates := by decide
  outputs := by decide
  inputs r := by cases r <;> decide
  sameInputs r := by cases r <;> rfl
  rows r := by cases r <;> rfl
  columns r := by cases r <;> decide
  small r := by cases r <;> decide
  inputReach := by decide
  probeReach r := by cases r <;> decide
  masks := by decide
  maskReach := by decide
  wireBuff := by decide
  ots r := ⟨8, ⟨by cases r <;> decide, fun i below => rfl⟩, by cases r <;> decide⟩
  openBuff r := by cases r <;> decide
  nonempty := by decide
  bucketed r := rfl
  circuits r := by cases r <;> decide
  opened r := by cases r <;> decide
  plain r := by cases r <;> rfl
  labels r i below := rfl

end BatchDualEx.Opening
