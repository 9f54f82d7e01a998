import BatchDualEx.Circuit.HalfGtTransfer
import BatchDualEx.DualEx.Execution
import BatchDualEx.DualEx.InputConsistency
import BatchDualEx.DualEx.KProbeInputs

/- The offline phase of two honest parties: no check fails, and both buckets hold the same circuits
   with correct OTs and decoded k-probe labels. -/
namespace BatchDualEx.Opening

open WordXor Lists Result HalfGtGarbledCircuit

variable {Digest : Type}

section
variable {aes : Block → Block → Block} {Commit : List Block → Digest} {e : Execution}

/-- A circuit of party `r` as its garbler and its evaluator hold it. -/
structure Transferred (aes : Block → Block → Block) (Commit : List Block → Digest) (e : Execution)
    (r : Role) (p : CircuitPackage) (c : CommCircuitPackage Digest) : Prop where
  garbled : HonestCircuit aes e.cir e.indexArray p c
  choices : p.mOTRecvChoices.mNumBits = (e.kProbe r).encodingSize
  messages : ∀ t < (e.kProbe r).encodingSize,
    p.OTRecvMsg t = c.OTSendMsg t (p.mOTRecvChoices.get t)
  probes : p.mKProbeInputs.length = (e.kProbe r.other).encodingSize
  probeCommits : c.mMyKProbeInputCommit = p.mKProbeInputs.map fun label =>
    (Commit [label], Commit [label ^^^ p.mCircuit.mGlobalOffset])
  inputCommits : CircuitPackage.commitToInputs Commit e.cir (e.kProbe r) r p =
    .ok c.mTheirInputCommits
  outputCommit : c.mOutputCommit = CircuitPackage.commitToOutputs aes Commit e.cir p.mCircuit
  tables : c.mCircuit.mGates.length = e.cir.mNonXorGateCount
  bits : c.mCircuit.mTranslationTable.length = e.cir.mOutputCount
  inputs : c.mTheirInputCommits.length = e.cir.inputs r
  material : (⟨c.mCircuit.mGates, c.mCircuit.mTranslationTable, c.mMyKProbeInputCommit,
    c.mOutputCommit, c.mTheirInputCommits⟩ : Material Digest) =
      materialOf aes Commit e.cir r (e.kProbe r.other) e.indexArray p.mKProbeWireSeed
        (Opening.garbled aes e.cir p.mCircuitSeed p.mAdaptiveSecureMaskSeed e.indexArray)
        ((List.range (e.kProbe r).n).map ((e.kProbe r).decodeBit p.mOTRecvChoices.bits))

/-- Garbling never fails once the choice bits are copied and decoded. -/
theorem produce_eq {cir : Circuit} (wf : cir.WellFormed) {role : Role}
    {theirKProbe myKProbe : KProbeMatrix} {wireBuff indexArray masks : List Block}
    {recvOT : I_OTExtReceiver} {firstOTIdx : Nat} {p : CircuitPackage} {choices : BitVector}
    {permuteBits : List Bool} (inputs : cir.inputWireCount ≤ indexArray.length)
    (room : cir.mWireCount ≤ wireBuff.length) (enough : 2 * cir.mNonXorGateCount ≤ masks.length)
    (reach : masks.length ≤ indexArray.length)
    (copied : p.mOTRecvChoices.copy recvOT.mChoiceBits firstOTIdx myKProbe.encodingSize =
      .ok choices) (decoded : myKProbe.decodeBits choices.bits = .ok permuteBits) :
    let gc := Opening.garbled aes cir p.mCircuitSeed p.mAdaptiveSecureMaskSeed indexArray
    produce aes Commit cir role theirKProbe myKProbe wireBuff indexArray masks recvOT firstOTIdx p =
      .ok (⟨p.mCircuitSeed, p.mAdaptiveSecureMaskSeed, p.mKProbeWireSeed, { gc with mGates := [] },
          ecbEncBlocks aes p.mKProbeWireSeed indexArray theirKProbe.encodingSize, recvOT,
          firstOTIdx, choices⟩,
        materialOf aes Commit cir role theirKProbe indexArray p.mKProbeWireSeed gc
          permuteBits) := by
  intro gc
  unfold produce
  rw [initSeeded_eq aes Commit wf theirKProbe p inputs room enough reach]
  simp only [CircuitPackage.initOT, CircuitPackage.commitToInputs, copied, decoded, bind,
    Except.bind]
  rfl

theorem initCircuit_run (honest : e.Honest) {r : Role} {j : Nat} {p : CircuitPackage}
    {m : Material Digest} {c : CommCircuitPackage Digest}
    (made : produce aes Commit e.cir r (e.kProbe r.other) (e.kProbe r) e.wireBuff e.indexArray
      e.adaptiveSecureTableMasks (e.otRecv r) (e.otIdx r j) (e.seeds r j) = .ok (p, m))
    (received : CommCircuitPackage.init e.cir (e.kProbe r.other) (e.kProbe r) (e.otSend r.other)
      (e.otIdx r j) (e.cir.inputs r) m = .ok c) : e.initCircuit aes Commit r j = .ok (p, c) := by
  obtain ⟨⟨p', inputCommits, next⟩, committed, produced⟩ := bind_ok made
  cases produced
  exact then_ok_iff.mpr ⟨honest.material r, bind_ok_iff.mpr
    ⟨_, committed, bind_ok_iff.mpr ⟨c, received, rfl⟩⟩⟩

theorem initCircuit_total (honest : e.Honest) (r : Role) {j : Nat} (listed : j < e.circuitCount) :
    ∃ p c, e.initCircuit aes Commit r j = .ok (p, c) ∧ Transferred aes Commit e r p c := by
  have small := honest.small r
  obtain ⟨choices, copied, size, read⟩ := BitVector.append_empty (e.otRecv r).mChoiceBits.mData
    (e.otIdx r j) (show (e.kProbe r).encodingSize + 8 < 2 ^ 31 by omega)
  rw [← BitVector.copy_empty] at copied
  have decoded := decodeBits_total ((BitVector.bits_length choices).trans size)
  obtain ⟨count, correct, inside⟩ := honest.ots r
  have made := @produce_eq Digest aes Commit e.cir honest.wf r (e.kProbe r.other) (e.kProbe r)
    e.wireBuff e.indexArray e.adaptiveSecureTableMasks (e.otRecv r) (e.otIdx r j) (e.seeds r j)
    choices _ honest.inputReach honest.wireBuff honest.masks honest.maskReach
    copied decoded
  obtain ⟨c, received⟩ : ∃ c, CommCircuitPackage.init e.cir (e.kProbe r.other) (e.kProbe r)
      (e.otSend r.other) (e.otIdx r j) (e.cir.inputs r)
      (materialOf aes Commit e.cir r (e.kProbe r.other) e.indexArray (e.seeds r j).mKProbeWireSeed
        (Opening.garbled aes e.cir (e.seeds r j).mCircuitSeed
          (e.seeds r j).mAdaptiveSecureMaskSeed e.indexArray)
        ((List.range (e.kProbe r).n).map ((e.kProbe r).decodeBit choices.bits))) = .ok c := by
    refine ⟨_, commInit_ok_iff.mpr ⟨⟨?_, ?_, ?_, ?_⟩, rfl⟩⟩
    · exact garble_gates_length aes honest.wf _ _ _
    · exact garble_translation_length aes _ _ _ _
    · unfold materialOf
      rw [List.length_map]
      exact ecbEncBlocks_length aes _ (honest.probeReach r.other)
    · simp [materialOf, inputCommitsOf]
  obtain ⟨⟨tables, bits, _, inputs⟩, kept⟩ := commInit_ok_iff.mp received
  refine ⟨_, c, initCircuit_run honest made received, ?_, size, ?_, ?_, ?_, ?_, ?_, kept ▸ tables,
    kept ▸ bits, kept ▸ inputs, kept ▸ rfl⟩
  · exact produce_honest aes Commit honest.wf honest.inputReach honest.wireBuff honest.masks
      honest.maskReach made received
  · intro t below
    have chosen := correct.chosen (e.otIdx r j + t) (by have := inside j listed; omega)
    have bit := read t (by unfold BitVector.sizeBytes; rw [size]; omega)
    rw [decide_eq_true (Or.inl below), Bool.true_and] at bit
    rw [← kept]
    simp only [CircuitPackage.OTRecvMsg, CommCircuitPackage.OTSendMsg]
    rw [chosen, bit]
    rfl
  · exact ecbEncBlocks_length aes _ (honest.probeReach r.other)
  · rw [← kept]
    rfl
  · rw [← kept]
    simp only [CircuitPackage.commitToInputs, decoded, bind, Except.bind]
    rfl
  · rw [← kept]
    rfl

structure Made (aes : Block → Block → Block) (Commit : List Block → Digest) (e : Execution)
    (circuits : Role → List (CircuitPackage × CommCircuitPackage Digest)) : Prop where
  count : ∀ r, (circuits r).length = e.circuitCount
  transferred : ∀ r, ∀ q ∈ circuits r, Transferred aes Commit e r q.1 q.2

theorem circuits_total (honest : e.Honest) :
    ∃ circuits, (bothRoles fun r => (List.range e.circuitCount).mapM
      (e.initCircuit aes Commit r)) = .ok circuits ∧ Made aes Commit e circuits := by
  obtain ⟨circuits, run, spec⟩ := bothRoles_spec fun r =>
    mapM_range_spec (P := fun _ (q : CircuitPackage × CommCircuitPackage Digest) =>
      Transferred aes Commit e r q.1 q.2) fun j listed => by
      obtain ⟨p, c, made, transferred⟩ := @initCircuit_total _ aes Commit e honest r j listed
      exact ⟨(p, c), made, transferred⟩
  refine ⟨circuits, run, fun r => (spec r).1, fun r q listed => ?_⟩
  obtain ⟨j, entry⟩ := List.mem_iff_getElem?.mp listed
  exact (spec r).2 j q entry

/-- An opened circuit passes its checks, and both parties add the same OT messages. -/
theorem openCircuit_total [DecidableEq Digest] (honest : e.Honest)
    {circuits : Role → List (CircuitPackage × CommCircuitPackage Digest)}
    (made : Made aes Commit e circuits) (r : Role) {j : Nat} (listed : j < e.circuitCount)
    (sum : Block) :
    ∃ sum', e.openCircuit aes Commit circuits r (sum, sum) j = .ok (sum', sum') := by
  obtain ⟨⟨p, c⟩, entry⟩ : ∃ q, (circuits r.other)[j]? = some q :=
    ⟨_, List.getElem?_eq_getElem (made.count r.other ▸ listed)⟩
  have circuit : Transferred aes Commit e r.other p c :=
    made.transferred r.other _ (List.mem_of_getElem? entry)
  have opens := Opens.open p sum
  have length : (p.open sum).1.choices.length = ((e.kProbe r.other).encodingSize + 7) / 8 := by
    rw [opens.length, ← circuit.choices]
    rfl
  obtain ⟨choices, received, size, read⟩ := BitVector.recv_reset length
  have agree : ∀ i < (e.kProbe r.other).encodingSize, choices.get i = p.mOTRecvChoices.get i := by
    intro i below
    rw [read i below, opens.choices i (by unfold BitVector.size; rwa [circuit.choices])]
  have sameBits : choices.bits = p.mOTRecvChoices.bits :=
    BitVector.bits_eq (size.trans circuit.choices.symm) fun i below => agree i (size ▸ below)
  have decoded : (e.kProbe r.other).decodeBits choices.bits = .ok _ :=
    decodeBits_total ((BitVector.bits_length choices).trans size)
  have material := circuit.material
  have probes := circuit.probes
  rw [Role.other_other] at material probes
  have masks := honest.masks
  have maskReach := honest.maskReach
  have probeReach := honest.probeReach r.other
  have openBuff := honest.openBuff r
  have sums : (p.open sum).2 = (List.range (e.kProbe r.other).encodingSize).foldl
      (fun sum i => sum ^^^ c.OTSendMsg i (choices.get i)) sum := by
    unfold CircuitPackage.open BitVector.size
    simp only
    rw [circuit.choices]
    apply List.foldl_ext
    intro acc i inside
    have below := List.mem_range.mp inside
    rw [agree i below, circuit.messages i below]
  have accepted : c.open aes Commit e.cir (e.kProbe r.other) (e.kProbe r) r (p.open sum).1 sum
      e.indexArray (List.replicate
        (max (e.cir.mNonXorGateCount * 2) (e.kProbe r.other).encodingSize) zeroBlock) =
      .ok (p.open sum).2 := by
    refine (open_ok_iff aes Commit honest.wf honest.supported circuit.tables circuit.bits ?_
      (honest.rows r.other) circuit.inputs ?_ ?_ received decoded).mpr ⟨?_, sums⟩
    · rw [circuit.probeCommits, List.length_map, probes]
    · rw [List.length_replicate]
      omega
    · rw [List.length_replicate]
      omega
    · rw [sameBits]
      exact material
  refine ⟨(p.open sum).2, ?_⟩
  unfold Execution.openCircuit
  simp only [entry]
  refine then_ok_iff.mpr ⟨dispatch_ok fun bytes listed => ?_, bind_ok_iff.mpr ⟨_, accepted, rfl⟩⟩
  rw [List.mem_singleton.mp listed, length]
  exact honest.choices r.other

theorem openCircuits_total [DecidableEq Digest] (honest : e.Honest)
    {circuits : Role → List (CircuitPackage × CommCircuitPackage Digest)}
    (made : Made aes Commit e circuits) (r : Role) :
    e.openCircuits aes Commit circuits r = .ok () := by
  obtain ⟨sums, run, equal⟩ : ∃ sums, (e.opened r.other).foldlM
      (e.openCircuit aes Commit circuits r)
      (zeroBlock, zeroBlock) = .ok sums ∧ sums.1 = sums.2 ∧ ∀ j ∈ [], j < e.circuitCount := by
    refine foldlM_total (fun left (sums : Block × Block) =>
      sums.1 = sums.2 ∧ ∀ j ∈ left, j < e.circuitCount) ?_ ⟨rfl, honest.opened r.other⟩
    rintro j left ⟨sum, sum'⟩ ⟨equal, inside⟩
    cases equal
    obtain ⟨next, opened⟩ := openCircuit_total honest made r (inside j List.mem_cons_self) sum
    exact ⟨_, opened, rfl, fun j later => inside j (List.mem_cons_of_mem _ later)⟩
  exact bind_ok_iff.mpr ⟨sums, run, require_ok_iff.mpr equal.1⟩

theorem initRecv_total (cir : Circuit) (theirKProbe : KProbeMatrix)
    (circuits : List (CommCircuitPackage Digest)) (cirIdxs : List Nat) (sent : BucketSent)
    (b : Bucket Digest) (translations : sent.translations.length = cirIdxs.length)
    (tables : ∀ table ∈ sent.translations, table.length = cir.mOutputs.length)
    (deltas : sent.deltas.length = cirIdxs.length - 1)
    (sized : ∀ delta ∈ sent.deltas, delta.length = (theirKProbe.encodingSize + 7) / 8) :
    ∃ permutes, permutes.length = cirIdxs.length - 1 ∧
      b.initRecv cir theirKProbe circuits cirIdxs sent = .ok { b with
        mTranlation := sent.translations
        mTheirCircuits := b.mTheirCircuits ++ cirIdxs.filterMap (circuits[·]?)
        mOutputs := List.replicate cirIdxs.length (List.replicate cir.mOutputs.length false)
        mTheirPermutes := permutes } := by
  have arrived : sent.translations.mapM (Bucket.recvTranslation cir) = .ok sent.translations := by
    have each := mapM_eq_map (f := Bucket.recvTranslation cir) (g := id) fun table listed =>
      then_ok_iff.mpr ⟨require_ok_iff.mpr (tables table listed), rfl⟩
    rwa [List.map_id] at each
  obtain ⟨permutes, decoded⟩ :=
    mapM_total (f := Bucket.recvDelta theirKProbe) fun delta listed => by
    obtain ⟨w, received, size, _⟩ := BitVector.recv_reset (sized delta listed)
    have decoding := decodeBits_total ((BitVector.bits_length w).trans size)
    exact ⟨_, bind_ok_iff.mpr ⟨w, received, decoding⟩⟩
  refine ⟨permutes, (mapM_ok decoded).length_eq.symm.trans deltas, ?_⟩
  exact then_ok_iff.mpr ⟨require_ok_iff.mpr translations, then_ok_iff.mpr
    ⟨require_ok_iff.mpr deltas, bind_ok_iff.mpr ⟨_, arrived, bind_ok_iff.mpr ⟨_, decoded, rfl⟩⟩⟩⟩

structure Bucketed (aes : Block → Block → Block) (Commit : List Block → Digest) (e : Execution)
    (bucket : Role → Bucket Digest) : Prop where
  mine : ∀ r, (bucket r).mMyCircuits.length = e.bucketSize
  theirs : ∀ r, (bucket r).mTheirCircuits.length = e.bucketSize
  listed : ∀ r, ∀ i < e.bucketSize, ∃ p c, (bucket r).mMyCircuits[i]? = some p ∧
    (bucket r.other).mTheirCircuits[i]? = some c ∧ Transferred aes Commit e r p c
  permuteCount : ∀ r, (bucket r).mTheirPermutes.length = e.bucketSize - 1
  permutes : ∀ r j p q, (bucket r.other).mMyCircuits[0]? = some p →
    (bucket r.other).mMyCircuits[j + 1]? = some q →
    (e.kProbe r.other).decodeBits (xorBits p.mOTRecvChoices.bits q.mOTRecvChoices.bits) =
      .ok ((bucket r).mTheirPermutes.getD j [])
  correction : ∀ r,
    (bucket r).mTheirInputCorrection = BitVector.empty.reset (e.cir.inputs r.other)
  outputs : ∀ r, (bucket r).mOutputs =
    List.replicate e.bucketSize (List.replicate e.cir.mOutputs.length false)
  seed : ∀ r, (bucket r).mOutputLabelSeed = (e.prng r).getBlock.1
  common : ∀ r, (bucket r).mCommonOutput = Bucket.commonOutput aes (bucket r).mOutputLabelSeed
    e.indexArray e.cir.mOutputs.length
  translation : ∀ r i p, (bucket r.other).mMyCircuits[i]? = some p →
    (bucket r).mTranlation.getD i [] =
      Bucket.translationValues aes e.cir (bucket r.other).mCommonOutput p.mCircuit

theorem Made.entry {circuits : Role → List (CircuitPackage × CommCircuitPackage Digest)}
    (made : Made aes Commit e circuits) (honest : e.Honest) (r : Role) {i : Nat}
    (inside : i < e.bucketSize) : ∃ p c,
      ((e.cirIdxs r).filterMap (((circuits r).map Prod.fst)[·]?))[i]? = some p ∧
      ((e.cirIdxs r).filterMap (((circuits r).map Prod.snd)[·]?))[i]? = some c ∧
      Transferred aes Commit e r p c := by
  have reach : ∀ j ∈ e.cirIdxs r, j < (circuits r).length := fun j listed =>
    (made.count r).symm ▸ honest.circuits r j listed
  have packages := (@filterMap_getElem? _ ((circuits r).map Prod.fst) (e.cirIdxs r)
    (by simpa using reach)).2 i
  have comms := (@filterMap_getElem? _ ((circuits r).map Prod.snd) (e.cirIdxs r)
    (by simpa using reach)).2 i
  have index := List.getElem?_eq_getElem (honest.bucketed r ▸ inside : i < (e.cirIdxs r).length)
  have circuit := List.getElem?_eq_getElem (reach _ (List.getElem_mem (honest.bucketed r ▸ inside)))
  rw [index, Option.bind_some, List.getElem?_map, circuit, Option.map_some] at packages comms
  exact ⟨_, _, packages, comms, made.transferred r _ (List.getElem_mem _)⟩

def picked (e : Execution) (circuits : Role → List (CircuitPackage × CommCircuitPackage Digest))
    (r : Role) : List CircuitPackage :=
  (e.cirIdxs r).filterMap (((circuits r).map Prod.fst)[·]?)

theorem initSend_eq (honest : e.Honest)
    {circuits : Role → List (CircuitPackage × CommCircuitPackage Digest)}
    (made : Made aes Commit e circuits) (r : Role) :
    let common := Bucket.commonOutput aes (e.prng r).getBlock.1 e.indexArray e.cir.mOutputs.length
    (picked e circuits r).length = e.bucketSize ∧
    e.initSend aes circuits r =
      ({ (Bucket.new : Bucket Digest) with
          mTheirInputCorrection := BitVector.empty.reset (e.cir.inputs r.other)
          mOutputLabelSeed := (e.prng r).getBlock.1
          mCommonOutput := common
          mMyCircuits := picked e circuits r },
        { translations := (picked e circuits r).map fun p =>
            Bucket.translationValues aes e.cir common p.mCircuit
          deltas := initSendDeltas
            ((picked e circuits r).map CircuitPackage.mOTRecvChoices) }) := by
  intro common
  have reach : ∀ j ∈ e.cirIdxs r, j < ((circuits r).map Prod.fst).length := fun j listed => by
    rw [List.length_map, made.count r]
    exact honest.circuits r j listed
  have count : (picked e circuits r).length = (e.cirIdxs r).length := (filterMap_getElem? reach).1
  refine ⟨count.trans (honest.bucketed r), ?_⟩
  have whole : (picked e circuits r).take (e.cirIdxs r).length = picked e circuits r :=
    List.take_of_length_le (Nat.le_of_eq count)
  unfold Execution.initSend Bucket.initSend
  simp only [Bucket.new, List.nil_append]
  simp only [picked] at whole ⊢
  rw [whole]

theorem Transferred.outputs (honest : e.Honest) {r : Role} {p : CircuitPackage}
    {c : CommCircuitPackage Digest} (circuit : Transferred aes Commit e r p c) :
    p.mCircuit.mOutputWires.length = e.cir.mOutputs.length := by
  rw [(circuit.garbled.garbled_eq aes honest.wf honest.inputReach).1]
  exact List.length_map _

theorem translationValues_length (cir : Circuit) {common : List (Block × Block)}
    {gc : HalfGtGarbledCircuit} (sized : common.length = gc.mOutputWires.length) :
    (Bucket.translationValues aes cir common gc).length = gc.mOutputWires.length := by
  unfold Bucket.translationValues
  rw [List.length_zipWith, hashOutputs_length, sized, Nat.min_self]

theorem delta_length {choices : List BitVector} {n : Nat}
    (sized : ∀ v ∈ choices, v.mNumBits = n) {delta : List Bytes.Byte}
    (listed : delta ∈ initSendDeltas choices) : delta.length = (n + 7) / 8 := by
  obtain ⟨j, inside, rfl⟩ := List.mem_map.mp listed
  have below := List.mem_range.mp inside
  have first : choices.getD 0 .empty ∈ choices := by
    rw [List.getD_eq_getElem _ _ (show 0 < choices.length by omega)]
    exact List.getElem_mem _
  rw [BitVector.bytes_length]
  unfold BitVector.sizeBytes BitVector.xorAssign
  rw [BitVector.ofCopy_numBits, sized _ first]

theorem initBucket_total (honest : e.Honest)
    {circuits : Role → List (CircuitPackage × CommCircuitPackage Digest)}
    (made : Made aes Commit e circuits) :
    ∃ bucket, e.initBucket aes circuits = .ok bucket ∧ Bucketed aes Commit e bucket := by
  have entry (r : Role) {i : Nat} := made.entry honest r (i := i)
  have transferred (r : Role) : ∀ p ∈ picked e circuits r, ∃ c, Transferred aes Commit e r p c := by
    intro p listed
    obtain ⟨i, position⟩ := List.mem_iff_getElem?.mp listed
    have inside := (List.getElem?_eq_some_iff.mp position).1
    rw [(initSend_eq honest made r).1] at inside
    obtain ⟨p', c, mine, _, circuit⟩ := entry r inside
    cases position.symm.trans mine
    exact ⟨c, circuit⟩
  have choices (r : Role) : ∀ v ∈ (picked e circuits r).map CircuitPackage.mOTRecvChoices,
      v.mNumBits = (e.kProbe r).encodingSize := by
    intro v listed
    obtain ⟨p, inside, rfl⟩ := List.mem_map.mp listed
    exact (transferred r p inside).elim fun _ circuit => circuit.choices
  have tables (r : Role) : ∀ table ∈ (e.initSend aes circuits r.other).2.translations,
      table.length = e.cir.mOutputs.length := by
    rw [(initSend_eq honest made r.other).2]
    intro table listed
    obtain ⟨p, inside, rfl⟩ := List.mem_map.mp listed
    obtain ⟨c, circuit⟩ := transferred r.other p inside
    have outputs := circuit.outputs honest
    rw [translationValues_length e.cir (by rw [Bucket.commonOutput_length, outputs]), outputs]
  have deltas (r : Role) : ∀ delta ∈ (e.initSend aes circuits r.other).2.deltas,
      delta.length = ((e.kProbe r.other).encodingSize + 7) / 8 := by
    rw [(initSend_eq honest made r.other).2]
    exact fun delta listed => delta_length (choices r.other) listed
  have total (r : Role) := by
    refine initRecv_total e.cir (e.kProbe r.other) ((circuits r.other).map Prod.snd)
      (e.cirIdxs r.other) (e.initSend aes circuits r.other).2 (e.initSend aes circuits r).1
      ?_ (tables r) ?_ (deltas r)
    · rw [(initSend_eq honest made r.other).2, honest.bucketed]
      exact (List.length_map _).trans (initSend_eq honest made r.other).1
    · rw [(initSend_eq honest made r.other).2, honest.bucketed]
      simp [initSendDeltas, (initSend_eq honest made r.other).1]
  choose permutes count received using total
  have sizes (r : Role) : dispatch (e.initSend aes circuits r.other).2.sizes = .ok () := by
    refine dispatch_ok fun bytes listed => ?_
    rcases List.mem_append.mp listed with table | delta
    · obtain ⟨translation, inside, rfl⟩ := List.mem_map.mp table
      rw [tables r translation inside, ← honest.wf.outputCount]
      have outputs := honest.outputs
      omega
    · obtain ⟨message, inside, rfl⟩ := List.mem_map.mp delta
      rw [deltas r message inside]
      exact honest.choices r.other
  refine ⟨_, bothRoles_ok fun r => then_ok_iff.mpr ⟨sizes r, received r⟩, ?_⟩
  simp only [(initSend_eq honest made _).2] at received ⊢
  constructor
  · exact fun r => (initSend_eq honest made r).1
  · intro r
    have reach : ∀ j ∈ e.cirIdxs r.other, j < ((circuits r.other).map Prod.snd).length := by
      intro j listed
      rw [List.length_map, made.count r.other]
      exact honest.circuits r.other j listed
    exact (filterMap_getElem? reach).1.trans (honest.bucketed r.other)
  · intro r i inside
    simp only [Role.other_other]
    exact entry r inside
  · intro r
    rw [count r, honest.bucketed]
  · intro r j p q first later
    exact initRecv_permutes
      (fun p listed => choices r.other _ (List.mem_map_of_mem listed)) rfl (received r) j p q first
        later
  · exact fun r => rfl
  · intro r
    simp only [honest.bucketed]
  · exact fun r => rfl
  · exact fun r => rfl
  · intro r i p listed
    simp only [List.getD_eq_getElem?_getD, List.getElem?_map] at listed ⊢
    rw [listed]
    rfl

theorem Bucketed.circuit {bucket : Role → Bucket Digest} (bucketed : Bucketed aes Commit e bucket)
    (r : Role) {i : Nat} (inside : i < e.bucketSize) : ∃ p c, Transferred aes Commit e r p c ∧
      (bucket r).mMyCircuits[i]? = some p ∧ (bucket r.other).mTheirCircuits[i]? = some c ∧
      (bucket r).mMyCircuit i = p := by
  obtain ⟨p, c, mine, theirs, circuit⟩ := bucketed.listed r i inside
  exact ⟨p, c, circuit, mine, theirs, Bucket.mMyCircuit_eq mine⟩

theorem Bucketed.honestPair (honest : e.Honest) {bucket : Role → Bucket Digest}
    (bucketed : Bucketed aes Commit e bucket) (r : Role) :
    HonestPair (e.kProbe r.other) e.cir r (bucket r) (bucket r.other) := by
  have count := bucketed.mine r
  constructor
  · rw [count]
    exact bucketed.mine r.other
  · rw [count]
    exact bucketed.theirs r.other
  · exact honest.rows r.other
  · exact honest.columns r.other
  · intro i inside
    obtain ⟨p, c, circuit, _, _, mine⟩ := bucketed.circuit r.other (count ▸ inside)
    rw [mine]
    exact circuit.choices
  · intro i inside t below
    obtain ⟨p, c, circuit, _, theirs, mine⟩ := bucketed.circuit r.other (count ▸ inside)
    rw [Role.other_other] at theirs
    rw [mine, Bucket.OTSendMsg_eq theirs]
    exact circuit.messages t below

theorem Bucketed.committed (honest : e.Honest) {bucket : Role → Bucket Digest}
    (bucketed : Bucketed aes Commit e bucket) (r : Role) :
    ProbeCommitted (fun label => Commit [label]) e.cir r.other (e.kProbe r.other) (bucket r.other)
      (fun i => ((bucket r).mMyCircuit i).mKProbeInputs)
      (fun i => ((bucket r).mMyCircuit i).mCircuit.mGlobalOffset) := by
  have pair := bucketed.honestPair honest r
  have theirs := pair.theirs.trans (bucketed.mine r)
  constructor
  · rw [theirs]
    exact honest.nonempty
  · exact pair.mine.trans pair.theirs.symm
  · exact honest.rows r.other
  · exact honest.columns r.other
  · rw [pair.theirs]
    exact pair.choices
  · intro i inside
    obtain ⟨p, c, circuit, _, _, mine⟩ := bucketed.circuit r (theirs ▸ inside)
    rw [mine]
    exact circuit.probes
  · intro i inside
    obtain ⟨p, c, circuit, _, listed, mine⟩ := bucketed.circuit r (theirs ▸ inside)
    rw [mine, listed, Option.map_some, circuit.probeCommits]

end

section
variable [DecidableEq Digest] {Commit : Block → Digest} {cir : Circuit} {role : Role}
  {myKProbe : KProbeMatrix} {b : Bucket Digest} {K : Nat → List Block} {D : Nat → Block}

/-- Labels that were masked as they were committed to pass every check. -/
theorem decodeCircuit_total (committed : ProbeCommitted Commit cir role myKProbe b K D) {i : Nat}
    (circuit : i < b.mTheirCircuits.length) {messages : List (List (Block × Block))}
    (unmasks : b.Unmasks myKProbe i (messages.getD i []) (K i) (D i)) :
    ∃ decoded, b.decodeCircuit Commit cir role myKProbe messages i = .ok decoded := by
  have each (t : Nat) (bit : t < myKProbe.encodingSize) :
      b.unmaskLabel Commit i (messages.getD i []) t =
        .ok (b.unmasked i (messages.getD i []) t) := by
    have label := unmasks.opens t bit
    rw [BitVec.xor_assoc, ← unmasked_eq_iff] at label
    unfold Bucket.unmaskLabel
    rw [committed.kProbeCommit_eq circuit bit, label, if_neg (not_not.mpr rfl)]
  obtain ⟨labels, unmasked⟩ := mapM_range_total fun t bit => ⟨_, each t bit⟩
  exact ⟨_, decodeCircuit_run committed circuit unmasks unmasked⟩

theorem initKProbeInputRecv_total (committed : ProbeCommitted Commit cir role myKProbe b K D)
    (messages : List (List (Block × Block)))
    (unmasks : ∀ i < b.mTheirCircuits.length,
      b.Unmasks myKProbe i (messages.getD i []) (K i) (D i)) :
    ∃ correction decoded, b.initKProbeInputRecv Commit cir role myKProbe messages = .ok { b with
      mInputCorrectionString := correction
      mMyDecodedKProbeLabels := decoded } := by
  have first := (BitVector.bits_length _).trans (committed.choices 0 committed.nonempty)
  obtain ⟨decoded, all⟩ := mapM_range_total fun i circuit =>
    decodeCircuit_total committed circuit (unmasks i circuit)
  exact ⟨_, decoded, bind_ok_iff.mpr ⟨_, decodeBits_total first,
    bind_ok_iff.mpr ⟨decoded, all, rfl⟩⟩⟩

omit [DecidableEq Digest] in
theorem initKProbeInputSend_total {kProbe : KProbeMatrix} {sender : Bucket Digest}
    (sized : ∀ i < 1 + sender.mTheirPermutes.length,
      (sender.mMyCircuit i).mKProbeInputs.length = kProbe.mEncodingSize) :
    ∃ offsets, sender.initKProbeInputSend kProbe = .ok ({ sender with
        mTheirInputOffsets := offsets },
      (List.range (1 + sender.mTheirPermutes.length)).map (sender.maskedLabels kProbe)) := by
  obtain ⟨offsets, decoded⟩ := mapM_range_total fun i inside =>
    ⟨_, decodeLabels_total (sized i inside)⟩
  exact ⟨offsets, bind_ok_iff.mpr ⟨offsets, decoded, rfl⟩⟩

end

structure Probed (e : Execution) (bucket probed : Role → Bucket Digest) : Prop where
  kept : ∀ r, probed r = { bucket r with
    mTheirInputOffsets := (probed r).mTheirInputOffsets
    mInputCorrectionString := (probed r).mInputCorrectionString
    mMyDecodedKProbeLabels := (probed r).mMyDecodedKProbeLabels }
  offsets : ∀ r, ∀ i < e.bucketSize, ∀ t < e.cir.inputs r.other,
    ((probed r).mTheirInputOffsets.getD i []).getD t zeroBlock =
      (e.kProbe r.other).decodeLabel ((bucket r).mMyCircuit i).mKProbeInputs t
  size : ∀ r, (probed r).mInputCorrectionString.mNumBits = e.cir.inputs r
  corrects : ∀ r, ∀ t < e.cir.inputs r, (probed r).mInputCorrectionString.get t =
    (e.kProbe r).decodeBit ((bucket r).mMyCircuit 0).mOTRecvChoices.bits t
  decoded : ∀ r, ∀ i < e.bucketSize,
    ((probed r).mMyDecodedKProbeLabels.getD i []).length = e.cir.inputs r ∧
    ∀ t < e.cir.inputs r, ((probed r).mMyDecodedKProbeLabels.getD i []).getD t zeroBlock =
      (e.kProbe r).decodeLabel ((bucket r.other).mMyCircuit i).mKProbeInputs t ^^^
        select ((e.kProbe r).decodeBit ((bucket r).mMyCircuit i).mOTRecvChoices.bits t)
          ((bucket r.other).mMyCircuit i).mCircuit.mGlobalOffset

theorem initKProbeInput_total [DecidableEq Digest] {aes : Block → Block → Block}
    {Commit : List Block → Digest} {e : Execution} (honest : e.Honest)
    {bucket : Role → Bucket Digest} (bucketed : Bucketed aes Commit e bucket) :
    ∃ probed, e.initKProbeInput Commit bucket = .ok probed ∧ Probed e bucket probed := by
  have count := bucketed.mine
  have filled (r : Role) : (bucket r).mTheirPermutes.length = (bucket r).mMyCircuits.length - 1 :=
    (bucketed.permuteCount r).trans (congrArg (· - 1) (count r).symm)
  have all (r : Role) : 1 + (bucket r).mTheirPermutes.length = e.bucketSize := by
    have nonempty := honest.nonempty
    rw [filled r, count r]
    omega
  have labels (r : Role) : ∀ i < 1 + (bucket r).mTheirPermutes.length,
      ((bucket r).mMyCircuit i).mKProbeInputs.length = (e.kProbe r.other).mEncodingSize := by
    intro i inside
    refine (bucketed.committed honest r).labels i ?_
    rw [(bucketed.honestPair honest r).theirs, count r]
    exact all r ▸ inside
  choose offsets sends using fun r => initKProbeInputSend_total (labels r)
  have pair (r : Role) : HonestPair (e.kProbe r) e.cir r.other (bucket r.other)
      { bucket r with mTheirInputOffsets := offsets r } := by
    have pair := bucketed.honestPair honest r.other
    rw [Role.other_other] at pair
    exact ⟨pair.mine, pair.theirs, pair.rows, pair.columns, pair.choices, pair.transfer⟩
  have committed (r : Role) : ProbeCommitted (fun label => Commit [label]) e.cir r (e.kProbe r)
      { bucket r with mTheirInputOffsets := offsets r }
      (fun i => ((bucket r.other).mMyCircuit i).mKProbeInputs)
      (fun i => ((bucket r.other).mMyCircuit i).mCircuit.mGlobalOffset) := by
    have committed := bucketed.committed honest r.other
    rw [Role.other_other] at committed
    exact ⟨committed.nonempty, committed.bucketed, committed.rows, committed.columns,
      committed.choices, committed.labels, committed.commits⟩
  have messages (r : Role) : ∀ i < e.bucketSize,
      ((List.range (1 + (bucket r.other).mTheirPermutes.length)).map
        ((bucket r.other).maskedLabels (e.kProbe r.other.other))).getD i [] =
      (bucket r.other).maskedLabels (e.kProbe r) i := by
    intro i inside
    rw [map_range_getD _ _ (by rw [all]; exact inside), Role.other_other]
  choose correction decoded receives using fun r => initKProbeInputRecv_total (committed r)
    ((List.range (1 + (bucket r.other).mTheirPermutes.length)).map
      ((bucket r.other).maskedLabels (e.kProbe r.other.other))) fun i circuit => by
      have inside : i < (bucket r.other).mMyCircuits.length := (pair r).theirs ▸ circuit
      rw [messages r i (count r.other ▸ inside)]
      exact maskedLabels_unmask (pair r) inside
  have sizes (r : Role) : dispatch (((List.range (1 + (bucket r.other).mTheirPermutes.length)).map
      ((bucket r.other).maskedLabels (e.kProbe r.other.other))).map
        fun masked => 32 * masked.length) = .ok () := by
    refine dispatch_ok fun bytes listed => ?_
    obtain ⟨_, inside, rfl⟩ := List.mem_map.mp listed
    obtain ⟨i, _, rfl⟩ := List.mem_map.mp inside
    have encoding := honest.encoding r.other.other
    have small := honest.small r.other.other
    rw [Bucket.maskedLabels, List.length_map, List.length_range]
    omega
  refine ⟨_, bind_ok_iff.mpr ⟨_, bothRoles_ok sends,
    bothRoles_ok fun r => then_ok_iff.mpr ⟨sizes r, receives r⟩⟩, ?_⟩
  have received (r : Role) : _ ∧ _ ∧ _ := decoded_spec (pair r)
    (fun i inside => messages r i (count r.other ▸ inside))
    ((congrArg (fun s => Bucket.initKProbeInputRecv _ e.cir s (e.kProbe r) _ _)
      (Role.other_other r)).trans (receives r))
  constructor
  · exact fun r => rfl
  · intro r i inside t input
    exact ((maskedLabels_spec (bucketed.honestPair honest r) (filled r) (sends r)).2 i
      (count r ▸ inside)).2 t input
  · intro r
    have size := (received r).2.1
    rwa [Role.other_other] at size
  · intro r t input
    exact (received r).1 t (by rw [Role.other_other]; exact input)
  · intro r i inside
    have both := (received r).2.2 i (count r.other ▸ inside)
    rw [Role.other_other] at both
    exact both

end BatchDualEx.Opening
