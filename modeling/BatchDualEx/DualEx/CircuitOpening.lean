import BatchDualEx.DualEx.CircuitPackage

/- Opening a circuit: the check passes exactly for the material that the garbler's own functions
   produce from the seeds and choice bits that are opened. -/
namespace BatchDualEx.Opening

open WordXor Lists Result Bytes

variable {Digest : Type} (aes : Block → Block → Block) (Commit : List Block → Digest)

theorem ecbEncBlocks_length (key : Block) {indexArray : List Block} {n : Nat}
    (reach : n ≤ indexArray.length) : (ecbEncBlocks aes key indexArray n).length = n := by
  simp [ecbEncBlocks, reach]

theorem ecbEncBlocks_split (key : Block) (indexArray : List Block) {n m : Nat} (fewer : n ≤ m) :
    ∃ rest, ecbEncBlocks aes key indexArray m = ecbEncBlocks aes key indexArray n ++ rest := by
  refine ⟨((indexArray.take m).drop n).map (aes key), ?_⟩
  unfold ecbEncBlocks
  rw [← List.map_append]
  congr 1
  have front := List.take_append_drop n (indexArray.take m)
  rw [List.take_take, Nat.min_eq_left fewer] at front
  exact front.symm

theorem entry_eq {entry : Option (Digest × Digest)} {first second : Digest} :
    entry.map Prod.fst = some first ∧ entry.map Prod.snd = some second ↔
      entry = some (first, second) := by
  cases entry with
  | none => simp
  | some pair => simp [Prod.ext_iff]

theorem table_eq_iff {commits : List (Digest × Digest)} {n : Nat} (sized : commits.length = n)
    (f : Nat → Digest × Digest) :
    (∀ i ∈ List.range n, commits[i]? = some (f i)) ↔ commits = (List.range n).map f := by
  constructor
  · intro each
    apply List.ext_getElem?
    intro i
    by_cases below : i < n
    · rw [each i (List.mem_range.mpr below)]
      simp [below]
    · rw [List.getElem?_eq_none (by omega), List.getElem?_eq_none (by simpa using below)]
  · rintro rfl i listed
    simp [List.mem_range.mp listed]

section
variable [DecidableEq Digest]

theorem checkKProbe_ok_iff {mGlobalOffset : Block} {commits : List (Digest × Digest)}
    {blockBuff : List Block} {i : Nat} :
    CommCircuitPackage.checkKProbe Commit mGlobalOffset commits blockBuff i = .ok () ↔
      commits[i]? = some (Commit [blockBuff.getD i zeroBlock],
        Commit [blockBuff.getD i zeroBlock ^^^ mGlobalOffset]) := by
  unfold CommCircuitPackage.checkKProbe
  rw [then_ok_iff, require_ok_iff, require_ok_iff, entry_eq]

theorem checkInput_ok_iff {mCircuit : HalfGtGarbledCircuit} {wireIdx i : Nat}
    {permuteBits : List Bool} {commits : List (Digest × Digest)} :
    CommCircuitPackage.checkInput Commit mCircuit wireIdx permuteBits commits i = .ok () ↔
      commits[i]? = some (permutedCommits Commit (permuteBits.getD i false)
        (mCircuit.mInputWires.getD (wireIdx + i) zeroBlock)
        (mCircuit.mInputWires.getD (wireIdx + i) zeroBlock ^^^ mCircuit.mGlobalOffset)) := by
  unfold CommCircuitPackage.checkInput
  rw [then_ok_iff, require_ok_iff, require_ok_iff, entry_eq]

end

def produce (cir : Circuit) (role : Role) (theirKProbe myKProbe : KProbeMatrix) (wireBuff indexArray
    adaptiveSecureTableMasks : List Block) (recvOT : I_OTExtReceiver) (firstOTIdx : Nat)
    (p : CircuitPackage) : Except Fault (CircuitPackage × Material Digest) := do
  let (p, m) := CircuitPackage.initSeeded aes Commit cir theirKProbe wireBuff indexArray
    adaptiveSecureTableMasks p
  let (p, inputCommits, _) ← p.initOT Commit cir role myKProbe recvOT firstOTIdx
  return (p, { m with inputCommits := inputCommits })

section
variable {cir : Circuit} {seeds : CircuitPackage} {indexArray : List Block}

/-- The circuit of the seeds, with just the masks that its tables need. -/
def garbled (cir : Circuit) (circuitSeed maskSeed : Block) (indexArray : List Block) :
    HalfGtGarbledCircuit :=
  HalfGtGarbledCircuit.Garble aes cir circuitSeed indexArray
    (ecbEncBlocks aes maskSeed indexArray (2 * cir.mNonXorGateCount))

theorem garbled_eq (wf : cir.WellFormed) (circuitSeed maskSeed : Block) {n : Nat}
    (enough : 2 * cir.mNonXorGateCount ≤ n) (reach : n ≤ indexArray.length) :
    HalfGtGarbledCircuit.Garble aes cir circuitSeed indexArray
      (ecbEncBlocks aes maskSeed indexArray n) =
        garbled aes cir circuitSeed maskSeed indexArray := by
  obtain ⟨rest, split⟩ := ecbEncBlocks_split aes maskSeed indexArray enough
  rw [split]
  exact HalfGtGarbledCircuit.Garble_masks aes wf circuitSeed indexArray
    (ecbEncBlocks_length aes maskSeed (by omega)) rest

def inputCommitsOf (cir : Circuit) (role : Role) (gc : HalfGtGarbledCircuit)
    (permuteBits : List Bool) : List (Digest × Digest) :=
  (List.range (cir.inputs role)).map fun i =>
    permutedCommits Commit (permuteBits.getD i false)
      (gc.mInputWires.getD (cir.start role + i) zeroBlock)
      (gc.mInputWires.getD (cir.start role + i) zeroBlock ^^^ gc.mGlobalOffset)

def materialOf (cir : Circuit) (role : Role) (theirKProbe : KProbeMatrix) (indexArray : List Block)
    (kProbeWireSeed : Block) (gc : HalfGtGarbledCircuit) (permuteBits : List Bool) :
    Material Digest :=
  { tables := gc.mGates
    translationTable := gc.mTranslationTable
    kProbeCommits := (ecbEncBlocks aes kProbeWireSeed indexArray theirKProbe.encodingSize).map
      fun label => (Commit [label], Commit [label ^^^ gc.mGlobalOffset])
    outputCommit := CircuitPackage.commitToOutputs aes Commit cir gc
    inputCommits := inputCommitsOf Commit cir role gc permuteBits }

/-- What `init` leaves in the package and puts into its messages. -/
theorem initSeeded_eq (wf : cir.WellFormed) (theirKProbe : KProbeMatrix)
    {wireBuff masks : List Block} (p : CircuitPackage)
    (inputs : cir.inputWireCount ≤ indexArray.length) (room : cir.mWireCount ≤ wireBuff.length)
    (enough : 2 * cir.mNonXorGateCount ≤ masks.length) (reach : masks.length ≤ indexArray.length) :
    let gc := garbled aes cir p.mCircuitSeed p.mAdaptiveSecureMaskSeed indexArray
    CircuitPackage.initSeeded aes Commit cir theirKProbe wireBuff indexArray masks p =
      ({ p with
          mCircuit := { gc with mGates := [] }
          mKProbeInputs := ecbEncBlocks aes p.mKProbeWireSeed indexArray theirKProbe.encodingSize },
        { materialOf aes Commit cir .first theirKProbe indexArray p.mKProbeWireSeed gc [] with
          inputCommits := [] }) := by
  intro gc
  unfold CircuitPackage.initSeeded
  simp only [HalfGtGarbledCircuit.GarbleSend_eq aes wf p.mCircuitSeed inputs room,
    garbled_eq aes wf p.mCircuitSeed p.mAdaptiveSecureMaskSeed enough reach]
  rfl

theorem initOT_ok {role : Role} {myKProbe : KProbeMatrix} {recvOT : I_OTExtReceiver}
    {firstOTIdx next : Nat} {p q : CircuitPackage} {commits : List (Digest × Digest)}
    (run : p.initOT Commit cir role myKProbe recvOT firstOTIdx = .ok (q, commits, next)) :
    ∃ choices permuteBits,
      p.mOTRecvChoices.copy recvOT.mChoiceBits firstOTIdx myKProbe.encodingSize = .ok choices ∧
      q = { p with
        mRecvOT := recvOT
        mOTStartIdx := firstOTIdx
        mOTRecvChoices := choices } ∧
      myKProbe.decodeBits choices.bits = .ok permuteBits ∧
      commits = inputCommitsOf Commit cir role p.mCircuit permuteBits := by
  obtain ⟨choices, copied, run⟩ := bind_ok run
  obtain ⟨commits, committed, run⟩ := bind_ok run
  obtain ⟨permuteBits, decoded, committed⟩ := bind_ok committed
  cases committed
  cases run
  exact ⟨choices, permuteBits, copied, rfl, decoded, rfl⟩

theorem produce_ok (wf : cir.WellFormed) {role : Role} {theirKProbe myKProbe : KProbeMatrix}
    {wireBuff masks : List Block} {recvOT : I_OTExtReceiver} {firstOTIdx : Nat}
    {p q : CircuitPackage} {m : Material Digest}
    (inputs : cir.inputWireCount ≤ indexArray.length) (room : cir.mWireCount ≤ wireBuff.length)
    (enough : 2 * cir.mNonXorGateCount ≤ masks.length) (reach : masks.length ≤ indexArray.length)
    (run : produce aes Commit cir role theirKProbe myKProbe wireBuff indexArray masks recvOT
      firstOTIdx p = .ok (q, m)) :
    ∃ choices permuteBits,
      p.mOTRecvChoices.copy recvOT.mChoiceBits firstOTIdx myKProbe.encodingSize = .ok choices ∧
      myKProbe.decodeBits choices.bits = .ok permuteBits ∧
      (∃ gc labels, q = ⟨p.mCircuitSeed, p.mAdaptiveSecureMaskSeed, p.mKProbeWireSeed, gc, labels,
        recvOT, firstOTIdx, choices⟩) ∧
      m = materialOf aes Commit cir role theirKProbe indexArray p.mKProbeWireSeed
        (garbled aes cir p.mCircuitSeed p.mAdaptiveSecureMaskSeed indexArray) permuteBits := by
  unfold produce at run
  rw [initSeeded_eq aes Commit wf theirKProbe p inputs room enough reach] at run
  obtain ⟨⟨q', commits, next⟩, started, run⟩ := bind_ok run
  obtain ⟨choices, permuteBits, copied, rfl, decoded, rfl⟩ := initOT_ok Commit started
  cases run
  exact ⟨choices, permuteBits, copied, decoded, ⟨_, _, rfl⟩, rfl⟩

structure Opens (message : Opened) (p : CircuitPackage) : Prop where
  circuitSeed : message.circuitSeed = p.mCircuitSeed
  kProbeWireSeed : message.kProbeWireSeed = p.mKProbeWireSeed
  maskSeed : message.adaptiveSecureMaskSeed = p.mAdaptiveSecureMaskSeed
  length : message.choices.length = p.mOTRecvChoices.sizeBytes
  choices : ∀ i < p.mOTRecvChoices.size, bit message.choices i = p.mOTRecvChoices.get i

theorem Opens.open (p : CircuitPackage) (sum : Block) : Opens (p.open sum).1 p := by
  refine ⟨rfl, rfl, rfl, ?_, fun i below => ?_⟩
  · change (BitVector.ofCopy p.mOTRecvChoices).bytes.length = _
    rw [BitVector.bytes_ofCopy, BitVector.bytes_length]
  · change bit (BitVector.ofCopy p.mOTRecvChoices).bytes i = _
    rw [BitVector.bytes_ofCopy, BitVector.bit_bytes]
    unfold BitVector.size at below
    unfold BitVector.sizeBytes
    omega

theorem commInit_ok_iff {mMyKProbe kProbe : KProbeMatrix} {sendOT : I_OTExtSender}
    {otIdx size : Nat} {m : Material Digest} {c : CommCircuitPackage Digest} :
    CommCircuitPackage.init cir mMyKProbe kProbe sendOT otIdx size m = .ok c ↔
      (m.tables.length = cir.mNonXorGateCount ∧ m.translationTable.length = cir.mOutputCount ∧
        m.kProbeCommits.length = mMyKProbe.encodingSize ∧ m.inputCommits.length = size) ∧
      (⟨⟨zeroBlock, [], [], m.tables, m.translationTable⟩, m.kProbeCommits, m.outputCommit,
        m.inputCommits, sendOT, otIdx, kProbe.encodingSize⟩ : CommCircuitPackage Digest) = c := by
  unfold CommCircuitPackage.init
  simp only [then_ok_iff, require_ok_iff, and_assoc]
  exact Iff.and .rfl (Iff.and .rfl (Iff.and .rfl (Iff.and .rfl
    ⟨Except.ok.inj, congrArg Except.ok⟩)))

section
variable [DecidableEq Digest]

theorem kProbe_checked_iff {mGlobalOffset : Block} {commits : List (Digest × Digest)}
    {labels : List Block} {n : Nat} (sized : commits.length = n) (length : labels.length = n)
    (rest : List Block) :
    (List.range n).forM (CommCircuitPackage.checkKProbe Commit mGlobalOffset commits
      (labels ++ rest)) = .ok () ↔
      commits = labels.map fun label => (Commit [label], Commit [label ^^^ mGlobalOffset]) := by
  have entries : labels.map (fun label => (Commit [label], Commit [label ^^^ mGlobalOffset])) =
      (List.range n).map fun i => (Commit [(labels ++ rest).getD i zeroBlock],
        Commit [(labels ++ rest).getD i zeroBlock ^^^ mGlobalOffset]) := by
    apply List.ext_getElem (by simp [length])
    intro i below below'
    have inside : i < labels.length := by simpa using below
    rw [List.getElem_map, List.getElem_map, List.getElem_range, List.getD_append _ _ _ _ inside,
      List.getD_eq_getElem _ _ inside]
  rw [forM_ok_iff, entries, ← table_eq_iff sized]
  simp only [checkKProbe_ok_iff]

theorem inputs_checked_iff {role : Role} (gc : HalfGtGarbledCircuit) {permuteBits : List Bool}
    {commits : List (Digest × Digest)} (length : permuteBits.length = cir.inputs role)
    (sized : commits.length = cir.inputs role) :
    (List.range permuteBits.length).forM
      (CommCircuitPackage.checkInput Commit gc (cir.start role) permuteBits commits) = .ok () ↔
      commits = inputCommitsOf Commit cir role gc permuteBits := by
  unfold inputCommitsOf
  rw [forM_ok_iff, length, ← table_eq_iff sized]
  simp only [checkInput_ok_iff]

/-- What the messages of an opened circuit have to agree with, and the sum that is returned. -/
theorem open_ok_iff (wf : cir.WellFormed)
    (supported : ∀ gate ∈ cir.mGates, gate.mType.Garblable) {role : Role}
    {theirKProbe myKProbe : KProbeMatrix} {message : Opened} {blockBuff : List Block}
    {c : CommCircuitPackage Digest} {sum result : Block}
    (tables : c.mCircuit.mGates.length = cir.mNonXorGateCount)
    (bits : c.mCircuit.mTranslationTable.length = cir.mOutputCount)
    (kProbe : c.mMyKProbeInputCommit.length = myKProbe.encodingSize)
    (rows : theirKProbe.n = cir.inputs role.other)
    (commits : c.mTheirInputCommits.length = cir.inputs role.other)
    (enough : max (2 * cir.mNonXorGateCount) myKProbe.encodingSize ≤ blockBuff.length)
    (reach : blockBuff.length ≤ indexArray.length)
    {choices : BitVector} {permuteBits : List Bool}
    (received : (BitVector.empty.reset theirKProbe.encodingSize).recv message.choices = .ok choices)
    (decoded : theirKProbe.decodeBits choices.bits = .ok permuteBits) :
    c.open aes Commit cir theirKProbe myKProbe role message sum indexArray blockBuff =
      .ok result ↔
    (⟨c.mCircuit.mGates, c.mCircuit.mTranslationTable, c.mMyKProbeInputCommit, c.mOutputCommit,
      c.mTheirInputCommits⟩ : Material Digest) =
        materialOf aes Commit cir role.other myKProbe indexArray message.kProbeWireSeed
          (garbled aes cir message.circuitSeed message.adaptiveSecureMaskSeed indexArray)
          permuteBits ∧
    result = (List.range theirKProbe.encodingSize).foldl
      (fun sum i => sum ^^^ c.OTSendMsg i (choices.get i)) sum := by
  obtain ⟨masked, fits⟩ := max_le_iff.mp enough
  have validated := @HalfGtGarbledCircuit.Validate_ok_iff aes cir wf supported c.mCircuit
    tables bits message.circuitSeed indexArray
    (ecbEncBlocks aes message.adaptiveSecureMaskSeed indexArray blockBuff.length)
  rw [garbled_eq aes wf _ _ masked reach] at validated
  have length := ecbEncBlocks_length aes message.kProbeWireSeed (fits.trans reach)
  have size := (KProbeMatrix.decodeBits_ok decoded).2
  have outputs : permuteBits.length = cir.inputs role.other := by
    rw [size, List.length_map, List.length_range, rows]
  have inputs := inputs_checked_iff Commit
    (garbled aes cir message.circuitSeed message.adaptiveSecureMaskSeed indexArray) outputs commits
  constructor
  · intro run
    obtain ⟨⟨_, gc⟩, check, run⟩ := bind_ok run
    obtain ⟨⟨gates, table⟩, same⟩ := (validated _).mp check
    cases same
    obtain ⟨kProbeChecked, run⟩ := then_ok_iff.mp run
    obtain ⟨output, run⟩ := then_ok_iff.mp run
    obtain ⟨choices', received', run⟩ := bind_ok run
    cases received.symm.trans received'
    obtain ⟨permuteBits', decoded', run⟩ := bind_ok run
    cases decoded.symm.trans decoded'
    obtain ⟨inputsChecked, run⟩ := then_ok_iff.mp run
    cases run
    unfold materialOf
    rw [Material.mk.injEq]
    exact ⟨⟨gates, table, (kProbe_checked_iff Commit kProbe length _).mp kProbeChecked,
      require_ok_iff.mp output, inputs.mp inputsChecked⟩, rfl⟩
  · rintro ⟨same, rfl⟩
    unfold materialOf at same
    obtain ⟨gates, table, kProbeCommits, output, inputCommits⟩ := Material.mk.inj same
    exact bind_ok_iff.mpr ⟨_, (validated _).mpr ⟨⟨gates, table⟩, rfl⟩,
      then_ok_iff.mpr ⟨(kProbe_checked_iff Commit kProbe length _).mpr kProbeCommits,
      then_ok_iff.mpr ⟨require_ok_iff.mpr output,
      bind_ok_iff.mpr ⟨choices, received, bind_ok_iff.mpr ⟨permuteBits, decoded,
      then_ok_iff.mpr ⟨inputs.mpr inputCommits, rfl⟩⟩⟩⟩⟩⟩

/-- The check passes exactly when the material received earlier is what the garbler produces from
    the seeds and choice bits it opens, and then both parties have summed the same OT messages. -/
theorem open_accepts_iff (wf : cir.WellFormed)
    (supported : ∀ gate ∈ cir.mGates, gate.mType.Garblable) {role : Role}
    {theirKProbe myKProbe : KProbeMatrix} {wireBuff masks blockBuff : List Block}
    {recvOT : I_OTExtReceiver} {sendOT : I_OTExtSender} {firstOTIdx otIdx : Nat}
    {p q : CircuitPackage} {produced received : Material Digest} {message : Opened}
    {c : CommCircuitPackage Digest} {sum : Block}
    (rows : theirKProbe.n = cir.inputs role.other)
    (inputs : cir.inputWireCount ≤ indexArray.length) (room : cir.mWireCount ≤ wireBuff.length)
    (masked : 2 * cir.mNonXorGateCount ≤ masks.length)
    (maskReach : masks.length ≤ indexArray.length)
    (enough : max (2 * cir.mNonXorGateCount) myKProbe.encodingSize ≤ blockBuff.length)
    (reach : blockBuff.length ≤ indexArray.length) (fresh : p.mOTRecvChoices = .empty)
    (garbler : produce aes Commit cir role.other myKProbe theirKProbe wireBuff indexArray masks
      recvOT firstOTIdx p = .ok (q, produced))
    (evaluator : CommCircuitPackage.init cir myKProbe theirKProbe sendOT otIdx
      (cir.inputs role.other) received = .ok c)
    (opens : Opens message q) :
    ((∃ result, c.open aes Commit cir theirKProbe myKProbe role message sum indexArray blockBuff =
      .ok result) ↔ received = produced) ∧
    (received = produced → otIdx = firstOTIdx →
      OTsCorrect (firstOTIdx + theirKProbe.encodingSize) recvOT sendOT →
        c.open aes Commit cir theirKProbe myKProbe role message sum indexArray blockBuff =
          .ok (q.open sum).2) := by
  obtain ⟨choices, permuteBits, copied, decoded, ⟨gc, labels, rfl⟩, rfl⟩ :=
    produce_ok aes Commit wf inputs room masked maskReach garbler
  obtain ⟨⟨tables, bits, kProbe, commits⟩, made⟩ := commInit_ok_iff.mp evaluator
  replace made := made.symm
  rw [fresh] at copied
  obtain ⟨size, read⟩ := BitVector.copy_empty_ok copied
  have opened : message.choices.length = (theirKProbe.encodingSize + 7) / 8 := by
    rw [opens.length, ← size]
    rfl
  obtain ⟨choices', arrived, size', read'⟩ := BitVector.recv_reset opened
  have agree : ∀ i < theirKProbe.encodingSize, choices'.get i = choices.get i := fun i below =>
    (read' i below).trans (opens.choices i (by unfold BitVector.size; rwa [size]))
  have sameBits : choices'.bits = choices.bits :=
    BitVector.bits_eq (size'.trans size.symm) fun i below => agree i (size' ▸ below)
  have exactly (result : Block) :
      c.open aes Commit cir theirKProbe myKProbe role message sum indexArray blockBuff =
        .ok result ↔ _ :=
    open_ok_iff aes Commit wf supported (by rw [made]; exact tables) (by rw [made]; exact bits)
      (by rw [made]; exact kProbe) rows (by rw [made]; exact commits) enough reach arrived
      (sameBits ▸ decoded)
  have asReceived : (⟨c.mCircuit.mGates, c.mCircuit.mTranslationTable, c.mMyKProbeInputCommit,
      c.mOutputCommit, c.mTheirInputCommits⟩ : Material Digest) = received := by
    rw [made]
  rw [asReceived, opens.circuitSeed, opens.kProbeWireSeed, opens.maskSeed] at exactly
  constructor
  · constructor
    · rintro ⟨result, run⟩
      exact ((exactly result).mp run).1
    · intro same
      exact ⟨_, (exactly _).mpr ⟨same, rfl⟩⟩
  · intro same rfl correct
    refine (exactly _).mpr ⟨same, ?_⟩
    unfold CircuitPackage.open BitVector.size
    simp only [size]
    apply List.foldl_ext
    intro acc i listed
    have below := List.mem_range.mp listed
    rw [agree i below, read i (by unfold BitVector.sizeBytes; omega)]
    simp only [below, true_or, decide_true, Bool.true_and, made]
    exact congrArg (acc ^^^ ·) (correct.chosen (otIdx + i) (by omega))

end

end

open HalfGtGarbledCircuit in
theorem open_accepts_three_gates :
    let M : KProbeMatrix := ⟨[[]], 1⟩
    let recvOT : I_OTExtReceiver := ⟨BitVector.empty.reset 8, fun i => BitVec.ofNat 128 i⟩
    let sendOT : I_OTExtSender := ⟨fun i bit => if bit then 7 else BitVec.ofNat 128 i⟩
    let p : CircuitPackage := ⟨5, 6, 7, ⟨0, [], [], [], []⟩, [], recvOT, 0, .empty⟩
    let index : List Block := [0, 1, 2, 3, 4, 5]
    ∃ q m c,
      produce rotatingAes id threeGates Role.first.other M M index index (index.take 4) recvOT 3 p =
        .ok (q, m) ∧
      CommCircuitPackage.init threeGates M M sendOT 3 1 m = .ok c ∧
      c.open rotatingAes id threeGates M M .first (q.open 0).1 0 index (index.take 4) =
        .ok (q.open 0).2 := by
  intro M recvOT sendOT p index
  obtain ⟨c, both⟩ : ∃ c, (produce rotatingAes id threeGates Role.first.other M M index index
      (index.take 4) recvOT 3 p >>= fun made =>
        CommCircuitPackage.init threeGates M M sendOT 3 1 made.2) = .ok c :=
    ok_of_toBool (by decide +kernel)
  obtain ⟨⟨q, m⟩, garbler, evaluator⟩ := bind_ok both
  refine ⟨q, m, c, garbler, evaluator, ?_⟩
  exact (open_accepts_iff rotatingAes id threeGates_wellFormed (by decide) rfl (by decide)
    (by decide) (by decide) (by decide) (by decide) (by decide) rfl garbler evaluator
    (Opens.open q 0)).2 rfl rfl ⟨by decide +kernel, by decide +kernel⟩

end BatchDualEx.Opening
