import BatchDualEx.DualEx.TranslationCheck

/- `mIndexArray` is sized once in `DualExActor::init` and encrypted from at six places, into
   buffers that are sized elsewhere. A call with `n` blocks reads `n` entries of the array and
   writes `n` blocks of its buffer, and nothing is checked. The channel refuses an empty message,
   so a thread does not get to the calls behind it. -/
namespace BatchDualEx.Opening

structure Accepted (cir : Circuit) : Prop where
  wf : cir.WellFormed
  first : 1 ≤ cir.inputs .first
  second : 1 ≤ cir.inputs .second

structure EcbCall where
  dst : Nat
  n : Nat
  deriving DecidableEq, Repr

def EcbCall.InBounds (indexArray : List Block) (call : EcbCall) : Prop :=
  call.n ≤ indexArray.length ∧ call.n ≤ call.dst

instance (indexArray : List Block) : DecidablePred (EcbCall.InBounds indexArray) :=
  fun call => inferInstanceAs (Decidable (call.n ≤ indexArray.length ∧ call.n ≤ call.dst))

/-- What a thread does: an encryption, a message of so many bytes, a check. -/
inductive Step
  | ecb (call : EcbCall)
  | message (bytes : Nat)
  | check (passes : Bool)

/-- The encryptions up to the first step that throws. -/
def made : List Step → List EcbCall
  | [] => []
  | .ecb call :: steps => call :: made steps
  | .message bytes :: steps => if u32 bytes = 0 then [] else made steps
  | .check passes :: steps => if passes then made steps else []

section
variable {P : EcbCall → Prop} {steps : List Step}

theorem forall_made_ecb {own : EcbCall} :
    (∀ call ∈ made (.ecb own :: steps), P call) ↔ P own ∧ ∀ call ∈ made steps, P call :=
  List.forall_mem_cons

theorem forall_made_message {bytes : Nat} :
    (∀ call ∈ made (.message bytes :: steps), P call) ↔
      (u32 bytes ≠ 0 → ∀ call ∈ made steps, P call) := by
  by_cases refused : u32 bytes = 0
  · simp [made, refused]
  · simp [made, refused]

theorem forall_made_check {passes : Bool} :
    (∀ call ∈ made (.check passes :: steps), P call) ↔
      (passes = true → ∀ call ∈ made steps, P call) := by
  cases passes <;> simp [made]

theorem forall_made_messages {sizes : List Nat} :
    (∀ call ∈ made (sizes.map Step.message ++ steps), P call) ↔
      ((∀ bytes ∈ sizes, u32 bytes ≠ 0) → ∀ call ∈ made steps, P call) := by
  induction sizes with
  | nil => simp
  | cons bytes sizes ih =>
    simp only [List.map_cons, List.cons_append, forall_made_message, ih, List.forall_mem_cons,
      and_imp]

end

section
variable (cir : Circuit) (role : Role) (mMyKProbe mTheirKProbe : KProbeMatrix)

def mIndexArray : List Block :=
  let size := max (max (max mMyKProbe.encodingSize mTheirKProbe.encodingSize) cir.mWireCount)
    (cir.mGates.length * 2)
  (List.range size).map fun i => mmSetEpi64x 0 (BitVec.ofNat 64 i)

def tableMasksSize : Nat := cir.mNonXorGateCount * 2

def blockBuffSize : Nat := max (cir.mNonXorGateCount * 2) mTheirKProbe.encodingSize

def inputLabelCall : EcbCall := ⟨cir.inputWireCount, cir.inputWireCount⟩

def CircuitPackage.initSteps : List Step :=
  [.ecb ⟨tableMasksSize cir, tableMasksSize cir⟩, .ecb (inputLabelCall cir)] ++
    (garbledSizes cir).map Step.message ++
    [.ecb ⟨mTheirKProbe.encodingSize, mTheirKProbe.encodingSize⟩] ++
    [40 * mTheirKProbe.encodingSize, 40 * cir.inputs role].map Step.message

def CircuitPackage.openSteps : List Step := [.message ((mMyKProbe.encodingSize + 7) / 8)]

def CommCircuitPackage.initSteps : List Step :=
  (materialSizes cir role.other mMyKProbe).map Step.message

/-- `Validate` compares all of the tables, so they have to have arrived in one message. -/
def CommCircuitPackage.openSteps : List Step :=
  [.ecb ⟨blockBuffSize cir mTheirKProbe, blockBuffSize cir mTheirKProbe⟩,
    .ecb (inputLabelCall cir), .check (32 * cir.mNonXorGateCount < 2 ^ 32),
    .ecb ⟨blockBuffSize cir mTheirKProbe, mMyKProbe.encodingSize⟩]

def Bucket.initSendSteps : List Step :=
  [.ecb ⟨cir.mOutputs.length * 2, cir.mOutputs.length * 2⟩,
    .message (32 * cir.mOutputs.length)]

def executeSteps : List Step := [.ecb ⟨cir.mOutputCount * 2, cir.mOutputCount * 2⟩]

def initRecvSteps : List Step :=
  CommCircuitPackage.initSteps cir role mMyKProbe ++
    CommCircuitPackage.openSteps cir mMyKProbe mTheirKProbe

/-- The thread that sends circuits. The sets of the cut and choose, for which it waits, are there
    when the circuits of the other party have been received, and `execute` needs its buckets. -/
def initSendSteps : List Step :=
  CircuitPackage.initSteps cir role mTheirKProbe ++
    CommCircuitPackage.initSteps cir role mMyKProbe ++ CircuitPackage.openSteps mMyKProbe ++
    Bucket.initSendSteps cir ++ executeSteps cir

def ecbCalls : List EcbCall :=
  made (initSendSteps cir role mMyKProbe mTheirKProbe) ++
    made (initRecvSteps cir role mMyKProbe mTheirKProbe)

def Delivered (kProbe : KProbeMatrix) : Prop :=
  ∀ bytes ∈ materialSizes cir role kProbe, u32 bytes ≠ 0

instance (kProbe : KProbeMatrix) : Decidable (Delivered cir role kProbe) :=
  inferInstanceAs (Decidable (∀ bytes ∈ materialSizes cir role kProbe, u32 bytes ≠ 0))

def Validated : Prop := Delivered cir role.other mMyKProbe ∧ 32 * cir.mNonXorGateCount < 2 ^ 32

def CutAndChosen : Prop :=
  Delivered cir role mTheirKProbe ∧ Delivered cir role.other mMyKProbe ∧
    u32 ((mMyKProbe.encodingSize + 7) / 8) ≠ 0

variable {cir role mMyKProbe mTheirKProbe}

theorem mIndexArray_length : (mIndexArray cir mMyKProbe mTheirKProbe).length =
    max (max (max mMyKProbe.encodingSize mTheirKProbe.encodingSize) cir.mWireCount)
      (cir.mGates.length * 2) := by
  simp only [mIndexArray, List.length_map, List.length_range]

/-- The bounds that follow from the size of the index array, whatever the encodings are. -/
theorem fixed_inBounds (mMyKProbe mTheirKProbe : KProbeMatrix) (accepted : Accepted cir) :
    2 * cir.mNonXorGateCount ≤ (mIndexArray cir mMyKProbe mTheirKProbe).length ∧
      cir.inputWireCount ≤ (mIndexArray cir mMyKProbe mTheirKProbe).length ∧
      mMyKProbe.encodingSize ≤ (mIndexArray cir mMyKProbe mTheirKProbe).length ∧
      mTheirKProbe.encodingSize ≤ (mIndexArray cir mMyKProbe mTheirKProbe).length := by
  have tables : cir.mNonXorGateCount ≤ cir.mGates.length :=
    accepted.wf.tables ▸ List.countP_le_length
  have wires := accepted.wf.wires
  rw [mIndexArray_length]
  omega

/-- `blockBuff` is sized for the encodings of the wrong party. -/
theorem initRecvSteps_inBounds_iff (accepted : Accepted cir) :
    (∀ call ∈ made (initRecvSteps cir role mMyKProbe mTheirKProbe),
      call.InBounds (mIndexArray cir mMyKProbe mTheirKProbe)) ↔
    (Validated cir role mMyKProbe →
      mMyKProbe.encodingSize ≤ max (2 * cir.mNonXorGateCount) mTheirKProbe.encodingSize) := by
  obtain ⟨masks, inputs, mine, theirs⟩ :=
    fixed_inBounds mMyKProbe mTheirKProbe accepted
  simp only [initRecvSteps, CommCircuitPackage.initSteps, CommCircuitPackage.openSteps,
    forall_made_messages, forall_made_ecb, forall_made_check, decide_eq_true_iff, Validated,
    Delivered, inputLabelCall, blockBuffSize, EcbCall.InBounds, and_imp]
  constructor
  · intro within delivered whole
    have opened := ((within delivered).2.2 whole).1.2
    omega
  · intro room delivered
    refine ⟨⟨by omega, le_rfl⟩, ⟨inputs, le_rfl⟩, fun whole => ⟨⟨mine, ?_⟩, by simp [made]⟩⟩
    have opened := room delivered whole
    omega

theorem initSendSteps_inBounds_iff (accepted : Accepted cir) :
    (∀ call ∈ made (initSendSteps cir role mMyKProbe mTheirKProbe),
      call.InBounds (mIndexArray cir mMyKProbe mTheirKProbe)) ↔
    (CutAndChosen cir role mMyKProbe mTheirKProbe →
      2 * cir.mOutputs.length ≤ (mIndexArray cir mMyKProbe mTheirKProbe).length) := by
  obtain ⟨masks, inputs, mine, theirs⟩ :=
    fixed_inBounds mMyKProbe mTheirKProbe accepted
  have outputs := accepted.wf.outputCount
  have material : Delivered cir role mTheirKProbe ↔ (∀ bytes ∈ garbledSizes cir, u32 bytes ≠ 0) ∧
      ∀ bytes ∈ [40 * mTheirKProbe.encodingSize, 40 * cir.inputs role], u32 bytes ≠ 0 :=
    List.forall_mem_append
  simp only [initSendSteps, CircuitPackage.initSteps, CommCircuitPackage.initSteps,
    CircuitPackage.openSteps, Bucket.initSendSteps, executeSteps, List.append_assoc,
    List.cons_append, List.nil_append, forall_made_messages, forall_made_ecb, forall_made_message,
    CutAndChosen, material, inputLabelCall, tableMasksSize, EcbCall.InBounds, and_imp]
  constructor
  · intro within garbled commits received choices
    have common := ((within.2.2 garbled).2 commits received choices).1.1
    omega
  · intro room
    refine ⟨⟨by omega, le_rfl⟩, ⟨inputs, le_rfl⟩, fun garbled => ⟨⟨theirs, le_rfl⟩,
      fun commits received choices => ?_⟩⟩
    have common := room garbled commits received choices
    exact ⟨⟨by omega, le_rfl⟩, fun _ => ⟨⟨by omega, le_rfl⟩, by simp [made]⟩⟩

/-- All calls that are made stay in bounds exactly if the array has room for the common labels of
    the outputs and `blockBuff` for the own encoding, where the threads get that far. -/
theorem ecbCalls_inBounds_iff (accepted : Accepted cir) :
    (∀ call ∈ ecbCalls cir role mMyKProbe mTheirKProbe,
      call.InBounds (mIndexArray cir mMyKProbe mTheirKProbe)) ↔
    (CutAndChosen cir role mMyKProbe mTheirKProbe →
      2 * cir.mOutputs.length ≤ (mIndexArray cir mMyKProbe mTheirKProbe).length) ∧
    (Validated cir role mMyKProbe →
      mMyKProbe.encodingSize ≤ max (2 * cir.mNonXorGateCount) mTheirKProbe.encodingSize) := by
  rw [ecbCalls, List.forall_mem_append, initSendSteps_inBounds_iff accepted,
    initRecvSteps_inBounds_iff accepted]

end

/-- One AND gate whose output is output sixty times. -/
def manyOutputs : Circuit := ⟨3, 1, 60, (1, 1), [⟨0, 1, 2, .and⟩], List.replicate 60 2⟩

def probeOfSize (m : Nat) : KProbeMatrix := ⟨[List.replicate (m - 1) true], m⟩

theorem manyOutputs_outOfBounds : ¬ ∀ cir role mMyKProbe mTheirKProbe, Accepted cir →
    ∀ call ∈ ecbCalls cir role mMyKProbe mTheirKProbe,
      call.InBounds (mIndexArray cir mMyKProbe mTheirKProbe) := by
  intro claim
  have accepted : Accepted manyOutputs :=
    ⟨⟨by decide, by decide, by decide, by decide, by decide⟩, by decide, by decide⟩
  have inside := claim manyOutputs .first (probeOfSize 100) (probeOfSize 100) accepted ⟨120, 120⟩
    (by decide)
  have reads := inside.1
  rw [mIndexArray_length] at reads
  exact absurd reads (by decide)

/-- With one output, and the larger encoding on the side of the other party. -/
def oneOutput : Circuit := ⟨3, 1, 1, (1, 1), [⟨0, 1, 2, .and⟩], [2]⟩

theorem ecbCalls_inBounds_sample : Accepted oneOutput ∧
    CutAndChosen oneOutput .first (probeOfSize 80) (probeOfSize 100) ∧
    ∀ call ∈ ecbCalls oneOutput .first (probeOfSize 80) (probeOfSize 100),
      call.InBounds (mIndexArray oneOutput (probeOfSize 80) (probeOfSize 100)) := by
  have accepted : Accepted oneOutput :=
    ⟨⟨by decide, by decide, by decide, by decide, by decide⟩, by decide, by decide⟩
  refine ⟨accepted, ⟨by decide, by decide, by decide⟩,
    (ecbCalls_inBounds_iff accepted).mpr ⟨fun _ => ?_, fun _ => by decide⟩⟩
  rw [mIndexArray_length]
  decide

end BatchDualEx.Opening
