import BatchDualEx.DualEx.OTCursor
import BatchDualEx.Common.Block
import BatchDualEx.Lib.Script
import BatchDualEx.Network.Message

/- The sizes of all messages between matching threads: what the garbling side puts on its
   channels and what the evaluating side has set aside for it. The I/O layer stores a size in
   32 bits and refuses an empty message. -/
namespace BatchDualEx

open Script

/-- A message with the `(capacity, loc)` of every `ByteStream::setp` used to build it. -/
structure Outgoing where
  setps : List (Nat × Nat)
  bytes : Nat
  deriving DecidableEq, Repr

inductive Incoming where
  | buffer (length : Nat)
  | bits (count : Nat)
  deriving DecidableEq, Repr

def sizeBytes (numBits : Nat) : Nat := (numBits + 7) / 8

def sizeofBlock : Nat := 16
def sizeofGarbledGate : Nat := 32
def sizeofCommit : Nat := 20
def sizeofU64 : Nat := 8

namespace Outgoing

def raw (size : Nat) : Outgoing := ⟨[], size⟩
def stream (capacity loc : Nat) : Outgoing := ⟨[(capacity, loc)], loc⟩
def bits (count : Nat) : Outgoing := ⟨[], sizeBytes count⟩

end Outgoing

namespace Incoming

def length : Incoming → Nat
  | buffer length => length
  | bits count => sizeBytes count

/-- What `dispatch` and `receiveOne` check before the message is read: a buffer is compared
    in 32 bits and must not be empty, a `BitVector` has to keep its size. -/
def accepts (header : Nat) : Incoming → Prop
  | buffer length => u32 length ≠ 0 ∧ u32 length = header
  | bits count => sizeBytes count = header

end Incoming

/-- The message is built within its buffers, is not refused as empty, has the length which
    the other side expects and raises nothing there. -/
def Delivered (m : Outgoing) (e : Incoming) : Prop :=
  (∀ s ∈ m.setps, s.2 ≤ s.1) ∧ u32 m.bytes ≠ 0 ∧ m.bytes = e.length ∧ e.accepts (u32 m.bytes)

def Sendable (size : Nat) : Prop := u32 size ≠ 0

instance (size : Nat) : Decidable (Sendable size) :=
  inferInstanceAs (Decidable (u32 size ≠ 0))

section
variable (cir : Circuit) (role : Role) (p : InitParams)

def GarbleSend : List Outgoing :=
  [.stream (sizeofGarbledGate * cir.mNonXorGateCount) (sizeofGarbledGate * cir.mNonXorGateCount),
    .bits cir.mOutputCount]

def ReceiveFromGarbler : List Incoming :=
  [.buffer (cir.mNonXorGateCount * sizeofGarbledGate), .buffer (sizeBytes cir.mOutputCount)]

/-- `commitToOutputs` hashes all output labels in a buffer of its own and sends one commit. -/
def commitToOutputs : List Outgoing :=
  [⟨[(sizeofBlock * 2 * cir.mOutputs.length, sizeofBlock * 2 * cir.mOutputs.length),
    (sizeofCommit, sizeofCommit)], sizeofCommit⟩]

def packageInit : List Outgoing :=
  GarbleSend cir ++
    [.stream (p.mTheirKProbeEncodingSize * 2 * sizeofCommit)
      (p.mTheirKProbeEncodingSize * 2 * sizeofCommit)] ++
    commitToOutputs cir

def commPackageInit : List Incoming :=
  ReceiveFromGarbler cir ++
    [.buffer (p.mMyKProbeEncodingSize * sizeofCommit * 2), .buffer sizeofCommit]

def packageInitOT : List Outgoing :=
  [.stream (cir.inputs role * 2 * sizeofCommit) (cir.inputs role * 2 * sizeofCommit)]

def commPackageInitOT : List Incoming :=
  [.buffer (cir.inputs role.other * sizeofCommit * 2)]

def packageOpen : List Outgoing :=
  [.raw sizeofBlock, .raw sizeofBlock, .raw sizeofBlock, .bits p.mMyKProbeEncodingSize]

def commPackageOpen : List Incoming :=
  [.buffer sizeofBlock, .buffer sizeofBlock, .buffer sizeofBlock,
    .bits p.mTheirKProbeEncodingSize]

def bucketInitSend : List Outgoing :=
  forEach (List.range p.mBucketSize)
    [.stream (2 * sizeofBlock * cir.mOutputs.length) (2 * sizeofBlock * cir.mOutputs.length)] ++
  forEach (List.range (p.mBucketSize - 1)) [.bits p.mMyKProbeEncodingSize]

def bucketInitRecv : List Incoming :=
  forEach (List.range p.mBucketSize) [.buffer (cir.mOutputs.length * sizeofBlock * 2)] ++
  forEach (List.range (p.mBucketSize - 1)) [.bits p.mTheirKProbeEncodingSize]

def initKProbeInputSend : List Outgoing :=
  forEach (List.range p.mBucketSize) [.raw (2 * sizeofBlock * p.mTheirKProbeEncodingSize)]

def initKProbeInputRecv : List Incoming :=
  forEach (List.range p.mBucketSize) [.buffer (sizeofBlock * (2 * p.mMyKProbeEncodingSize))]

/-- The dummy message that only flushes the socket. -/
def dummySend : List Outgoing := [.raw sizeofU64]
def dummyRecv : List Incoming := [.buffer sizeofU64]

def proofSend : List Outgoing := [.raw sizeofBlock]
def proofRecv : List Incoming := [.buffer sizeofBlock]

def initSendMessages (opened : List Nat) (initThrdIdx : Nat) : List Outgoing :=
  forEach (p.circuits initThrdIdx) (packageInit cir p) ++ (dummySend ++
  (forEach (p.circuits initThrdIdx) (packageInitOT cir role) ++ (dummySend ++
  (forEach (p.openedBy opened initThrdIdx) (packageOpen p) ++ (dummySend ++ (proofSend ++
  (forEach (p.buckets initThrdIdx) (bucketInitSend cir p) ++ (dummySend ++
  forEach (p.buckets initThrdIdx) (initKProbeInputSend p)))))))))

def initRecvMessages (opened : List Nat) (initThrdIdx : Nat) : List Incoming :=
  forEach (p.circuits initThrdIdx) (commPackageInit cir p) ++ (dummyRecv ++
  (forEach (p.circuits initThrdIdx) (commPackageInitOT cir role) ++ (dummyRecv ++
  (forEach (p.openedBy opened initThrdIdx) (commPackageOpen p) ++ (dummyRecv ++ (proofRecv ++
  (forEach (p.buckets initThrdIdx) (bucketInitRecv cir p) ++ (dummyRecv ++
  forEach (p.buckets initThrdIdx) (initKProbeInputRecv p)))))))))

def evalCircuits (circuitOffset circuitStep : Nat) : List Nat :=
  List.range' circuitOffset ((p.mBucketSize - circuitOffset + circuitStep - 1) / circuitStep)
    circuitStep

/-- The seed and my labels of every circuit, then the corrections of their labels, in a
    buffer for their inputs that is sized with mine. -/
def sendCircuitInputs (circuitOffset circuitStep : Nat) : List Outgoing :=
  forEach (evalCircuits p circuitOffset circuitStep)
    [.raw sizeofBlock,
      .stream (cir.inputs role * sizeofBlock) (cir.inputs role * sizeofBlock)] ++
  forEach (evalCircuits p circuitOffset circuitStep)
    [.stream (cir.inputs role.other * sizeofBlock) (cir.inputs role * sizeofBlock)]

def evalCircuit : List Incoming :=
  [.buffer sizeofBlock, .buffer (cir.inputs role.other * sizeofBlock),
    .buffer (cir.inputs role * sizeofBlock)]

end

/-- Two actors with the same parameters, `first` as `First` sees them, and the circuits of
    either party that are opened. The constructor asks for inputs of both parties. -/
structure ActorPair where
  cir : Circuit
  first : InitParams
  opened : Role → List Nat
  some_inputs : ∀ role, 1 ≤ cir.inputs role
  some_bucket : 1 ≤ first.mBucketSize
  some_thread : 0 < first.mNumInitThreads
  opened_length : ∀ role, (opened role).length = first.mNumOpened
  opened_lt : ∀ role, ∀ cirIdx ∈ opened role, cirIdx < first.mNumCircuits

namespace ActorPair

variable (a : ActorPair)

def params : Role → InitParams
  | .first => a.first
  | .second => a.first.peer

/-- Every message of every init thread and of every evaluation thread in both directions. An
    evaluation thread steps by the bucket size, as both online loops assert. -/
def AllDelivered : Prop :=
  ∀ role,
    (∀ t < (a.params role).mNumInitThreads, List.Forall₂ Delivered
      (initSendMessages a.cir role (a.params role) (a.opened role) t)
      (initRecvMessages a.cir role.other (a.params role.other) (a.opened role) t)) ∧
    ∀ c < (a.params role).mBucketSize, List.Forall₂ Delivered
      (sendCircuitInputs a.cir role (a.params role) c (a.params role).mBucketSize)
      (evalCircuit a.cir role.other)

structure SizesFit : Prop where
  inputs : a.cir.inputs .first = a.cir.inputs .second
  gates : Sendable (32 * a.cir.mNonXorGateCount)
  translation : Sendable (sizeBytes a.cir.mOutputCount)
  outputs : Sendable (32 * a.cir.mOutputs.length)
  labels : Sendable (16 * a.cir.inputs .first)
  encodings : ∀ role, Sendable (32 * (a.params role).mMyKProbeEncodingSize)
  choices : 2 ≤ a.first.mBucketSize ∨ 1 ≤ a.first.mNumOpened →
    ∀ role, sizeBytes (a.params role).mMyKProbeEncodingSize < 4294967296

end ActorPair

theorem delivered_stream (capacity loc length : Nat) :
    Delivered (.stream capacity loc) (.buffer length) ↔
      loc ≤ capacity ∧ Sendable loc ∧ loc = length := by
  unfold Delivered Sendable Outgoing.stream Incoming.length Incoming.accepts
  constructor
  · rintro ⟨fits, sendable, same, _⟩
    exact ⟨fits _ List.mem_cons_self, sendable, same⟩
  · rintro ⟨fits, sendable, rfl⟩
    refine ⟨fun s built => ?_, sendable, rfl, sendable, rfl⟩
    rw [List.mem_singleton.mp built]
    exact fits

theorem delivered_raw (size length : Nat) :
    Delivered (.raw size) (.buffer length) ↔ Sendable size ∧ size = length := by
  unfold Delivered Sendable Outgoing.raw Incoming.length Incoming.accepts
  constructor
  · rintro ⟨_, sendable, same, _⟩
    exact ⟨sendable, same⟩
  · rintro ⟨sendable, rfl⟩
    exact ⟨fun s built => absurd built List.not_mem_nil, sendable, rfl, sendable, rfl⟩

theorem delivered_bits_buffer (count length : Nat) :
    Delivered (.bits count) (.buffer length) ↔
      Sendable (sizeBytes count) ∧ sizeBytes count = length :=
  delivered_raw (sizeBytes count) length

theorem delivered_bits (count : Nat) :
    Delivered (.bits count) (.bits count) ↔
      1 ≤ sizeBytes count ∧ sizeBytes count < 4294967296 := by
  unfold Delivered Outgoing.bits Incoming.length Incoming.accepts u32
  constructor
  · rintro ⟨_, sendable, _, kept⟩
    simp only at sendable kept
    omega
  · rintro ⟨some, small⟩
    refine ⟨fun s built => absurd built List.not_mem_nil, ?_, rfl, ?_⟩ <;> simp only <;> omega

theorem delivered_full {size length : Nat} (same : size = length) :
    Delivered (.stream size size) (.buffer length) ↔ Sendable size := by
  rw [delivered_stream]
  constructor
  · intro delivered
    exact delivered.2.1
  · intro sendable
    exact ⟨le_rfl, sendable, same⟩

theorem delivered_raw_of_eq {size length : Nat} (same : size = length) :
    Delivered (.raw size) (.buffer length) ↔ Sendable size := by
  rw [delivered_raw]
  exact and_iff_left same

theorem delivered_raw_constant {size : Nat} (sendable : Sendable size) :
    Delivered (.raw size) (.buffer size) :=
  (delivered_raw_of_eq rfl).mpr sendable

theorem delivered_commit (cir : Circuit) :
    List.Forall₂ Delivered (commitToOutputs cir) [.buffer sizeofCommit] := by
  unfold commitToOutputs
  refine .cons ⟨fun s built => ?_, ?_, rfl, ?_⟩ .nil
  · rcases List.mem_cons.mp built with rfl | last
    · exact le_rfl
    · rw [List.mem_singleton.mp last]
  · show u32 20 ≠ 0
    decide
  · show u32 20 ≠ 0 ∧ u32 20 = u32 20
    decide

/-- Two commits for every label pair need no condition of their own: five is odd. -/
theorem sendable_commits {n multiple : Nat} (even : 8 ∣ multiple)
    (sendable : Sendable (multiple * n)) : Sendable (40 * n) := by
  unfold Sendable u32 at *
  intro empty
  apply sendable
  have whole : 8 * 536870912 ∣ 8 * (5 * n) := by
    rw [← Nat.mul_assoc]
    exact Nat.dvd_of_mod_eq_zero empty
  have odd : 536870912 ∣ n := by
    have five := Nat.dvd_of_mul_dvd_mul_left (by decide) whole
    exact Nat.Coprime.dvd_of_dvd_mul_left (by decide) five
  exact Nat.mod_eq_zero_of_dvd (Nat.mul_dvd_mul even odd)

namespace ActorPair

variable (a : ActorPair) (role : Role)

theorem params_other : a.params role.other = (a.params role).peer := by
  cases role <;> rfl

theorem their_encoding : (a.params role.other).mTheirKProbeEncodingSize =
    (a.params role).mMyKProbeEncodingSize := by
  rw [params_other]
  rfl

theorem my_encoding : (a.params role.other).mMyKProbeEncodingSize =
    (a.params role).mTheirKProbeEncodingSize := by
  rw [params_other]
  rfl

theorem some_bucket_of : 1 ≤ (a.params role).mBucketSize := by
  cases role
  · exact a.some_bucket
  · exact a.some_bucket

theorem some_thread_of : 0 < (a.params role).mNumInitThreads := by
  cases role
  · exact a.some_thread
  · exact a.some_thread

theorem mNumCircuits_of : (a.params role).mNumCircuits = a.first.mNumCircuits := by
  cases role <;> rfl

theorem mBucketSize_of : (a.params role).mBucketSize = a.first.mBucketSize := by
  cases role <;> rfl

theorem some_circuits : ∃ t < (a.params role).mNumInitThreads, (a.params role).circuits t ≠ [] := by
  have running := a.some_thread_of role
  have bucket := a.some_bucket_of role
  have executions : (a.params role).mNumInitThreads ≤ (a.params role).mNumExe :=
    Nat.min_le_right _ _
  refine ⟨(a.params role).mNumInitThreads - 1, by omega, ?_⟩
  rw [← List.length_pos_iff, InitParams.circuits_length_last _ running]
  have built : 0 < (a.params role).mNumCircuits := by
    have := Nat.mul_pos (m := (a.params role).mNumExe) bucket (by omega)
    unfold InitParams.mNumCircuits
    omega
  exact Nat.div_pos (by omega) running

theorem some_buckets : (a.params role).buckets 0 ≠ [] := by
  have running := a.some_thread_of role
  have executions : (a.params role).mNumInitThreads ≤ (a.params role).mNumExe :=
    Nat.min_le_right _ _
  unfold InitParams.buckets
  rw [← List.length_pos_iff, List.length_map, List.length_range']
  exact Nat.div_pos (by omega) running

theorem some_opened (opens : 1 ≤ a.first.mNumOpened) :
    ∃ t < (a.params role).mNumInitThreads, (a.params role).openedBy (a.opened role) t ≠ [] := by
  have nonempty : a.opened role ≠ [] := by
    rw [← List.length_pos_iff, a.opened_length role]
    exact opens
  obtain ⟨cirIdx, listed⟩ := List.exists_mem_of_ne_nil _ nonempty
  have reached : cirIdx < (a.params role).mNumInitThreads * (a.params role).mNumCircuits /
      (a.params role).mNumInitThreads := by
    rw [Nat.mul_div_cancel_left _ (a.some_thread_of role), mNumCircuits_of]
    exact a.opened_lt role cirIdx listed
  obtain ⟨t, thread, share⟩ := Cursor.share_covers reached
  refine ⟨t, thread, List.ne_nil_of_mem (a := cirIdx) ?_⟩
  unfold InitParams.openedBy
  rw [List.mem_filter, decide_eq_true_eq]
  exact ⟨listed, share⟩

theorem packageInit_delivered_iff :
    List.Forall₂ Delivered (packageInit a.cir (a.params role))
        (commPackageInit a.cir (a.params role.other)) ↔
      Sendable (32 * a.cir.mNonXorGateCount) ∧ Sendable (sizeBytes a.cir.mOutputCount) ∧
        Sendable (40 * (a.params role).mTheirKProbeEncodingSize) := by
  have size : (a.params role).mTheirKProbeEncodingSize * 2 * sizeofCommit =
      40 * (a.params role).mTheirKProbeEncodingSize := by
    unfold sizeofCommit
    omega
  have expected : (a.params role).mTheirKProbeEncodingSize * sizeofCommit * 2 =
      40 * (a.params role).mTheirKProbeEncodingSize := by
    unfold sizeofCommit
    omega
  unfold packageInit commPackageInit GarbleSend ReceiveFromGarbler
  rw [my_encoding, size, expected]
  simp only [List.cons_append, List.nil_append, List.forall₂_cons, delivered_full rfl,
    delivered_full (Nat.mul_comm sizeofGarbledGate a.cir.mNonXorGateCount),
    delivered_bits_buffer, and_true, delivered_commit a.cir]
  rfl

theorem packageInitOT_delivered_iff :
    List.Forall₂ Delivered (packageInitOT a.cir role) (commPackageInitOT a.cir role.other) ↔
      Sendable (40 * a.cir.inputs role) := by
  have size : a.cir.inputs role * 2 * sizeofCommit = 40 * a.cir.inputs role := by
    unfold sizeofCommit
    omega
  have expected : a.cir.inputs role * sizeofCommit * 2 = 40 * a.cir.inputs role := by
    unfold sizeofCommit
    omega
  unfold packageInitOT commPackageInitOT
  rw [Role.other_other, size, expected, List.forall₂_cons, delivered_full rfl]
  simp only [List.forall₂_nil_left_iff, and_true]

theorem packageOpen_delivered_iff :
    List.Forall₂ Delivered (packageOpen (a.params role)) (commPackageOpen (a.params role.other)) ↔
      1 ≤ sizeBytes (a.params role).mMyKProbeEncodingSize ∧
        sizeBytes (a.params role).mMyKProbeEncodingSize < 4294967296 := by
  unfold packageOpen commPackageOpen
  have block : Delivered (.raw sizeofBlock) (.buffer sizeofBlock) :=
    delivered_raw_constant (by decide)
  rw [their_encoding]
  simp only [List.forall₂_cons, block, true_and, delivered_bits, List.forall₂_nil_left_iff,
    and_true]

theorem bucketInit_delivered_iff :
    List.Forall₂ Delivered (bucketInitSend a.cir (a.params role))
        (bucketInitRecv a.cir (a.params role.other)) ↔
      Sendable (32 * a.cir.mOutputs.length) ∧ (2 ≤ (a.params role).mBucketSize →
        1 ≤ sizeBytes (a.params role).mMyKProbeEncodingSize ∧
          sizeBytes (a.params role).mMyKProbeEncodingSize < 4294967296) := by
  have size : a.cir.mOutputs.length * sizeofBlock * 2 =
      2 * sizeofBlock * a.cir.mOutputs.length := by
    rw [Nat.mul_assoc, Nat.mul_comm]
    rfl
  have bucket := a.some_bucket_of role
  have same : (a.params role.other).mBucketSize = (a.params role).mBucketSize := by
    rw [params_other]
    rfl
  have first : List.range (a.params role).mBucketSize ≠ [] := by
    rw [Ne, List.range_eq_nil]
    omega
  have later : List.range ((a.params role).mBucketSize - 1) ≠ [] ↔
      2 ≤ (a.params role).mBucketSize := by
    rw [Ne, List.range_eq_nil]
    omega
  unfold bucketInitSend bucketInitRecv
  rw [their_encoding, same, size, forall₂_append_iff (by simp only [length_forEach, List.length]),
    forall₂_forEach_iff (by rfl), forall₂_forEach_iff (by rfl), forall_prop_of_true first, later]
  simp only [List.forall₂_cons, List.forall₂_nil_left_iff, and_true, delivered_full rfl,
    delivered_bits]
  rfl

theorem kProbeInput_delivered_iff :
    List.Forall₂ Delivered (initKProbeInputSend (a.params role))
        (initKProbeInputRecv (a.params role.other)) ↔
      Sendable (32 * (a.params role).mTheirKProbeEncodingSize) := by
  have same : (a.params role.other).mBucketSize = (a.params role).mBucketSize := by
    rw [params_other]
    rfl
  have bucket := a.some_bucket_of role
  have some : List.range (a.params role).mBucketSize ≠ [] := by
    rw [Ne, List.range_eq_nil]
    omega
  have size : sizeofBlock * (2 * (a.params role).mTheirKProbeEncodingSize) =
      2 * sizeofBlock * (a.params role).mTheirKProbeEncodingSize := by
    rw [← Nat.mul_assoc]
    rfl
  unfold initKProbeInputSend initKProbeInputRecv
  rw [my_encoding, same, size, forall₂_forEach_iff (by rfl), forall_prop_of_true some]
  simp only [List.forall₂_cons, List.forall₂_nil_left_iff, and_true, delivered_raw_of_eq rfl]
  rfl

theorem evalCircuits_eq (p : InitParams) {c : Nat} (thread : c < p.mBucketSize) :
    evalCircuits p c p.mBucketSize = [c] := by
  unfold evalCircuits
  have once : (p.mBucketSize - c + p.mBucketSize - 1) / p.mBucketSize = 1 := by
    rw [Nat.div_eq_iff (by omega)]
    omega
  rw [once]
  rfl

/-- The online phase of one thread: the corrections are written into a buffer for the other
    input size and have to arrive with the other input size. -/
theorem online_delivered_iff {c : Nat} (thread : c < (a.params role).mBucketSize) :
    List.Forall₂ Delivered
        (sendCircuitInputs a.cir role (a.params role) c (a.params role).mBucketSize)
        (evalCircuit a.cir role.other) ↔
      Sendable (16 * a.cir.inputs role) ∧ a.cir.inputs role = a.cir.inputs role.other := by
  have block : Delivered (.raw sizeofBlock) (.buffer sizeofBlock) :=
    delivered_raw_constant (by decide)
  unfold sendCircuitInputs evalCircuit
  rw [evalCircuits_eq _ thread, Role.other_other]
  simp only [forEach, List.flatMap_cons, List.flatMap_nil, List.append_nil, List.cons_append,
    List.nil_append, List.forall₂_cons, List.forall₂_nil_left_iff, and_true, block, true_and,
    delivered_full rfl, delivered_stream]
  rw [Nat.mul_comm 16]
  unfold sizeofBlock
  constructor
  · rintro ⟨labels, _, _, same⟩
    exact ⟨labels, by omega⟩
  · rintro ⟨labels, same⟩
    rw [← same]
    exact ⟨labels, le_rfl, labels, rfl⟩

theorem length_bucketInit : (bucketInitSend a.cir (a.params role)).length =
    (bucketInitRecv a.cir (a.params role.other)).length := by
  rw [params_other]
  simp only [bucketInitSend, bucketInitRecv, List.length_append, length_forEach, List.length_cons]
  rfl

theorem length_kProbeInput : (initKProbeInputSend (a.params role)).length =
    (initKProbeInputRecv (a.params role.other)).length := by
  rw [params_other]
  simp only [initKProbeInputSend, initKProbeInputRecv, length_forEach, List.length_cons]
  rfl

theorem init_delivered_iff (t : Nat) :
    List.Forall₂ Delivered
        (initSendMessages a.cir role (a.params role) (a.opened role) t)
        (initRecvMessages a.cir role.other (a.params role.other) (a.opened role) t) ↔
      ((a.params role).circuits t ≠ [] →
        Sendable (32 * a.cir.mNonXorGateCount) ∧ Sendable (sizeBytes a.cir.mOutputCount) ∧
          Sendable (40 * (a.params role).mTheirKProbeEncodingSize)) ∧
      ((a.params role).circuits t ≠ [] → Sendable (40 * a.cir.inputs role)) ∧
      ((a.params role).openedBy (a.opened role) t ≠ [] →
        1 ≤ sizeBytes (a.params role).mMyKProbeEncodingSize ∧
          sizeBytes (a.params role).mMyKProbeEncodingSize < 4294967296) ∧
      ((a.params role).buckets t ≠ [] →
        Sendable (32 * a.cir.mOutputs.length) ∧ (2 ≤ (a.params role).mBucketSize →
          1 ≤ sizeBytes (a.params role).mMyKProbeEncodingSize ∧
            sizeBytes (a.params role).mMyKProbeEncodingSize < 4294967296)) ∧
      ((a.params role).buckets t ≠ [] →
        Sendable (32 * (a.params role).mTheirKProbeEncodingSize)) := by
  have circuits : (a.params role.other).circuits t = (a.params role).circuits t := by
    rw [params_other]
    rfl
  have buckets : (a.params role.other).buckets t = (a.params role).buckets t := by
    rw [params_other]
    rfl
  have opened : (a.params role.other).openedBy (a.opened role) t =
      (a.params role).openedBy (a.opened role) t := by
    rw [params_other]
    rfl
  have dummy : List.Forall₂ Delivered dummySend dummyRecv :=
    .cons (delivered_raw_constant (by decide)) .nil
  have proof : List.Forall₂ Delivered proofSend proofRecv :=
    .cons (delivered_raw_constant (by decide)) .nil
  unfold initSendMessages initRecvMessages
  rw [circuits, buckets, opened, forall₂_forEach_append_iff (by rfl), forall₂_append_iff (by rfl),
    forall₂_forEach_append_iff (by rfl), forall₂_append_iff (by rfl),
    forall₂_forEach_append_iff (by rfl), forall₂_append_iff (by rfl),
    forall₂_append_iff (by rfl), forall₂_forEach_append_iff (a.length_bucketInit role),
    forall₂_append_iff (by rfl), forall₂_forEach_iff (a.length_kProbeInput role),
    packageInit_delivered_iff,
    packageInitOT_delivered_iff, packageOpen_delivered_iff, bucketInit_delivered_iff,
    kProbeInput_delivered_iff]
  simp only [dummy, proof, true_and]

theorem sizesFit_of_allDelivered (delivered : a.AllDelivered) : a.SizesFit := by
  have online := fun role => (a.online_delivered_iff role (a.some_bucket_of role)).mp
    ((delivered role).2 0 (a.some_bucket_of role))
  have init := fun role t thread => (a.init_delivered_iff role t).mp ((delivered role).1 t thread)
  obtain ⟨last, thread, circuits⟩ := a.some_circuits .first
  have package := (init .first last thread).1 circuits
  have bucket := fun role => (init role 0 (a.some_thread_of role)).2.2.2
  refine ⟨(online .first).2, package.1, package.2.1, ((bucket .first).1 (a.some_buckets _)).1,
    (online .first).1, fun role => ?_, fun needed role => ?_⟩
  · have input := (bucket role.other).2 (a.some_buckets _)
    rw [← my_encoding, Role.other_other] at input
    exact input
  · rcases needed with later | opens
    · rw [← a.mBucketSize_of role] at later
      exact (((bucket role).1 (a.some_buckets _)).2 later).2
    · obtain ⟨t, thread, opened⟩ := a.some_opened role opens
      exact ((init role t thread).2.2.1 opened).2

theorem allDelivered_of_sizesFit (fit : a.SizesFit) : a.AllDelivered := by
  intro role
  have their : Sendable (32 * (a.params role).mTheirKProbeEncodingSize) := by
    rw [← my_encoding]
    exact fit.encodings role.other
  have same : a.cir.inputs role = a.cir.inputs .first ∧
      a.cir.inputs role = a.cir.inputs role.other := by
    cases role
    · exact ⟨rfl, fit.inputs⟩
    · exact ⟨fit.inputs.symm, fit.inputs.symm⟩
  have labels : Sendable (16 * a.cir.inputs role) := by
    rw [same.1]
    exact fit.labels
  have some : 1 ≤ sizeBytes (a.params role).mMyKProbeEncodingSize := by
    have sendable := fit.encodings role
    unfold Sendable u32 at sendable
    unfold sizeBytes
    omega
  constructor
  · intro t _
    rw [init_delivered_iff]
    refine ⟨fun _ => ⟨fit.gates, fit.translation, sendable_commits (by decide) their⟩,
      fun _ => sendable_commits (by decide) labels, fun opened => ⟨some, ?_⟩,
      fun _ => ⟨fit.outputs, fun later => ⟨some, ?_⟩⟩, fun _ => their⟩
    · refine fit.choices (.inr ?_) role
      rw [← a.opened_length role, Nat.succ_le_iff, List.length_pos_iff]
      intro none
      unfold InitParams.openedBy at opened
      rw [none] at opened
      exact opened rfl
    · refine fit.choices (.inl ?_) role
      rw [← a.mBucketSize_of role]
      exact later
  · intro c thread
    rw [online_delivered_iff _ _ thread]
    exact ⟨labels, same.2⟩

/-- No message is empty, leaves its buffer or has another size than expected exactly when the
    parties have inputs of the same size and nothing that is sent is empty. -/
theorem all_delivered_iff : a.AllDelivered ↔ a.SizesFit :=
  ⟨a.sizesFit_of_allDelivered, a.allDelivered_of_sizesFit⟩

/-- One AND gate over an input of `First` and one of the `1 + n` inputs of `Second`, executed
    once; the encodings are those of `KProbeMatrix::build` for one and for `1 + n` inputs. -/
def oneAnd (n theirEncodingSize : Nat) : ActorPair where
  cir := ⟨n + 3, 1, 1, (1, n + 1), [⟨0, 1, n + 2, .and⟩], [n + 2]⟩
  first := ⟨1, 1, 0, 40, 1, 241, theirEncodingSize⟩
  opened := fun _ => []
  some_inputs := fun role => by cases role <;> exact Nat.succ_pos _
  some_bucket := le_rfl
  some_thread := Nat.one_pos
  opened_length := fun _ => rfl
  opened_lt := fun _ _ none => absurd none List.not_mem_nil

/-- One input against two: the corrections for the first party leave their buffer. -/
theorem not_all_delivered_two_inputs :
    KProbeMatrix.buildParams 1 40 = .ok ⟨5, 9, 48, 240, 241⟩ ∧
      KProbeMatrix.buildParams 2 40 = .ok ⟨5, 9, 48, 240, 242⟩ ∧
      ¬ (oneAnd 1 242).AllDelivered := by
  refine ⟨KProbeMatrix.buildParams_one_forty, ?_, fun delivered => ?_⟩
  · rw [KProbeMatrix.buildParams_eq 40 (by decide)]
    decide +kernel
  · exact absurd (sizesFit_of_allDelivered _ delivered).inputs (by decide)

/-- One input against one is fine. -/
example : (oneAnd 0 241).AllDelivered := by
  refine allDelivered_of_sizesFit _ ⟨rfl, by decide, by decide, by decide, by decide, ?_, ?_⟩
  · intro role
    cases role <;> decide
  · intro _ role
    cases role <;> decide

end ActorPair

end BatchDualEx
