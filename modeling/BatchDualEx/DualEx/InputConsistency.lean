import BatchDualEx.DualEx.Bucket

/- `Bucket::evaluate` holds the other party to one input in all circuits of the bucket: its
   labels pass exactly when they are the labels of the bits that the correction string fixes. -/
namespace BatchDualEx.Opening

open WordXor Result

variable {Digest : Type} {Commit : List Block → Digest} {cir : Circuit} {role : Role}
  {theirKProbe : KProbeMatrix}

theorem decodeBits_xorBits {left right l r both : List Bool}
    (decodedLeft : theirKProbe.decodeBits left = .ok l)
    (decodedRight : theirKProbe.decodeBits right = .ok r)
    (decodedBoth : theirKProbe.decodeBits (xorBits left right) = .ok both) (i : Nat) :
    both.getD i false = (l.getD i false ^^ r.getD i false) := by
  obtain ⟨leftLength, rfl⟩ := KProbeMatrix.decodeBits_ok decodedLeft
  obtain ⟨rightLength, rfl⟩ := KProbeMatrix.decodeBits_ok decodedRight
  obtain ⟨_, rfl⟩ := KProbeMatrix.decodeBits_ok decodedBoth
  have differ := xorBits_getD (leftLength.trans rightLength.symm)
  by_cases below : i < theirKProbe.n
  · rw [Lists.map_range_getD _ _ below, Lists.map_range_getD _ _ below,
      Lists.map_range_getD _ _ below]
    unfold KProbeMatrix.decodeBit
    rw [← foldl_bits_xor, differ]
    apply List.foldl_ext
    intro acc j _
    rw [differ j]
  · rw [List.getD_eq_default, List.getD_eq_default, List.getD_eq_default]
    · rfl
    all_goals simpa using Nat.not_lt.mp below

theorem pick_permutedCommits (bit permute : Bool) (label offset : Block) :
    pick bit (permutedCommits Commit permute label (label ^^^ offset)) =
      Commit [label ^^^ select (bit ^^ permute) offset] := by
  cases bit <;> cases permute <;> simp [pick, permutedCommits]

/-- How the other party has formed what the bucket holds of its circuits: two commitments for
    each of its input wires, in the order of the decoded choice bits, and the decoded deltas. -/
structure Formed (Commit : List Block → Digest) (cir : Circuit) (role : Role)
    (theirKProbe : KProbeMatrix) (packages : List CircuitPackage) (b : Bucket Digest) : Prop where
  commits : List.Forall₂ (fun p c =>
    CircuitPackage.commitToInputs Commit cir theirKProbe role.other p = .ok c.mTheirInputCommits)
      packages b.mTheirCircuits
  permutes : ∀ j p q, packages[0]? = some p → packages[j + 1]? = some q →
    theirKProbe.decodeBits (xorBits p.mOTRecvChoices.bits q.mOTRecvChoices.bits) =
      .ok (b.mTheirPermutes.getD j [])

def HeldTo (cir : Circuit) (role : Role) (packages : List CircuitPackage)
    (labels : List (List Block)) (x : Nat → Bool) : Prop :=
  ∀ j p, packages[j]? = some p → ∀ i < cir.inputs role.other,
    (labels.getD j []).getD (cir.start role.other + i) zeroBlock =
      p.mCircuit.mInputWires.getD (cir.start role.other + i) zeroBlock ^^^
        select (x i) p.mCircuit.mGlobalOffset

/-- The correction string without what the choice bits of circuit 0 decode to. -/
def correctedInput (phi : BitVector) (decoded : List Bool) (i : Nat) : Bool :=
  phi.get i ^^ decoded.getD i false

theorem Formed.circuit {packages : List CircuitPackage} {b : Bucket Digest}
    (formed : Formed Commit cir role theirKProbe packages b) {j : Nat} {q : CircuitPackage}
    (listed : packages[j]? = some q) :
    ∃ c permuteBits, b.mTheirCircuits[j]? = some c ∧
      theirKProbe.decodeBits q.mOTRecvChoices.bits = .ok permuteBits ∧
      CircuitPackage.commitToInputs Commit cir theirKProbe role.other q =
        .ok c.mTheirInputCommits := by
  obtain ⟨inside, entry⟩ := List.getElem?_eq_some_iff.mp listed
  have inside' : j < b.mTheirCircuits.length := formed.commits.length_eq ▸ inside
  have committed := formed.commits.get inside inside'
  rw [List.get_eq_getElem, List.get_eq_getElem, entry] at committed
  obtain ⟨permuteBits, decoded, _⟩ := bind_ok committed
  exact ⟨_, permuteBits, List.getElem?_eq_getElem inside', decoded, committed⟩

section
variable [DecidableEq Digest] {packages : List CircuitPackage} {b : Bucket Digest}

/-- One check passes for the label of one bit: the index moved by the permutation of the
    circuit. -/
theorem checkLabel_ok_iff (injective : Function.Injective Commit) {labels : List (List Block)}
    {i j : Nat} (input : i < cir.inputs role.other) {bit : Bool} {p : CircuitPackage}
    {c : CommCircuitPackage Digest} (listed : b.mTheirCircuits[j]? = some c)
    {permuteBits : List Bool}
    (decoded : theirKProbe.decodeBits p.mOTRecvChoices.bits = .ok permuteBits)
    (formed : CircuitPackage.commitToInputs Commit cir theirKProbe role.other p =
      .ok c.mTheirInputCommits) :
    b.checkLabel Commit cir role labels i j bit = .ok () ↔
      (labels.getD j []).getD (cir.start role.other + i) zeroBlock =
        p.mCircuit.mInputWires.getD (cir.start role.other + i) zeroBlock ^^^
          select (bit ^^ permuteBits.getD i false) p.mCircuit.mGlobalOffset := by
  unfold CircuitPackage.commitToInputs at formed
  rw [decoded] at formed
  have commits := (Except.ok.inj formed).symm
  unfold Bucket.checkLabel
  simp only [listed, commits, List.getElem?_map, List.getElem?_range input, Option.map_some]
  rw [require_ok_iff, pick_permutedCommits, injective.eq_iff, List.cons.injEq]
  simp

variable (formed : Formed Commit cir role theirKProbe packages b)
include formed

variable {p : CircuitPackage} (first : packages[0]? = some p) {decoded : List Bool}
  (decoding : theirKProbe.decodeBits p.mOTRecvChoices.bits = .ok decoded)
  (injective : Function.Injective Commit) {labels : List (List Block)}
include first decoding injective

theorem first_checked_iff {i : Nat} (input : i < cir.inputs role.other) :
    b.checkLabel Commit cir role labels i 0 (b.mTheirInputCorrection.get i) = .ok () ↔
      (labels.getD 0 []).getD (cir.start role.other + i) zeroBlock =
        p.mCircuit.mInputWires.getD (cir.start role.other + i) zeroBlock ^^^
          select (correctedInput b.mTheirInputCorrection decoded i) p.mCircuit.mGlobalOffset := by
  obtain ⟨c, permuteBits, listed, decoding', committed⟩ := formed.circuit first
  cases decoding.symm.trans decoding'
  exact checkLabel_ok_iff injective input listed decoding committed

/-- The delta of a later circuit turns its own permutation into that of circuit 0. -/
theorem later_checked_iff {i j : Nat} (input : i < cir.inputs role.other) {q : CircuitPackage}
    (later : packages[j + 1]? = some q) :
    b.checkLabel Commit cir role labels i (j + 1)
        ((b.mTheirPermutes.getD j []).getD i false ^^ b.mTheirInputCorrection.get i) = .ok () ↔
      (labels.getD (j + 1) []).getD (cir.start role.other + i) zeroBlock =
        q.mCircuit.mInputWires.getD (cir.start role.other + i) zeroBlock ^^^
          select (correctedInput b.mTheirInputCorrection decoded i) q.mCircuit.mGlobalOffset := by
  obtain ⟨c, permuteBits, listed, decoding', committed⟩ := formed.circuit later
  have delta := decodeBits_xorBits decoding decoding' (formed.permutes j p q first later) i
  have shift : (((b.mTheirPermutes.getD j []).getD i false ^^ b.mTheirInputCorrection.get i) ^^
      permuteBits.getD i false) = correctedInput b.mTheirInputCorrection decoded i := by
    rw [delta]
    unfold correctedInput
    cases decoded.getD i false <;> cases permuteBits.getD i false <;>
      cases b.mTheirInputCorrection.get i <;> rfl
  rw [← shift]
  exact checkLabel_ok_iff injective input listed decoding' committed

theorem evaluate_ok_iff (input : BitVector) :
    (b.evaluate Commit cir role input labels).2 = .ok () ↔
      HeldTo cir role packages labels (correctedInput b.mTheirInputCorrection decoded) := by
  have count : packages.length = b.mTheirCircuits.length := formed.commits.length_eq
  unfold Bucket.evaluate Bucket.checkInputLabels
  simp only [forM_ok_iff, List.mem_range, then_ok_iff]
  constructor
  · intro checked j q listed i below
    obtain ⟨zero, others⟩ := checked i below
    cases j with
    | zero =>
      cases first.symm.trans listed
      exact (first_checked_iff formed first decoding injective below).mp zero
    | succ j =>
      have inside := (List.getElem?_eq_some_iff.mp listed).1
      exact (later_checked_iff formed first decoding injective below listed).mp
        (others j (by omega))
  · intro held i below
    refine ⟨(first_checked_iff formed first decoding injective below).mpr (held 0 p first i below),
      fun j inside => ?_⟩
    obtain ⟨q, listed⟩ : ∃ q, packages[j + 1]? = some q :=
      ⟨_, List.getElem?_eq_getElem (by omega)⟩
    exact (later_checked_iff formed first decoding injective below listed).mpr
      (held (j + 1) _ listed i below)

end

theorem delta_bits {m : Nat} {left right w : BitVector} (size : left.mNumBits = m)
    (size' : right.mNumBits = m)
    (arrived : (BitVector.empty.reset m).recv ((BitVector.ofCopy left).xorAssign right).bytes =
      .ok w) : w.bits = xorBits left.bits right.bits := by
  have numBits : ((BitVector.ofCopy left).xorAssign right).sizeBytes = (m + 7) / 8 := by
    unfold BitVector.sizeBytes BitVector.xorAssign
    rw [BitVector.ofCopy_numBits, size]
  obtain ⟨w', arrived', size'', read⟩ :=
    BitVector.recv_reset ((BitVector.bytes_length _).trans numBits)
  cases arrived.symm.trans arrived'
  have length : left.bits.length = right.bits.length := by
    rw [BitVector.bits_length, BitVector.bits_length, size, size']
  apply Lists.ext_getD false
  · unfold xorBits
    rw [List.length_zipWith, ← length, Nat.min_self, BitVector.bits_length, BitVector.bits_length,
      size'', size]
  · intro i below
    rw [BitVector.bits_length, size''] at below
    have inside : i < 8 * (BitVector.ofCopy left).sizeBytes := by
      unfold BitVector.sizeBytes
      rw [BitVector.ofCopy_numBits, size]
      omega
    rw [xorBits_getD length]
    unfold BitVector.bits
    rw [Lists.map_range_getD _ _ (by omega), Lists.map_range_getD _ _ (by omega),
      Lists.map_range_getD _ _ (by omega), read i below, BitVector.bit_bytes _ (by omega),
      BitVector.get_xorAssign _ inside, BitVector.get_ofCopy (by unfold BitVector.sizeBytes; omega)]

theorem initRecvDeltas_permutes {packages : List CircuitPackage} {b b' : Bucket Digest}
    (sizes : ∀ p ∈ packages, p.mOTRecvChoices.mNumBits = theirKProbe.encodingSize)
    (received : b.initRecvDeltas theirKProbe
      (initSendDeltas (packages.map CircuitPackage.mOTRecvChoices)) = .ok b') :
    b' = { b with mTheirPermutes := b'.mTheirPermutes } ∧
    b'.mTheirPermutes.length = packages.length - 1 ∧
    ∀ j p q, packages[0]? = some p → packages[j + 1]? = some q →
      theirKProbe.decodeBits (xorBits p.mOTRecvChoices.bits q.mOTRecvChoices.bits) =
        .ok (b'.mTheirPermutes.getD j []) := by
  obtain ⟨permutes, decoded, received⟩ := bind_ok received
  cases received
  have count : (initSendDeltas (packages.map CircuitPackage.mOTRecvChoices)).length =
      packages.length - 1 := by
    simp [initSendDeltas]
  obtain ⟨length, each⟩ := mapM_ok_getD decoded [] []
  refine ⟨rfl, length.trans count, fun j p q first later => ?_⟩
  have inside := (List.getElem?_eq_some_iff.mp later).1
  have delta := each j (by omega)
  have message : (initSendDeltas (packages.map CircuitPackage.mOTRecvChoices)).getD j [] =
      ((BitVector.ofCopy p.mOTRecvChoices).xorAssign q.mOTRecvChoices).bytes := by
    rw [initSendDeltas, Lists.map_range_getD _ _ (by rw [List.length_map]; omega)]
    simp only [List.getD_eq_getElem?_getD, List.getElem?_map, first, later, Option.map_some,
      Option.getD_some]
  rw [message] at delta
  obtain ⟨w, arrived, decoding⟩ := bind_ok delta
  rw [← decoding]
  exact congrArg theirKProbe.decodeBits (delta_bits (sizes p (List.mem_of_getElem? first))
    (sizes q (List.mem_of_getElem? later)) arrived).symm

theorem initRecv_permutes {packages : List CircuitPackage}
    {circuits : List (CommCircuitPackage Digest)} {cirIdxs : List Nat} {sent : BucketSent}
    {b b' : Bucket Digest}
    (sizes : ∀ p ∈ packages, p.mOTRecvChoices.mNumBits = theirKProbe.encodingSize)
    (deltas : sent.deltas = initSendDeltas (packages.map CircuitPackage.mOTRecvChoices))
    (received : b.initRecv cir theirKProbe circuits cirIdxs sent = .ok b') :
    ∀ j p q, packages[0]? = some p → packages[j + 1]? = some q →
      theirKProbe.decodeBits (xorBits p.mOTRecvChoices.bits q.mOTRecvChoices.bits) =
        .ok (b'.mTheirPermutes.getD j []) := by
  obtain ⟨_, received⟩ := then_ok_iff.mp received
  obtain ⟨_, received⟩ := then_ok_iff.mp received
  obtain ⟨translations, _, received⟩ := bind_ok received
  rw [deltas] at received
  exact (initRecvDeltas_permutes sizes received).2.2

/-- With nonzero offsets the labels of a circuit belong to one input only. -/
theorem HeldTo.unique {packages : List CircuitPackage} {labels : List (List Block)}
    {x x' : Nat → Bool} {p : CircuitPackage} (first : packages[0]? = some p)
    (offset : p.mCircuit.mGlobalOffset ≠ zeroBlock) (held : HeldTo cir role packages labels x)
    (held' : HeldTo cir role packages labels x') {i : Nat} (input : i < cir.inputs role.other) :
    x' i = x i := by
  have same := (held' 0 p first i input).symm.trans (held 0 p first i input)
  have shift := (BitVec.xor_right_inj _).mp same
  rw [zeroBlock_eq] at offset
  cases bit : x i <;> cases bit' : x' i
  · rfl
  · rw [bit, bit'] at shift
    exact absurd shift offset
  · rw [bit, bit'] at shift
    exact absurd shift.symm offset
  · rfl

/-- `evaluate` returns normally exactly when the labels of all circuits are those of one input,
    which the correction string fixes. -/
theorem evaluate_holds_to_one_input [DecidableEq Digest] {packages : List CircuitPackage}
    {b : Bucket Digest} (injective : Function.Injective Commit)
    (formed : Formed Commit cir role theirKProbe packages b)
    (offsets : ∀ p ∈ packages, p.mCircuit.mGlobalOffset ≠ zeroBlock) {p : CircuitPackage}
    (first : packages[0]? = some p) {decoded : List Bool}
    (decoding : theirKProbe.decodeBits p.mOTRecvChoices.bits = .ok decoded) (input : BitVector)
    (labels : List (List Block)) :
    ((b.evaluate Commit cir role input labels).2 = .ok () ↔
      HeldTo cir role packages labels (correctedInput b.mTheirInputCorrection decoded)) ∧
    ((b.evaluate Commit cir role input labels).2 = .ok () → ∀ x,
      HeldTo cir role packages labels x → ∀ i < cir.inputs role.other,
        x i = correctedInput b.mTheirInputCorrection decoded i) := by
  have exactly := @evaluate_ok_iff _ _ _ _ _ _ _ _ formed _ first _ decoding injective labels input
  refine ⟨exactly, fun passes x held i below => ?_⟩
  exact HeldTo.unique first (offsets p (List.mem_of_getElem? first)) (exactly.mp passes) held below

def twoPackages : List CircuitPackage :=
  [⟨0, 0, 0, ⟨9, [3, 4], [], [], []⟩, [], ⟨.empty, fun _ => zeroBlock⟩, 0, BitVector.empty.reset 1⟩,
    ⟨0, 0, 0, ⟨17, [5, 6], [], [], []⟩, [], ⟨.empty, fun _ => zeroBlock⟩, 0,
      (BitVector.empty.reset 1).set 0 true⟩]

theorem evaluate_holds_two_circuits :
    let circuit (commits : List (List Block × List Block)) : CommCircuitPackage (List Block) :=
      ⟨⟨0, [], [], [], []⟩, [], [], commits, ⟨fun _ _ => zeroBlock⟩, 0, 0⟩
    let b : Bucket (List Block) := ⟨[], [circuit [([4], [13])], circuit [([23], [6])]], 0, [], [],
      [[true]], [], [], .empty, BitVector.empty.reset 1, []⟩
    (b.evaluate id HalfGtGarbledCircuit.threeGates .first .empty [[0, 4], [0, 6]]).2 = .ok () := by
  intro circuit b
  have formed : Formed id HalfGtGarbledCircuit.threeGates .first ⟨[[]], 1⟩ twoPackages b := by
    refine ⟨.cons rfl (.cons rfl .nil), fun j p q first later => ?_⟩
    match j with
    | 0 =>
      cases first
      cases later
      rfl
    | j + 1 => cases later
  have both := evaluate_holds_to_one_input Function.injective_id formed (by decide) rfl rfl .empty
    [[0, 4], [0, 6]]
  refine both.1.mpr fun j p listed i below => ?_
  match j with
  | 0 =>
    cases listed
    obtain rfl : i = 0 := Nat.lt_one_iff.mp below
    decide
  | 1 =>
    cases listed
    obtain rfl : i = 0 := Nat.lt_one_iff.mp below
    decide
  | j + 2 => cases listed

end BatchDualEx.Opening
