import BatchDualEx.Circuit.KProbeMatrix
import BatchDualEx.Crypto.PRNG
import BatchDualEx.Lib.Buffer

/- `KProbeMatrix::encode`, of bits by byte-wise masks and of labels by block masks: both solve the
   linear system that the two functions `decode` evaluate. -/
namespace BatchDualEx.KProbeMatrix

open WordXor Lists Bytes

def ofRows (mMtx : List BitVector) (mEncodingSize : Nat) : KProbeMatrix :=
  ⟨mMtx.map BitVector.bits, mEncodingSize⟩

/-- The check bit of row `i`: `projected` is a copy of the first `h` bits. -/
def projectedParity (mMtx : List BitVector) (h : Nat) (encoding : BitVector) (i : Nat) :
    Except Fault Bool := do
  let projected ← BitVector.ofData encoding.mData h
  .ok (projected.andAssign (mMtx.getD i .empty)).parity

def encodeBits (mMtx : List BitVector) (mEncodingSize : Nat) (input encoding : BitVector)
    (prng : PRNG) : Except Fault (BitVector × PRNG) := do
  let n := mMtx.length
  let m := mEncodingSize
  let h := m - n
  Result.require (input.size = n) (.thrown "")
  let (encoding, prng) := (encoding.reset m).randomize prng
  let encoding ← (List.range n).foldlM (fun encoding i => do
    let parity ← projectedParity mMtx h encoding i
    .ok (encoding.set (h + i) (parity != input.get i))) encoding
  .ok (encoding, prng)

def randomBlocks (prng : PRNG) (m : Nat) : List Block × PRNG :=
  let (bytes, prng) := prng.getU8s (16 * m)
  ((List.range m).map fun k => blockOfBytes (((bytes.map UInt8.toBitVec).drop (16 * k)).take 16),
    prng)

def encodeLabels (M : KProbeMatrix) (originalLabels : List Block) (prng : PRNG) :
    List Block × PRNG :=
  let (encodedLabels, prng) := randomBlocks prng M.mEncodingSize
  ((List.range M.n).foldl (fun encodedLabels i =>
    encodedLabels.set (M.h + i)
      ((List.range M.h).foldl
        (fun acc j => acc ^^^ select (M.entry i j) (encodedLabels.getD j zeroBlock))
        (originalLabels.getD i zeroBlock))) encodedLabels,
    prng)

/-- What `build` and `load` leave in every row: `resize(h)` of a fresh vector, and bits. -/
structure Held (mMtx : List BitVector) (h : Nat) : Prop where
  sized : ∀ row ∈ mMtx, row.mNumBits = h
  allocated : ∀ row ∈ mMtx, ∃ fresh, BitVector.empty.resize h = .ok fresh ∧
    row.mData.length = fresh.mData.length

section
variable {mMtx : List BitVector} {h : Nat} (held : Held mMtx h)
include held

theorem Held.small {i : Nat} (inside : i < mMtx.length) : h + 8 < 2 ^ 31 := by
  obtain ⟨fresh, run, _⟩ := held.allocated _ (List.getElem_mem inside)
  by_contra large
  have short : BitVector.empty.mData.length < (h + 7) / 8 := by
    change 0 < _
    omega
  obtain ⟨fault, failed⟩ := BitVector.resize_large (Nat.not_lt.mp large) short
  rw [failed] at run
  cases run

theorem Held.entry {i j : Nat} (inside : i < mMtx.length) (below : j < h) :
    (ofRows mMtx (h + mMtx.length)).entry i j = (mMtx.getD i .empty).get j := by
  have row : mMtx.getD i .empty = mMtx[i] := List.getD_eq_getElem _ _ inside
  have bits : (mMtx.map BitVector.bits).getD i [] = mMtx[i].bits := by
    rw [List.getD_eq_getElem _ _ (by simpa using inside), List.getElem_map]
  have width := held.sized _ (List.getElem_mem inside)
  rw [KProbeMatrix.entry, ofRows, bits, row, BitVector.bits, map_range_getD _ _ (by omega)]

/-- The parity of the masked bytes is the sum over the row. -/
theorem projectedParity_eq (encoding : BitVector) {i : Nat} (inside : i < mMtx.length) :
    projectedParity mMtx h encoding i = .ok ((List.range h).foldl
      (fun acc j => acc ^^ ((ofRows mMtx (h + mMtx.length)).entry i j && encoding.get j))
      false) := by
  obtain ⟨projected, run, size, copied⟩ :=
    BitVector.append_empty encoding.mData 0 (held.small inside)
  have width : projected.sizeBytes = (h + 7) / 8 := by rw [BitVector.sizeBytes, size]
  have numBits : (projected.andAssign (mMtx.getD i .empty)).mNumBits = h := size
  rw [projectedParity, BitVector.ofData, run]
  refine congrArg Except.ok ?_
  rw [BitVector.parity_eq, numBits, parity]
  refine List.foldl_ext _ _ _ fun acc j listed => ?_
  have below := List.mem_range.mp listed
  have masked := BitVector.get_andAssign (v := projected) (mMtx.getD i .empty)
    (show j < 8 * projected.sizeBytes by omega)
  have bit := copied j (by omega)
  rw [Nat.zero_add] at bit
  change (acc ^^ BitVector.get _ j) = _
  rw [masked, bit, held.entry inside below, Bool.and_comm]
  simp [BitVector.get]

end

theorem ofRows_h (mMtx : List BitVector) (h : Nat) :
    (ofRows mMtx (h + mMtx.length)).h = h ∧ (ofRows mMtx (h + mMtx.length)).n = mMtx.length := by
  simp [KProbeMatrix.h, KProbeMatrix.n, ofRows]

def check (M : KProbeMatrix) (bit : Nat → Bool) (i : Nat) : Bool :=
  (List.range M.h).foldl (fun acc j => acc ^^ (M.entry i j && bit j)) false

theorem check_congr {M : KProbeMatrix} {bit bit' : Nat → Bool} (same : ∀ j < M.h, bit j = bit' j)
    (i : Nat) : M.check bit i = M.check bit' i := by
  refine List.foldl_ext _ _ _ fun acc j listed => ?_
  rw [same j (List.mem_range.mp listed)]

theorem decodeBit_eq_check (M : KProbeMatrix) (encoding : List Bool) (i : Nat) :
    M.decodeBit encoding i =
      (encoding.getD (M.h + i) false ^^ M.check (encoding.getD · false) i) := by
  rw [decodeBit, check, ← foldl_xor_start]

/-- The first `h` bits are the random ones, and the first `k` check bits are written. -/
structure Encoded (M : KProbeMatrix) (input random : BitVector) (k : Nat) (encoding : BitVector) :
    Prop where
  size : encoding.mNumBits = M.h + M.n
  free : ∀ j < M.h, encoding.get j = random.get j
  checks : ∀ i < k, encoding.get (M.h + i) = (M.check random.get i ^^ input.get i)

theorem Encoded.set {M : KProbeMatrix} {input random : BitVector} {k : Nat} {encoding : BitVector}
    (encoded : Encoded M input random k encoding) (inside : k < M.n) :
    Encoded M input random (k + 1)
      (encoding.set (M.h + k) (M.check encoding.get k != input.get k)) := by
  obtain ⟨size, free, checks⟩ := encoded
  have fits := encoding.fits
  have room : M.h + k < 8 * encoding.mData.length := by omega
  have same : M.check encoding.get k = M.check random.get k := check_congr free k
  refine ⟨size, ?_, ?_⟩
  · intro j below
    rw [BitVector.get_set room, if_neg (by omega)]
    exact free j below
  · intro i below
    rw [BitVector.get_set room]
    by_cases last : i = k
    · rw [if_pos (by rw [last]), last, same, Bool.bne_eq_xor]
    · rw [if_neg (by omega)]
      exact checks i (by omega)

theorem encodeBits_ok {mMtx : List BitVector} {h : Nat} (held : Held mMtx h) {input : BitVector}
    (sized : input.mNumBits = mMtx.length) (encoding : BitVector) (prng : PRNG) :
    ∃ random encoded rest, encodeBits mMtx (h + mMtx.length) input encoding prng =
        .ok (encoded, rest) ∧
      Encoded (ofRows mMtx (h + mMtx.length)) input random mMtx.length encoded := by
  obtain ⟨width, rows⟩ := ofRows_h mMtx h
  have passes : Result.require (input.size = mMtx.length) (Fault.thrown "") = .ok () :=
    Result.require_ok_iff.mpr sized
  let random := ((encoding.reset (h + mMtx.length)).randomize prng).1
  have start : Encoded (ofRows mMtx (h + mMtx.length)) input random 0 random := by
    refine ⟨?_, fun _ _ => rfl, fun i none => absurd none (Nat.not_lt_zero i)⟩
    rw [width, rows]
    exact encoding.reset_numBits _
  have loop : ∃ encoded, (List.range' 0 mMtx.length).foldlM (fun encoding i => do
        let parity ← projectedParity mMtx h encoding i
        .ok (encoding.set (h + i) (parity != input.get i))) random = .ok encoded ∧
      Encoded (ofRows mMtx (h + mMtx.length)) input random (0 + mMtx.length) encoded := by
    refine Buffer.foldlM_range'_total _ (fun k _ below e now => ?_) start
    have next := now.set (by rw [rows]; omega)
    rw [width] at next
    refine ⟨_, ?_, next⟩
    rw [projectedParity_eq held e (by omega), check, width]
    rfl
  obtain ⟨encoded, run, final⟩ := loop
  rw [Nat.zero_add] at final
  refine ⟨random, encoded, ((encoding.reset (h + mMtx.length)).randomize prng).2, ?_, final⟩
  rw [encodeBits, passes, Nat.add_sub_cancel, List.range_eq_range']
  exact congrArg (Except.bind · fun e => .ok (e, _)) run

theorem decodeBits_encoded {mMtx : List BitVector} {h : Nat} {input random encoded : BitVector}
    (sized : input.mNumBits = mMtx.length)
    (final : Encoded (ofRows mMtx (h + mMtx.length)) input random mMtx.length encoded) :
    (ofRows mMtx (h + mMtx.length)).decodeBits encoded.bits = .ok input.bits := by
  obtain ⟨width, rows⟩ := ofRows_h mMtx h
  obtain ⟨size, free, checks⟩ := final
  rw [width, rows] at size
  have read : ∀ t < h + mMtx.length, encoded.bits.getD t false = encoded.get t := by
    intro t below
    rw [BitVector.bits, map_range_getD _ _ (by omega)]
  have length : encoded.bits.length = (ofRows mMtx (h + mMtx.length)).mEncodingSize := by
    rw [BitVector.bits_length, size]
    rfl
  have bits : input.bits = (List.range mMtx.length).map input.get := by rw [BitVector.bits, sized]
  rw [decodeBits, if_neg (not_not.mpr length), rows, bits]
  refine congrArg Except.ok (List.map_congr_left fun i listed => ?_)
  have inside := List.mem_range.mp listed
  have same : (ofRows mMtx (h + mMtx.length)).check (encoded.bits.getD · false) i =
      (ofRows mMtx (h + mMtx.length)).check random.get i := by
    refine check_congr (fun j below => ?_) i
    rw [← free j below]
    exact read j (by omega)
  have own := checks i inside
  rw [width] at own
  rw [decodeBit_eq_check, width, read _ (by omega), own, same]
  cases check _ random.get i <;> simp

def maskedSum (M : KProbeMatrix) (label : Nat → Block) (i : Nat) : Block :=
  (List.range M.h).foldl (fun acc j => acc ^^^ select (M.entry i j) (label j)) 0#128

theorem maskedSum_congr {M : KProbeMatrix} {label label' : Nat → Block}
    (same : ∀ j < M.h, label j = label' j) (i : Nat) :
    M.maskedSum label i = M.maskedSum label' i := by
  refine List.foldl_ext _ _ _ fun acc j listed => ?_
  rw [same j (List.mem_range.mp listed)]

theorem decodeLabel_eq_sum (M : KProbeMatrix) (encoding : List Block) (i : Nat) :
    M.decodeLabel encoding i =
      encoding.getD (M.h + i) zeroBlock ^^^ M.maskedSum (encoding.getD · zeroBlock) i := by
  rw [decodeLabel, maskedSum, ← foldl_words_start]

/-- The first `h` labels are the random ones, and the first `k` masked labels are written. -/
structure EncodedLabels (M : KProbeMatrix) (originalLabels random : List Block) (k : Nat)
    (labels : List Block) : Prop where
  sized : labels.length = M.h + M.n
  free : ∀ j < M.h, labels.getD j zeroBlock = random.getD j zeroBlock
  masked : ∀ i < k, labels.getD (M.h + i) zeroBlock =
    originalLabels.getD i zeroBlock ^^^ M.maskedSum (random.getD · zeroBlock) i

theorem EncodedLabels.set {M : KProbeMatrix} {originalLabels random : List Block} {k : Nat}
    {labels : List Block} (encoded : EncodedLabels M originalLabels random k labels)
    (inside : k < M.n) :
    EncodedLabels M originalLabels random (k + 1) (labels.set (M.h + k)
      ((List.range M.h).foldl
        (fun acc j => acc ^^^ select (M.entry k j) (labels.getD j zeroBlock))
        (originalLabels.getD k zeroBlock))) := by
  obtain ⟨sized, free, masked⟩ := encoded
  have room : M.h + k < labels.length := by omega
  have same : M.maskedSum (labels.getD · zeroBlock) k = M.maskedSum (random.getD · zeroBlock) k :=
    maskedSum_congr free k
  refine ⟨by simpa using sized, ?_, ?_⟩
  · intro j below
    rw [getD_set_ne _ (by omega)]
    exact free j below
  · intro i below
    by_cases last : i = k
    · rw [last, getD_set_self room, foldl_words_start, ← same]
      rfl
    · rw [getD_set_ne _ (by omega)]
      exact masked i (by omega)

theorem randomBlocks_length (prng : PRNG) (m : Nat) : (randomBlocks prng m).1.length = m := by
  simp [randomBlocks]

theorem encodeLabels_encoded {M : KProbeMatrix} (columns : M.n ≤ M.mEncodingSize)
    (originalLabels : List Block) (prng : PRNG) :
    EncodedLabels M originalLabels (randomBlocks prng M.mEncodingSize).1 M.n
      (M.encodeLabels originalLabels prng).1 := by
  have width : M.h + M.n = M.mEncodingSize := Nat.sub_add_cancel columns
  have start : EncodedLabels M originalLabels (randomBlocks prng M.mEncodingSize).1 0
      (randomBlocks prng M.mEncodingSize).1 :=
    ⟨by rw [randomBlocks_length, width], fun _ _ => rfl,
      fun i none => absurd none (Nat.not_lt_zero i)⟩
  have loop : ∀ k ≤ M.n, EncodedLabels M originalLabels (randomBlocks prng M.mEncodingSize).1 k
      ((List.range k).foldl (fun encodedLabels i => encodedLabels.set (M.h + i)
        ((List.range M.h).foldl
          (fun acc j => acc ^^^ select (M.entry i j) (encodedLabels.getD j zeroBlock))
          (originalLabels.getD i zeroBlock))) (randomBlocks prng M.mEncodingSize).1) := by
    intro k within
    induction k with
    | zero => exact start
    | succ k ih =>
      rw [List.range_succ, List.foldl_append]
      exact (ih (by omega)).set (by omega)
  exact loop M.n le_rfl

theorem decodeLabels_encoded {M : KProbeMatrix} (columns : M.n ≤ M.mEncodingSize)
    {originalLabels random labels : List Block} (count : originalLabels.length = M.n)
    (final : EncodedLabels M originalLabels random M.n labels) :
    M.decodeLabels labels = .ok originalLabels := by
  obtain ⟨sized, free, masked⟩ := final
  have length : labels.length = M.mEncodingSize := sized.trans (Nat.sub_add_cancel columns)
  rw [decodeLabels, if_neg (not_not.mpr length)]
  refine congrArg Except.ok (ext_getD zeroBlock (by simp [count]) fun i below => ?_)
  have inside : i < M.n := by simpa using below
  have same : M.maskedSum (labels.getD · zeroBlock) i = M.maskedSum (random.getD · zeroBlock) i :=
    maskedSum_congr free i
  rw [map_range_getD _ _ inside, decodeLabel_eq_sum, masked i inside, same, BitVec.xor_assoc,
    BitVec.xor_self, BitVec.xor_zero]

def carry (labels : List Block) (encoded : BitVector) (D : Block) : List Block :=
  (List.range encoded.mNumBits).map fun t =>
    labels.getD t zeroBlock ^^^ select (encoded.get t) D

/-- Encoding and decoding are inverse on bits and on labels, and encoded labels that carry an
    encoded input decode to labels that carry the input. -/
theorem decode_encode {mMtx : List BitVector} {h : Nat} (held : Held mMtx h) {input : BitVector}
    (sized : input.mNumBits = mMtx.length) {originalLabels : List Block}
    (count : originalLabels.length = mMtx.length) (D : Block) (encoding : BitVector)
    (bitPrng labelPrng : PRNG) :
    ∃ encoded rest, encodeBits mMtx (h + mMtx.length) input encoding bitPrng =
        .ok (encoded, rest) ∧
      (ofRows mMtx (h + mMtx.length)).decodeBits encoded.bits = .ok input.bits ∧
      (ofRows mMtx (h + mMtx.length)).decodeLabels
        ((ofRows mMtx (h + mMtx.length)).encodeLabels originalLabels labelPrng).1 =
          .ok originalLabels ∧
      (ofRows mMtx (h + mMtx.length)).decodeLabels
        (carry ((ofRows mMtx (h + mMtx.length)).encodeLabels originalLabels labelPrng).1
          encoded D) =
        .ok ((List.range mMtx.length).map fun i =>
          originalLabels.getD i zeroBlock ^^^ select (input.get i) D) := by
  obtain ⟨width, rows⟩ := ofRows_h mMtx h
  obtain ⟨random, encoded, rest, run, final⟩ := encodeBits_ok held sized encoding bitPrng
  have size : encoded.mNumBits = h + mMtx.length := by rw [final.size, width, rows]
  have columns : (ofRows mMtx (h + mMtx.length)).n ≤
      (ofRows mMtx (h + mMtx.length)).mEncodingSize := by
    rw [rows]
    exact Nat.le_add_left _ _
  have bits := decodeBits_encoded sized final
  have labels := decodeLabels_encoded columns (count.trans rows.symm)
    (encodeLabels_encoded columns originalLabels labelPrng)
  refine ⟨encoded, rest, run, bits, labels, ?_⟩
  have carried : (carry ((ofRows mMtx (h + mMtx.length)).encodeLabels originalLabels labelPrng).1
      encoded D).length = (ofRows mMtx (h + mMtx.length)).mEncodingSize := by
    rw [carry, List.length_map, List.length_range, size]
    rfl
  rw [decodeLabels, if_neg (not_not.mpr carried), rows]
  refine congrArg Except.ok (List.map_congr_left fun i listed => ?_)
  have inside := List.mem_range.mp listed
  have row : (ofRows mMtx (h + mMtx.length)).h + i <
      (ofRows mMtx (h + mMtx.length)).mEncodingSize := by
    rw [width]
    exact Nat.add_lt_add_left inside h
  have shifted : (ofRows mMtx (h + mMtx.length)).decodeLabel
      (carry ((ofRows mMtx (h + mMtx.length)).encodeLabels originalLabels labelPrng).1 encoded
          D) i =
      (ofRows mMtx (h + mMtx.length)).decodeLabel
          ((ofRows mMtx (h + mMtx.length)).encodeLabels originalLabels labelPrng).1 i ^^^
        select ((ofRows mMtx (h + mMtx.length)).decodeBit encoded.bits i) D := by
    refine decodeLabel_shift _ row fun t below => ?_
    have inSize : t < encoded.mNumBits := by rw [size]; exact below
    rw [carry, map_range_getD _ _ inSize, BitVector.bits, map_range_getD _ _ inSize]
  have label : (ofRows mMtx (h + mMtx.length)).decodeLabel
      ((ofRows mMtx (h + mMtx.length)).encodeLabels originalLabels labelPrng).1 i =
      originalLabels.getD i zeroBlock := by
    have all := (decodeLabels_ok labels).2
    rw [rows] at all
    have entry := congrArg (·.getD i zeroBlock) all
    simpa only [map_range_getD _ _ inside] using entry.symm
  have bit : (ofRows mMtx (h + mMtx.length)).decodeBit encoded.bits i = input.get i := by
    have all := (decodeBits_ok bits).2
    rw [rows, BitVector.bits, sized] at all
    have entry := congrArg (·.getD i false) all
    simpa only [map_range_getD _ _ inside] using entry.symm
  rw [shifted, label, bit]

def oneRow : List BitVector := [⟨[0xfd], 3, by decide⟩]

theorem oneRow_held : Held oneRow 3 where
  sized := by
    intro row listed
    rw [List.mem_singleton.mp listed]
  allocated := by
    intro row listed
    rw [List.mem_singleton.mp listed]
    exact ⟨_, BitVector.resize_empty (by decide), rfl⟩

def oneBit : BitVector := ⟨[1], 1, by decide⟩

theorem decode_encode_one_row :
    ∃ encoded rest, encodeBits oneRow (3 + oneRow.length) oneBit .empty (Stream'.const 171) =
        .ok (encoded, rest) ∧
      (ofRows oneRow (3 + oneRow.length)).decodeBits encoded.bits = .ok oneBit.bits ∧
      (ofRows oneRow (3 + oneRow.length)).decodeLabels
        ((ofRows oneRow (3 + oneRow.length)).encodeLabels [7] (Stream'.const 94)).1 = .ok [7] ∧
      (ofRows oneRow (3 + oneRow.length)).decodeLabels
        (carry ((ofRows oneRow (3 + oneRow.length)).encodeLabels [7] (Stream'.const 94)).1 encoded
          9) =
        .ok ((List.range oneRow.length).map fun i =>
          [(7 : Block)].getD i zeroBlock ^^^ select (oneBit.get i) 9) :=
  decode_encode oneRow_held rfl rfl 9 .empty (Stream'.const 171) (Stream'.const 94)

end BatchDualEx.KProbeMatrix
