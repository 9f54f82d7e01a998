import BatchDualEx.Circuit.Circuit
import BatchDualEx.Lib.Bytes
import BatchDualEx.Lib.Result

/- `BitVector`: the allocated bytes and the number of bits in use. Which bits stand in the
   padding of the last byte depends on the path by which they were written. -/
namespace BatchDualEx

open Bytes Result

/-- The 16 bytes of a block, lowest first. -/
def byteArray (b : Block) : List Byte := (List.range 16).map fun i => b.extractLsb' (8 * i) 8

@[simp] theorem byteArray_length (b : Block) : (byteArray b).length = 16 := by simp [byteArray]

theorem bit_byteArray (b : Block) (i : Nat) : bit (byteArray b) i = b.getLsbD i := by
  unfold bit byteArray
  by_cases inside : i / 8 < 16
  · rw [List.getD_eq_getElem _ _ (by simpa using inside), List.getElem_map, List.getElem_range,
      BitVec.getLsbD_extractLsb', show 8 * (i / 8) + i % 8 = i by omega]
    simp [Nat.mod_lt]
  · have beyond : 128 ≤ i := by omega
    rw [List.getD_eq_default _ _ (by simpa using Nat.not_lt.mp inside),
      BitVec.getLsbD_of_ge b i beyond]
    exact BitVec.getLsbD_zero

def blockOfBytes (bytes : List Byte) : Block :=
  bytes.foldr (fun byte b => b <<< 8 ||| byte.setWidth 128) 0

theorem getLsbD_blockOfBytes (bytes : List Byte) {c : Nat} (inside : c < 128) :
    (blockOfBytes bytes).getLsbD c = bit bytes c := by
  unfold blockOfBytes
  induction bytes generalizing c with
  | nil => simp [bit]
  | cons byte bytes ih =>
    rw [List.foldr_cons, BitVec.getLsbD_or, BitVec.getLsbD_shiftLeft, BitVec.getLsbD_setWidth]
    unfold bit
    by_cases first : c < 8
    · simp [first, inside, Nat.div_eq_of_lt first, Nat.mod_eq_of_lt first]
    · rw [ih (show c - 8 < 128 by omega)]
      unfold bit
      rw [show c / 8 = (c - 8) / 8 + 1 by omega, List.getD_cons_succ,
        show (c - 8) % 8 = c % 8 by omega]
      simp [first, inside, Nat.not_lt.mp first]

theorem blockOfBytes_byteArray (b : Block) : blockOfBytes (byteArray b) = b := by
  apply BitVec.eq_of_getLsbD_eq
  intro i inside
  rw [getLsbD_blockOfBytes _ inside, bit_byteArray]

/-- `mAllocBytes` is the length of `mData`. -/
structure BitVector where
  mData : List Byte
  mNumBits : Nat
  fits : (mNumBits + 7) / 8 ≤ mData.length
  deriving DecidableEq

namespace BitVector

def empty : BitVector := ⟨[], 0, by decide⟩

@[simp] theorem empty_numBits : empty.mNumBits = 0 := rfl

def size (v : BitVector) : Nat := v.mNumBits
def sizeBytes (v : BitVector) : Nat := (v.mNumBits + 7) / 8

def get (v : BitVector) (i : Nat) : Bool := bit v.mData i

/-- What the channel sends: `ChannelBufferSize()` bytes from `ChannelBufferData()`. -/
def bytes (v : BitVector) : List Byte := v.mData.take v.sizeBytes

def bits (v : BitVector) : List Bool := (List.range v.mNumBits).map v.get

/-- `DIV_CEIL(n, k)`, which adds `k` first. -/
def divCeil (n k : Int) : Except Fault Int :=
  if 2 ^ 31 ≤ n + k then .error .undefined else .ok ((n + k - 1).tdiv k)

/-- `DIV_CEIL((int)newSize, 8)`, converted to `size_t`. -/
def newBytes (newSize : Nat) : Except Fault Nat :=
  (divCeil (BitVec.ofNat 32 newSize).toInt 8).map fun n => (BitVec.ofInt 64 n).toNat

/-- `mData` after the allocation: the bytes in use move to the front of a zeroed array. -/
def allocate (v : BitVector) (new_nbytes : Nat) : List Byte :=
  if v.mData.length < new_nbytes then
    v.bytes ++ List.replicate (new_nbytes - v.bytes.length) 0
  else v.mData

/-- The callers write up to the new size at once, which is undefined where `(int)` has made
    the allocation too small. -/
def resize (v : BitVector) (newSize : Nat) : Except Fault BitVector := do
  let new_nbytes ← newBytes newSize
  if 2 ^ 63 ≤ new_nbytes then .error (.thrown "bad_array_new_length")
  else if room : (newSize + 7) / 8 ≤ (v.allocate new_nbytes).length then
    .ok ⟨v.allocate new_nbytes, newSize, room⟩
  else .error .undefined

/-- Keeps no bit of `v`; the bytes of the new size are zero. -/
def reset (v : BitVector) (new_nbits : Nat) : BitVector :=
  if room : (new_nbits + 7) / 8 ≤ v.mData.length then
    { mData := memcpy v.mData 0 (List.replicate ((new_nbits + 7) / 8) 0)
      mNumBits := new_nbits
      fits := by simpa using room }
  else
    { mData := List.replicate ((new_nbits + 7) / 8) 0
      mNumBits := new_nbits
      fits := by simp }

def overwrite (v : BitVector) (start : Nat) (source : List Byte) : BitVector :=
  { v with
    mData := memcpy v.mData start source
    fits := by simpa using v.fits }

def set (v : BitVector) (i : Nat) (val : Bool) : BitVector :=
  { v with
    mData := setBit v.mData i val
    fits := by simpa using v.fits }

/-- Whole bytes are copied when neither end needs shifting. -/
def append (v : BitVector) (data : List Byte) (length offset : Nat) : Except Fault BitVector := do
  let w ← v.resize (v.mNumBits + length)
  if offset % 8 ≠ 0 ∨ v.mNumBits % 8 ≠ 0 then
    return (List.range length).foldl
      (fun w i => w.set (v.mNumBits + i) (bit data (offset + i))) w
  else
    return w.overwrite (v.mNumBits / 8) ((data.drop (offset / 8)).takeD ((length + 7) / 8) 0)

def copy (v src : BitVector) (idx length : Nat) : Except Fault BitVector := do
  let w ← v.resize 0
  w.append src.mData length idx

def ofData (data : List Byte) (length : Nat) : Except Fault BitVector :=
  empty.append data length 0

def assign (v K : BitVector) : BitVector := (v.reset K.mNumBits).overwrite 0 K.bytes

def ofCopy (K : BitVector) : BitVector := empty.assign K

/-- `operator^=`: whole bytes, padding included. -/
def xorAssign (v A : BitVector) : BitVector :=
  { v with
    mData := xorPrefix v.sizeBytes v.mData A.mData
    fits := by simpa using v.fits }

def andAssign (v A : BitVector) : BitVector :=
  { v with
    mData := andPrefix v.sizeBytes v.mData A.mData
    fits := by simpa using v.fits }

def parity (v : BitVector) : Bool :=
  let lastByte := v.mNumBits / 8
  let bit := (List.range lastByte).foldl
    (fun bit i => (List.range 8).foldl (fun bit k => bit ^^ (v.mData.getD i 0).getLsbD k) bit) false
  let lastBits := v.mNumBits - lastByte * 8
  (List.range lastBits).foldl (fun bit i => bit ^^ (v.mData.getD lastByte 0).getLsbD i) bit

def recv (v : BitVector) (message : List Byte) : Except Fault BitVector :=
  if v.sizeBytes ≠ message.length then .error (.thrown "asdsdasfaf ;) ")
  else .ok (v.overwrite 0 message)

@[simp] theorem bytes_length (v : BitVector) : v.bytes.length = v.sizeBytes := by
  simp [bytes, sizeBytes, v.fits]

theorem bit_bytes (v : BitVector) {i : Nat} (inside : i < 8 * v.sizeBytes) :
    bit v.bytes i = v.get i := by
  have below : i / 8 < v.sizeBytes := by omega
  simp [bytes, bit_take, below, get]

/-- What is sent depends on the size and on the bits of the bytes in use. -/
theorem bytes_eq_iff {v w : BitVector} (sized : v.mNumBits = w.mNumBits) :
    v.bytes = w.bytes ↔ ∀ i < 8 * v.sizeBytes, v.get i = w.get i := by
  have same : v.sizeBytes = w.sizeBytes := by unfold sizeBytes; rw [sized]
  constructor
  · intro equal i inside
    rw [← bit_bytes v inside, equal, bit_bytes w (by omega)]
  · intro each
    apply ext_bits (by simpa using same)
    intro i inside
    rw [bytes_length] at inside
    rw [bit_bytes v inside, each i inside, bit_bytes w (by omega)]

theorem newBytes_eq {n : Nat} (exact : (BitVec.ofNat 32 n).toInt + 8 < 2 ^ 31) :
    newBytes n = .ok (BitVec.ofInt 64 (((BitVec.ofNat 32 n).toInt + 7).tdiv 8)).toNat := by
  unfold newBytes divCeil
  have sum : (BitVec.ofNat 32 n).toInt + 8 - 1 = (BitVec.ofNat 32 n).toInt + 7 := by omega
  rw [if_neg (by omega), sum]
  rfl

theorem newBytes_ok {n k : Nat} (computed : newBytes n = .ok k) :
    (BitVec.ofNat 32 n).toInt + 8 < 2 ^ 31 ∧
      k = (BitVec.ofInt 64 (((BitVec.ofNat 32 n).toInt + 7).tdiv 8)).toNat := by
  by_cases exact : (BitVec.ofNat 32 n).toInt + 8 < 2 ^ 31
  · rw [newBytes_eq exact] at computed
    cases computed
    exact ⟨exact, rfl⟩
  · unfold newBytes divCeil at computed
    rw [if_pos (Int.not_lt.mp exact)] at computed
    cases computed

theorem newBytes_small {n : Nat} (small : n + 8 < 2 ^ 31) : newBytes n = .ok ((n + 7) / 8) := by
  have exact : (BitVec.ofNat 32 n).toInt = n := by
    rw [BitVec.toInt_ofNat', Int.bmod_def]
    omega
  have quotient : ((n : Int) + 7).tdiv 8 = ((n + 7) / 8 : Nat) := by
    rw [show (n : Int) + 7 = ((n + 7 : Nat) : Int) by rfl,
      show (8 : Int) = ((8 : Nat) : Int) by rfl, ← Int.ofNat_tdiv]
  rw [newBytes_eq (by omega), exact, quotient, BitVec.ofInt_natCast, BitVec.toNat_ofNat,
    Nat.mod_eq_of_lt (by omega)]

/-- From `2^31 - 8` bits on `resize` allocates too little or too much. -/
theorem newBytes_large {n k : Nat} (large : 2 ^ 31 ≤ n + 8) (computed : newBytes n = .ok k) :
    2 ^ 63 ≤ k ∨ k < (n + 7) / 8 := by
  obtain ⟨inside, rfl⟩ := newBytes_ok computed
  have bounds := BitVec.toInt_lt (x := BitVec.ofNat 32 n)
  have lower := BitVec.le_toInt (x := BitVec.ofNat 32 n)
  have value : (BitVec.ofNat 32 n).toInt + 2 ^ 32 ≤ n := by
    rw [BitVec.toInt_ofNat', Int.bmod_def] at inside ⊢
    omega
  generalize (BitVec.ofNat 32 n).toInt = z at inside bounds lower value
  have quotient : (z + 7).tdiv 8 = (z + 7) / 8 + if 0 ≤ z + 7 ∨ 8 ∣ z + 7 then 0 else 1 :=
    Int.tdiv_eq_ediv
  have upper : (z + 7).tdiv 8 < 2 ^ 28 := by
    rw [quotient]
    split <;> omega
  have lower : -(2 ^ 28) ≤ (z + 7).tdiv 8 := by
    rw [quotient]
    split <;> omega
  rw [BitVec.toNat_ofInt]
  omega

theorem allocate_length (v : BitVector) (k : Nat) :
    (v.allocate k).length = max v.mData.length k := by
  have inUse := v.fits
  unfold allocate
  split
  · rw [List.length_append, List.length_replicate, bytes_length]
    unfold sizeBytes
    omega
  · omega

theorem resize_large {v : BitVector} {n : Nat} (large : 2 ^ 31 ≤ n + 8)
    (short : v.mData.length < (n + 7) / 8) : ∃ fault, v.resize n = .error fault := by
  unfold resize
  cases computed : newBytes n with
  | error fault => exact ⟨fault, rfl⟩
  | ok k =>
    change ∃ fault, (if 2 ^ 63 ≤ k then _ else _) = _
    rcases newBytes_large large computed with big | less
    · exact ⟨_, if_pos big⟩
    · have sized := v.allocate_length k
      by_cases big : 2 ^ 63 ≤ k
      · exact ⟨_, if_pos big⟩
      · exact ⟨.undefined, (if_neg big).trans (dif_neg (by omega))⟩

theorem resize_small (v : BitVector) {n : Nat} (small : n + 8 < 2 ^ 31) :
    v.resize n = .ok ⟨v.allocate ((n + 7) / 8), n, by rw [allocate_length]; omega⟩ := by
  have fewBytes : ¬2 ^ 63 ≤ (n + 7) / 8 := by omega
  have room : (n + 7) / 8 ≤ (v.allocate ((n + 7) / 8)).length := by
    rw [allocate_length]
    omega
  unfold resize
  rw [newBytes_small small]
  simp only [bind, Except.bind, fewBytes, room, if_false, dite_true]

theorem resize_within {v : BitVector} {n : Nat} (small : n + 8 < 2 ^ 31)
    (room : (n + 7) / 8 ≤ v.mData.length) : v.resize n = .ok ⟨v.mData, n, room⟩ := by
  have kept : v.allocate ((n + 7) / 8) = v.mData := if_neg (by omega)
  rw [resize_small v small]
  simp only [kept]

theorem resize_empty {n : Nat} (small : n + 8 < 2 ^ 31) :
    empty.resize n = .ok ⟨List.replicate ((n + 7) / 8) 0, n, by simp⟩ := by
  have zeros : empty.allocate ((n + 7) / 8) = List.replicate ((n + 7) / 8) 0 := by
    unfold allocate
    split
    · rfl
    · rename_i none
      have : (n + 7) / 8 = 0 := Nat.eq_zero_of_not_pos none
      rw [this]
      rfl
  rw [resize_small empty small]
  simp only [zeros]

theorem get_set {v : BitVector} {i : Nat} (inside : i < 8 * v.mData.length) (val : Bool)
    (j : Nat) : (v.set i val).get j = if j = i then val else v.get j :=
  bit_setBit inside val j

theorem get_setLoop (v : BitVector) (start : Nat) (f : Nat → Bool) (length : Nat)
    (inside : start + length ≤ 8 * v.mData.length) :
    let w := (List.range length).foldl (fun w i => w.set (start + i) (f i)) v
    w.mNumBits = v.mNumBits ∧ w.mData.length = v.mData.length ∧
      ∀ j, w.get j = if start ≤ j ∧ j < start + length then f (j - start) else v.get j := by
  induction length with
  | zero =>
    refine ⟨rfl, rfl, fun j => ?_⟩
    rw [if_neg (by omega)]
    rfl
  | succ length ih =>
    obtain ⟨numBits, sized, written⟩ := ih (by omega)
    rw [List.range_succ, List.foldl_append]
    refine ⟨numBits, (setBit_length _ _ _).trans sized, fun j => ?_⟩
    change (set _ _ _).get j = _
    rw [get_set (by rw [sized]; omega), written j]
    by_cases last : j = start + length
    · rw [if_pos last, if_pos (by omega), last, Nat.add_sub_cancel_left]
    · rw [if_neg last]
      by_cases earlier : start ≤ j ∧ j < start + length
      · rw [if_pos earlier, if_pos (by omega)]
      · rw [if_neg earlier, if_neg (by omega)]

/-- What a fresh vector holds after `append`: from an aligned offset whole bytes are copied and
    the padding comes along, from any other offset the padding stays zero. -/
theorem append_empty (data : List Byte) {length : Nat} (offset : Nat)
    (small : length + 8 < 2 ^ 31) : ∃ w, empty.append data length offset = .ok w ∧
      w.mNumBits = length ∧ ∀ i < 8 * w.sizeBytes,
        w.get i = (decide (i < length ∨ offset % 8 = 0) && bit data (offset + i)) := by
  unfold append
  rw [show empty.mNumBits + length = length from Nat.zero_add length, resize_empty small]
  by_cases aligned : offset % 8 = 0
  · refine ⟨_, if_neg (by simp [aligned, empty]), rfl, fun i inside => ?_⟩
    change i < 8 * ((length + 7) / 8) at inside
    have source : i < 8 * ((data.drop (offset / 8)).takeD ((length + 7) / 8) 0).length := by
      rwa [List.takeD_length]
    simp only [get, overwrite]
    rw [bit_memcpy (by rwa [List.length_replicate]), if_pos ⟨Nat.zero_le _, by simpa using source⟩,
      show i - 8 * (empty.mNumBits / 8) = i from rfl, bit_takeD _ inside, bit_drop,
      show 8 * (offset / 8) + i = offset + i by omega]
    simp [aligned]
  · obtain ⟨numBits, sized, written⟩ := get_setLoop
      ⟨List.replicate ((length + 7) / 8) 0, length, by simp⟩ empty.mNumBits
      (fun i => bit data (offset + i)) length
      (by rw [List.length_replicate]; change 0 + _ ≤ _; omega)
    refine ⟨_, if_pos (Or.inl aligned), numBits, fun i _ => ?_⟩
    have value := written i
    simp only [empty_numBits, Nat.zero_le, true_and, Nat.zero_add, Nat.sub_zero] at value
    rw [empty_numBits]
    simp only [Nat.zero_add]
    by_cases inside : i < length
    · rw [value, if_pos inside]
      simp [inside]
    · rw [value, if_neg inside]
      simpa [inside, aligned, get] using bit_zeros ((length + 7) / 8) i

theorem copy_empty (src : BitVector) (idx length : Nat) :
    empty.copy src idx length = empty.append src.mData length idx := by
  unfold copy
  rw [resize_empty (by decide)]
  rfl

theorem append_empty_large {length : Nat} (offset : Nat) (large : 2 ^ 31 ≤ length + 8) :
    ∃ fault, ∀ data, empty.append data length offset = .error fault := by
  obtain ⟨fault, failed⟩ := resize_large (v := empty) large
    (by change 0 < _; omega)
  refine ⟨fault, fun data => ?_⟩
  unfold append
  rw [show empty.mNumBits + length = length from Nat.zero_add length, failed]
  rfl

theorem copy_empty_ok {src w : BitVector} {idx length : Nat}
    (run : empty.copy src idx length = .ok w) :
    w.mNumBits = length ∧ ∀ i < 8 * w.sizeBytes,
      w.get i = (decide (i < length ∨ idx % 8 = 0) && src.get (idx + i)) := by
  rw [copy_empty] at run
  by_cases small : length + 8 < 2 ^ 31
  · obtain ⟨w', run', size, read⟩ := append_empty src.mData idx small
    cases run.symm.trans run'
    exact ⟨size, read⟩
  · obtain ⟨fault, failed⟩ := append_empty_large idx (Nat.not_lt.mp small)
    cases run.symm.trans (failed src.mData)

theorem get_xorAssign {v : BitVector} (A : BitVector) {i : Nat} (inside : i < 8 * v.sizeBytes) :
    (v.xorAssign A).get i = (v.get i ^^ A.get i) := by
  have := v.fits
  unfold sizeBytes at inside
  exact bit_xorPrefix (by omega) inside

theorem get_andAssign {v : BitVector} (A : BitVector) {i : Nat} (inside : i < 8 * v.sizeBytes) :
    (v.andAssign A).get i = (v.get i && A.get i) := by
  have := v.fits
  unfold sizeBytes at inside
  exact bit_andPrefix (by omega) inside

theorem parity_eq (v : BitVector) : v.parity = Bytes.parity v.mData v.mNumBits := by
  have whole : ∀ k, (List.range k).foldl (fun bit i => (List.range 8).foldl
      (fun bit j => bit ^^ (v.mData.getD i 0).getLsbD j) bit) false =
      Bytes.parity v.mData (8 * k) := by
    intro k
    induction k with
    | zero => rfl
    | succ k ih =>
      rw [@List.range_succ k, List.foldl_append, ih, Nat.mul_succ, parity_add v.mData k le_rfl]
      rfl
  have last := parity_add v.mData (v.mNumBits / 8)
    (show v.mNumBits - v.mNumBits / 8 * 8 ≤ 8 by omega)
  rw [parity, whole, ← last]
  congr 1
  omega

@[simp] theorem reset_numBits (v : BitVector) (n : Nat) : (v.reset n).mNumBits = n := by
  unfold reset
  split <;> rfl

theorem get_reset (v : BitVector) {n i : Nat} (inside : i < 8 * ((n + 7) / 8)) :
    (v.reset n).get i = false := by
  unfold get reset
  split
  · rename_i room
    rw [bit_memcpy (by omega), List.length_replicate, if_pos (by omega)]
    exact bit_zeros _ _
  · exact bit_zeros _ _

theorem reset_data_length (v : BitVector) (n : Nat) :
    (n + 7) / 8 ≤ (v.reset n).mData.length := by
  have fits := (v.reset n).fits
  rwa [reset_numBits] at fits

theorem reset_empty_data (n : Nat) :
    (empty.reset n).mData = List.replicate ((n + 7) / 8) 0 := by
  unfold reset
  split
  · rename_i none
    have nothing : (n + 7) / 8 = 0 := Nat.le_zero.mp none
    rw [nothing]
    rfl
  · rfl

theorem reset_empty_length (n : Nat) : (empty.reset n).mData.length = (n + 7) / 8 := by
  rw [reset_empty_data, List.length_replicate]

@[simp] theorem get_reset_empty (n i : Nat) : (empty.reset n).get i = false := by
  unfold get
  rw [reset_empty_data]
  exact bit_zeros _ _

theorem get_overwrite_reset {v : BitVector} {n : Nat} {source : List Byte}
    (size : source.length = (n + 7) / 8) {i : Nat} (inside : i < 8 * ((n + 7) / 8)) :
    ((v.reset n).overwrite 0 source).get i = bit source i := by
  have room := reset_data_length v n
  unfold overwrite get
  simp only
  rw [bit_memcpy (by omega),
    if_pos ⟨Nat.zero_le _, by omega⟩, Nat.mul_zero, Nat.sub_zero]

theorem get_ofCopy {K : BitVector} {i : Nat} (inside : i < 8 * K.sizeBytes) :
    (ofCopy K).get i = K.get i := by
  unfold ofCopy assign
  rw [get_overwrite_reset (bytes_length K) inside, bit_bytes K inside]

@[simp] theorem ofCopy_numBits (K : BitVector) : (ofCopy K).mNumBits = K.mNumBits :=
  reset_numBits empty K.mNumBits

theorem bytes_ofCopy (K : BitVector) : (ofCopy K).bytes = K.bytes := by
  rw [bytes_eq_iff (ofCopy_numBits K)]
  unfold sizeBytes
  rw [ofCopy_numBits]
  exact fun i inside => get_ofCopy inside

@[simp] theorem bits_length (v : BitVector) : v.bits.length = v.mNumBits := by
  simp [bits]

theorem bits_eq {v w : BitVector} (size : v.mNumBits = w.mNumBits)
    (same : ∀ i < v.mNumBits, v.get i = w.get i) : v.bits = w.bits := by
  unfold bits
  rw [← size]
  exact List.map_congr_left fun i listed => same i (List.mem_range.mp listed)

theorem recv_reset {v : BitVector} {n : Nat} {message : List Byte}
    (size : message.length = (n + 7) / 8) :
    ∃ w, (v.reset n).recv message = .ok w ∧ w.mNumBits = n ∧ ∀ i < n, w.get i = bit message i := by
  have room : (v.reset n).sizeBytes = message.length := by
    unfold sizeBytes
    rw [reset_numBits, size]
  refine ⟨(v.reset n).overwrite 0 message, if_neg (not_not.mpr room), reset_numBits v n, ?_⟩
  intro i below
  exact get_overwrite_reset size (by omega)

end BitVector

end BatchDualEx
