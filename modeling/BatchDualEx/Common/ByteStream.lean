import BatchDualEx.Circuit.Circuit
import BatchDualEx.Lib.Bytes
import BatchDualEx.Lib.Result

/- `ByteStream`: the bytes up to the write head and the read head in them. -/
namespace BatchDualEx

open Bytes Result

/-- What the allocation holds beyond the write head is not known, so that a read there is
    undefined here. -/
structure ByteStream where
  mData : List Byte
  mReadHead : Nat
  deriving DecidableEq

def encodeU32 (l : Nat) : List Byte := (List.range 4).map fun i => BitVec.ofNat 8 (l >>> (8 * i))

/-- The sum is an `int`. -/
def decodeU32 (buff : List Byte) : Except Fault Nat :=
  let byte (i : Nat) : Nat := (buff.getD i 0).toNat
  let l := byte 0 + 256 * byte 1 + 65536 * byte 2 + 16777216 * byte 3
  if 2 ^ 31 ≤ l then .error .undefined else .ok l

@[simp] theorem encodeU32_length (l : Nat) : (encodeU32 l).length = 4 := by simp [encodeU32]

theorem encodeU32_eq (l : Nat) : encodeU32 l = littleEndian 4 l := by
  simp [encodeU32, littleEndian, List.range_succ, Nat.shiftRight_eq_div_pow, Nat.div_div_eq_div_mul]

theorem decodeU32_eq {buff : List Byte} (four : buff.length = 4) :
    decodeU32 buff =
      if 2 ^ 31 ≤ ofLittleEndian buff then .error .undefined else .ok (ofLittleEndian buff) := by
  obtain ⟨b0, b1, b2, b3, rfl⟩ := List.length_eq_four.mp four
  have value : ofLittleEndian [b0, b1, b2, b3] =
      b0.toNat + 256 * b1.toNat + 65536 * b2.toNat + 16777216 * b3.toNat := by
    simp only [ofLittleEndian, List.foldr_cons, List.foldr_nil]
    omega
  rw [value]
  rfl

theorem ofLittleEndian_encodeU32 {l : Nat} (few : l < 2 ^ 32) :
    ofLittleEndian (encodeU32 l) = l := by
  rw [encodeU32_eq, ofLittleEndian_littleEndian, Nat.mod_eq_of_lt (by omega)]

theorem decodeU32_encodeU32 {l : Nat} (small : l < 2 ^ 31) : decodeU32 (encodeU32 l) = .ok l := by
  rw [decodeU32_eq (encodeU32_length l), ofLittleEndian_encodeU32 (by omega)]
  exact if_neg (Nat.not_le.mpr small)

theorem decodeU32_large {l : Nat} (large : 2 ^ 31 ≤ l) (few : l < 2 ^ 32) :
    decodeU32 (encodeU32 l) = .error .undefined := by
  rw [decodeU32_eq (encodeU32_length l), ofLittleEndian_encodeU32 few]
  exact if_pos large

theorem decodeU32_ok {buff : List Byte} {l : Nat} (four : buff.length = 4)
    (decoded : decodeU32 buff = .ok l) : buff = encodeU32 l ∧ l < 2 ^ 31 := by
  rw [decodeU32_eq four] at decoded
  split at decoded
  · cases decoded
  · rename_i small
    cases decoded
    refine ⟨?_, Nat.not_le.mp small⟩
    rw [encodeU32_eq, ← four, littleEndian_ofLittleEndian]

namespace ByteStream

def empty : ByteStream := ⟨[], 0⟩

def unread (s : ByteStream) : List Byte := s.mData.drop s.mReadHead

def received (message : List Byte) : ByteStream := ⟨message, 0⟩

def setp0 (s : ByteStream) : ByteStream := ⟨[], min s.mReadHead 0⟩

theorem setp0_eq (s : ByteStream) : s.setp0 = empty := by simp [setp0, empty]

def storeBytes (s : ByteStream) (x : List Byte) : ByteStream :=
  { s with mData := s.mData ++ encodeU32 x.length ++ x }

def getBytes (s : ByteStream) : Except Fault (List Byte × ByteStream) := do
  require (s.mReadHead + 4 ≤ s.mData.length) Fault.undefined
  let length ← decodeU32 ((s.mData.drop s.mReadHead).take 4)
  require (s.mReadHead + 4 + length ≤ s.mData.length) Fault.undefined
  return ((s.mData.drop (s.mReadHead + 4)).take length,
    { s with mReadHead := s.mReadHead + 4 + length })

def stored (x : List Byte) : List Byte := encodeU32 x.length ++ x

@[simp] theorem stored_length (x : List Byte) : (stored x).length = 4 + x.length := by
  simp [stored]

theorem getBytes_stored {s : ByteStream} {x rest : List Byte} (small : x.length < 2 ^ 31)
    (ahead : s.unread = stored x ++ rest) :
    ∃ s', s.getBytes = .ok (x, s') ∧ s'.unread = rest := by
  have sized := congrArg List.length ahead
  simp only [unread, List.length_drop, List.length_append, stored_length] at sized
  have header : (s.mData.drop s.mReadHead).take 4 = encodeU32 x.length := by
    change s.unread.take 4 = _
    rw [ahead, stored, List.append_assoc, List.take_left' (encodeU32_length _)]
  have body : s.mData.drop (s.mReadHead + 4) = x ++ rest := by
    rw [← List.drop_drop]
    change s.unread.drop 4 = _
    rw [ahead, stored, List.append_assoc, List.drop_left' (encodeU32_length _)]
  refine ⟨{ s with mReadHead := s.mReadHead + 4 + x.length }, ?_, ?_⟩
  · have first : require (s.mReadHead + 4 ≤ s.mData.length) Fault.undefined = .ok () :=
      require_ok_iff.mpr (by omega)
    have second : require (s.mReadHead + 4 + x.length ≤ s.mData.length) Fault.undefined =
        .ok () := require_ok_iff.mpr (by omega)
    have taken : (x ++ rest).take x.length = x := List.take_left' rfl
    rw [getBytes, first, header, body]
    change (decodeU32 (encodeU32 x.length) >>= _) = _
    rw [decodeU32_encodeU32 small]
    change (require (s.mReadHead + 4 + x.length ≤ s.mData.length) _ >>= _) = _
    rw [second, taken]
    rfl
  · rw [unread, ← List.drop_drop, body, List.drop_left' rfl]

theorem getBytes_ok {s s' : ByteStream} {x : List Byte} (run : s.getBytes = .ok (x, s')) :
    s.unread = stored x ++ s'.unread := by
  unfold getBytes at run
  obtain ⟨header, run⟩ := then_ok_iff.mp run
  obtain ⟨l, decoded, run⟩ := bind_ok run
  obtain ⟨body, run⟩ := then_ok_iff.mp run
  rw [require_ok_iff] at header body
  cases run
  have taken : ((s.mData.drop (s.mReadHead + 4)).take l).length = l := by
    rw [List.length_take, List.length_drop]
    omega
  have four : ((s.mData.drop s.mReadHead).take 4).length = 4 := by
    rw [List.length_take, List.length_drop]
    omega
  unfold stored unread
  rw [taken, ← (decodeU32_ok four decoded).1, ← List.drop_drop (i := l), List.append_assoc,
    List.take_append_drop, ← List.drop_drop, List.take_append_drop]

end ByteStream

end BatchDualEx
