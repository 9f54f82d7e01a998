import BatchDualEx.Common.BitVector
import BatchDualEx.Lib.Text

/- `BitVector::output` and `input`, for people and in binary. The reader for people takes characters
   where the writer has put hexadecimal numbers. -/
namespace BatchDualEx

open Bytes Result Text

def charOf (byte : Byte) : Char := Char.ofNat byte.toNat

def byteOf (c : Char) : Byte := BitVec.ofNat 8 c.toNat

def hexadecimal (byte : Byte) : List Char := Nat.toDigits 16 byte.toNat

namespace BitVector

def output (v : BitVector) (human : Bool) : List Char :=
  if human then
    decimal v.mNumBits ++ ' ' :: (v.bytes.flatMap fun byte => hexadecimal byte ++ [' ']) ++ ['\n']
  else (littleEndian 4 v.mNumBits ++ v.bytes).map charOf

/-- `reset(len)` of an `int`. What is negative counts modulo `2 ^ 64`, for which there is no memory,
    or, from -7 on, no memory is asked for. -/
def resetInt (v : BitVector) (len : Int) : Except Fault BitVector :=
  if len < -7 then .error (.thrown "std::bad_alloc")
  else if len < 0 then .error .undefined
  else .ok (v.reset len.toNat)

def readBytes : Nat → List Char → List Byte
  | 0, _ => []
  | n + 1, s =>
    match readChar s with
    | none => []
    | some (c, s) => byteOf c :: readBytes n s

def clamp (len : Int) : Int := max (-2 ^ 31) (min len (2 ^ 31 - 1))

/-- After the end has been met `tellg` is not 0. A number that `>>` does not find is 0, one that is
    too large the nearest `int`, and nothing is read from then on. -/
def input (v : BitVector) (s : List Char) (human : Bool) : Except Fault BitVector :=
  if s = [] then .error (.thrown "End of file reached")
  else if human then
    match readNumber s with
    | none => v.resetInt 0
    | some ((negative, n), s) =>
      let len : Int := if negative then -n else n
      if clamp len = len then do
        let v ← v.resetInt len
        return v.overwrite 0 (readBytes v.sizeBytes s)
      else v.resetInt (clamp len)
  else if s.length < 4 then .error .undefined
  else do
    let v ← v.resetInt (BitVec.ofNat 32 (ofLittleEndian ((s.take 4).map byteOf))).toInt
    return v.overwrite 0 (((s.drop 4).take v.sizeBytes).map byteOf)

def firstDigit (byte : Byte) : Nat := if byte.toNat < 16 then byte.toNat else byte.toNat / 16

def digitCode (digit : Nat) : Byte := BitVec.ofNat 8 (if digit < 10 then 48 + digit else 87 + digit)

/-- With one byte the bits are those of the code of its first digit, with more they are those of
    `0x33` in every byte, which is the code of the digit 3. -/
def Legible (v : BitVector) : Prop :=
  if v.mNumBits ≤ 8 then
    ∀ i < v.mNumBits, v.get i = (digitCode (firstDigit (v.mData.getD 0 0))).getLsbD i
  else ∀ i < v.mNumBits, v.get i = (0x33#8).getLsbD (i % 8)

theorem byteOf_charOf (byte : Byte) : byteOf (charOf byte) = byte := by
  have code : ∀ byte : Byte, byteOf (charOf byte) = byte := by decide +kernel
  exact code byte

theorem hexadecimal_solid (byte : Byte) : ∀ c ∈ hexadecimal byte, isSpace c = false := by
  have solid : ∀ byte : Byte, ((hexadecimal byte).all fun c => !isSpace c) = true := by
    decide +kernel
  intro c listed
  simpa using List.all_eq_true.mp (solid byte) c listed

theorem hexadecimal_first (byte : Byte) :
    ((hexadecimal byte)[0]?).map byteOf = some (digitCode (firstDigit byte)) := by
  have first : ∀ byte : Byte,
      ((hexadecimal byte)[0]?).map byteOf = some (digitCode (firstDigit byte)) := by
    decide +kernel
  exact first byte

theorem digitCode_fixed (byte : Byte) : digitCode (firstDigit byte) = byte ↔ byte = 0x33#8 := by
  have fixed : ∀ byte : Byte, digitCode (firstDigit byte) = byte ↔ byte = 0x33#8 := by
    decide +kernel
  exact fixed byte

theorem readBytes_eq (n : Nat) (s : List Char) :
    readBytes n s = ((s.filter fun c => !isSpace c).take n).map byteOf := by
  induction s generalizing n with
  | nil => cases n <;> rfl
  | cons c s ih =>
    cases n with
    | zero => rfl
    | succ n =>
      by_cases blank : isSpace c = true
      · have skip : readBytes (n + 1) (c :: s) = readBytes (n + 1) s := by
          rw [readBytes, readBytes, readChar, readChar, skipSpace_cons blank]
        rw [skip, ih, List.filter_cons_of_neg (by simp [blank])]
      · have solid : skipSpace (c :: s) = c :: s := List.dropWhile_cons_of_neg blank
        have first : readBytes (n + 1) (c :: s) = byteOf c :: readBytes n s := by
          rw [readBytes, readChar, solid]
        rw [first, ih, List.filter_cons_of_pos (by simp [blank])]
        rfl

section Read

variable (t v : BitVector)

theorem returned_iff {source : List Byte} (sized : source.length = v.sizeBytes) :
    ((t.reset v.mNumBits).overwrite 0 source).mNumBits = v.mNumBits ∧
      ((t.reset v.mNumBits).overwrite 0 source).bits = v.bits ↔
    ∀ i < v.mNumBits, bit source i = v.get i := by
  have size : ((t.reset v.mNumBits).overwrite 0 source).mNumBits = v.mNumBits :=
    reset_numBits t v.mNumBits
  have room := reset_data_length t v.mNumBits
  have read : ∀ i < v.mNumBits, ((t.reset v.mNumBits).overwrite 0 source).get i = bit source i := by
    intro i below
    unfold sizeBytes at sized
    unfold overwrite get
    simp only
    rw [bit_memcpy (by omega), if_pos (by omega), Nat.mul_zero, Nat.sub_zero]
  rw [and_iff_right size]
  unfold bits
  rw [size, List.map_inj_left]
  constructor
  · intro same i below
    rw [← read i below]
    exact same i (List.mem_range.mpr below)
  · intro same i listed
    have below := List.mem_range.mp listed
    rw [read i below]
    exact same i below

theorem input_human {n : Nat} (small : n < 2 ^ 31) (s : List Char) :
    t.input (decimal n ++ ' ' :: s) true =
      .ok ((t.reset n).overwrite 0 (readBytes ((n + 7) / 8) (' ' :: s))) := by
  have number := readNumber_decimal n (c := ' ') (by decide) s
  have inside : clamp (n : Int) = n := by
    unfold clamp
    omega
  have reset : t.resetInt (n : Int) = .ok (t.reset n) := by
    unfold resetInt
    rw [if_neg (by omega), if_neg (by omega), Int.toNat_natCast]
  unfold input
  rw [if_neg (by simp), if_pos rfl, number]
  simp only [Bool.false_eq_true, if_false]
  rw [if_pos inside, reset, ok_bind, sizeBytes, reset_numBits]
  rfl

theorem input_binary {n : Nat} (small : n < 2 ^ 31) (s : List Char) :
    t.input ((littleEndian 4 n).map charOf ++ s) false =
      .ok ((t.reset n).overwrite 0 ((s.take ((n + 7) / 8)).map byteOf)) := by
  have length : ((littleEndian 4 n).map charOf).length = 4 := by simp
  have header : (((littleEndian 4 n).map charOf ++ s).take 4).map byteOf = littleEndian 4 n := by
    rw [List.take_left' length, List.map_map]
    exact List.map_id'' byteOf_charOf _
  have number : (BitVec.ofNat 32 (ofLittleEndian (littleEndian 4 n))).toInt = n := by
    rw [ofLittleEndian_littleEndian, Nat.mod_eq_of_lt (by omega), BitVec.toInt_ofNat', Int.bmod_def]
    omega
  have reset : t.resetInt (n : Int) = .ok (t.reset n) := by
    unfold resetInt
    rw [if_neg (by omega), if_neg (by omega), Int.toNat_natCast]
  have some : (littleEndian 4 n).map charOf ++ s ≠ [] := by
    intro none
    rw [List.append_eq_nil_iff] at none
    rw [none.1] at length
    cases length
  unfold input
  rw [if_neg some, if_neg Bool.false_ne_true, if_neg (by simp), header, number, reset, ok_bind,
    List.drop_left' length, sizeBytes, reset_numBits]
  rfl

end Read

section Digits

theorem hexadecimal_ne_nil (byte : Byte) : hexadecimal byte ≠ [] := Nat.toDigits_ne_nil

theorem le_length_digits (bytes : List Byte) :
    bytes.length ≤ (bytes.flatMap hexadecimal).length := by
  induction bytes with
  | nil => exact le_rfl
  | cons byte bytes ih =>
    have some := List.length_pos_iff.mpr (hexadecimal_ne_nil byte)
    rw [List.flatMap_cons, List.length_append, List.length_cons]
    omega

def digitBytes (bytes : List Byte) : List Byte :=
  ((bytes.flatMap hexadecimal).take bytes.length).map byteOf

theorem digitBytes_length (bytes : List Byte) : (digitBytes bytes).length = bytes.length := by
  rw [digitBytes, List.length_map, List.length_take]
  exact Nat.min_eq_left (le_length_digits bytes)

theorem readBytes_digits (bytes : List Byte) (rest : List Char) :
    readBytes bytes.length
        (' ' :: ((bytes.flatMap fun byte => hexadecimal byte ++ [' ']) ++ rest)) =
      digitBytes bytes := by
  have each : ∀ byte : Byte,
      ((hexadecimal byte ++ [' ']).filter fun c => !isSpace c) = hexadecimal byte := fun byte => by
    rw [List.filter_append, List.filter_eq_self.mpr fun c listed => by
      rw [hexadecimal_solid byte c listed]; rfl]
    exact List.append_nil _
  rw [readBytes_eq, List.filter_cons_of_neg (by decide), List.filter_append, List.filter_flatMap]
  simp only [each]
  rw [List.take_append_of_le_length (le_length_digits bytes), digitBytes]

theorem digitBytes_head (byte : Byte) (bytes : List Byte) :
    (digitBytes (byte :: bytes)).getD 0 0 = digitCode (firstDigit byte) := by
  have some := List.length_pos_iff.mpr (hexadecimal_ne_nil byte)
  have first := hexadecimal_first byte
  rw [digitBytes, List.getD_eq_getElem?_getD, List.getElem?_map, List.length_cons,
    List.getElem?_take_of_lt (Nat.succ_pos _), List.flatMap_cons, List.getElem?_append_left some,
    first]
  rfl

theorem threes {bytes : List Byte} {m : Nat} (inside : m ≤ bytes.length)
    (each : ∀ j < m, bytes.getD j 0 = 0x33#8) {j : Nat} (below : j < 2 * m) :
    (bytes.flatMap hexadecimal)[j]? = some '3' := by
  induction bytes generalizing m j with
  | nil =>
    have none : m = 0 := Nat.le_zero.mp inside
    omega
  | cons byte bytes ih =>
    have three : byte = 0x33#8 := each 0 (by omega)
    have digits : hexadecimal byte = ['3', '3'] := by
      rw [three]
      decide
    rw [List.flatMap_cons, digits]
    rcases j with _ | _ | j
    · rfl
    · rfl
    · rw [List.length_cons] at inside
      exact ih (m := m - 1) (by omega) (fun j' below' => each (j' + 1) (by omega)) (by omega)

theorem digitBytes_threes {bytes : List Byte} {m : Nat} (inside : m ≤ bytes.length)
    (each : ∀ j < m, bytes.getD j 0 = 0x33#8) {j : Nat} (below : j < 2 * m)
    (listed : j < bytes.length) : (digitBytes bytes).getD j 0 = 0x33#8 := by
  rw [digitBytes, List.getD_eq_getElem?_getD, List.getElem?_map, List.getElem?_take_of_lt listed,
    threes inside each below]
  rfl

end Digits

section Legible

variable {v : BitVector}

theorem getD_bytes_eq {j : Nat} (full : 8 * j + 8 ≤ v.mNumBits) {x : Byte}
    (same : ∀ k < 8, v.get (8 * j + k) = x.getLsbD k) : v.bytes.getD j 0 = x := by
  apply BitVec.eq_of_getLsbD_eq
  intro k inByte
  rw [← same k inByte, ← bit_bytes v (by unfold sizeBytes; omega), bit,
    show (8 * j + k) / 8 = j by omega, show (8 * j + k) % 8 = k by omega]

theorem bit_eq_getLsbD (data : List Byte) (i : Nat) :
    bit data i = (data.getD (i / 8) 0).getLsbD (i % 8) := rfl

/-- With more than one byte, all bytes are read as `0x33` when the first one is read right. -/
theorem digitBytes_eq_threes (more : 8 < v.mNumBits)
    (same : ∀ i < v.mNumBits, bit (digitBytes v.bytes) i = v.get i) {j : Nat}
    (inside : j < v.sizeBytes) : (digitBytes v.bytes).getD j 0 = 0x33#8 := by
  have full : ∀ j, 8 * j + 8 ≤ v.mNumBits → v.bytes.getD j 0 = (digitBytes v.bytes).getD j 0 := by
    intro j full
    refine getD_bytes_eq full fun k inByte => ?_
    rw [← same _ (by omega), bit_eq_getLsbD, show (8 * j + k) / 8 = j by omega,
      show (8 * j + k) % 8 = k by omega]
  induction j using Nat.strong_induction_on with
  | _ j ih =>
    have sized := bytes_length v
    rcases Nat.eq_zero_or_pos j with rfl | later
    · obtain ⟨byte, bytes, split⟩ := List.exists_cons_of_length_pos (sized ▸ inside)
      have fixed := full 0 (by omega)
      rw [split, digitBytes_head] at fixed
      have three := (digitCode_fixed byte).mp fixed.symm
      rw [split, digitBytes_head, three]
      decide
    · have each : ∀ k < j, v.bytes.getD k 0 = 0x33#8 := fun k below => by
        have inside' : k < v.sizeBytes := below.trans inside
        unfold sizeBytes at inside
        rw [full k (by omega), ih k below inside']
      exact digitBytes_threes (by omega) each (by omega) (by omega)

theorem legible_iff :
    (∀ i < v.mNumBits, bit (digitBytes v.bytes) i = v.get i) ↔ v.Legible := by
  have sized := bytes_length v
  unfold Legible
  split
  case isTrue few =>
    rcases Nat.eq_zero_or_pos v.mNumBits with none | some
    · rw [none]
      simp
    · have one : 0 < v.sizeBytes := by
        unfold sizeBytes
        omega
      obtain ⟨byte, others, split⟩ := List.exists_cons_of_length_pos (sized ▸ one)
      have first : v.mData.getD 0 0 = byte := by
        have head : v.bytes.getD 0 0 = byte := by
          rw [split]
          rfl
        rw [← head, bytes, List.getD_eq_getElem?_getD, List.getD_eq_getElem?_getD,
          List.getElem?_take_of_lt one]
      refine forall_congr' fun i => imp_congr_right fun below => ?_
      have low : i < 8 := by omega
      rw [bit_eq_getLsbD, Nat.div_eq_of_lt low, Nat.mod_eq_of_lt low, split, digitBytes_head, first]
      exact eq_comm
  case isFalse more =>
    constructor
    · intro same i below
      have inside : i / 8 < v.sizeBytes := by
        unfold sizeBytes
        omega
      rw [← same i below, bit_eq_getLsbD, digitBytes_eq_threes (Nat.lt_of_not_le more) same inside]
    · intro legible i below
      have each : ∀ j < v.sizeBytes - 1, v.bytes.getD j 0 = 0x33#8 := fun j before => by
        unfold sizeBytes at before
        refine getD_bytes_eq (by omega) fun k inByte => ?_
        rw [legible _ (by omega), show (8 * j + k) % 8 = k by omega]
      have inside : i / 8 < v.sizeBytes := by
        unfold sizeBytes
        omega
      have two : 2 ≤ v.sizeBytes := by
        unfold sizeBytes
        omega
      rw [bit_eq_getLsbD, digitBytes_threes (m := v.sizeBytes - 1) (by omega) each (by omega)
        (by omega), legible i below]

end Legible

/-- What is written in binary is always read back. What is written for people is read back when its
digits are the codes of the bits. -/
theorem input_output_iff (v t : BitVector) (small : v.mNumBits < 2 ^ 31 - 8) (human : Bool)
    (rest : List Char) :
    (∃ w, t.input (v.output human ++ rest) human = .ok w ∧ w.mNumBits = v.mNumBits ∧
        w.bits = v.bits) ↔
      (human = true → v.Legible) := by
  cases human with
  | true =>
    have read := input_human t (by omega : v.mNumBits < 2 ^ 31)
      ((v.bytes.flatMap fun byte => hexadecimal byte ++ [' ']) ++ '\n' :: rest)
    have digits := readBytes_digits v.bytes ('\n' :: rest)
    rw [bytes_length] at digits
    unfold sizeBytes at digits
    rw [digits] at read
    have returned := returned_iff t v ((digitBytes_length v.bytes).trans (bytes_length v))
    simp only [output, if_true, List.append_assoc, List.cons_append, List.nil_append, read,
      Except.ok.injEq, exists_eq_left', true_implies]
    rw [returned, legible_iff]
  | false =>
    have read := input_binary t (by omega : v.mNumBits < 2 ^ 31) (v.bytes.map charOf ++ rest)
    have length : (v.bytes.map charOf).length = (v.mNumBits + 7) / 8 := by
      rw [List.length_map, bytes_length, sizeBytes]
    have back : v.bytes.map (byteOf ∘ charOf) = v.bytes := List.map_id'' byteOf_charOf _
    rw [List.take_left' length, List.map_map, back] at read
    have returned := returned_iff t v (bytes_length v)
    simp only [output, Bool.false_eq_true, if_false, List.map_append, List.append_assoc, read,
      Except.ok.injEq, exists_eq_left', false_implies, iff_true]
    rw [returned]
    intro i below
    exact bit_bytes v (by unfold sizeBytes; omega)

theorem input_output_iff_threes :
    (∃ w, empty.input (output ⟨[0x33#8, 0x33#8, 0xff#8], 18, by decide⟩ true ++ ['7']) true =
      .ok w ∧ w.mNumBits = 18 ∧ w.bits = bits ⟨[0x33#8, 0x33#8, 0xff#8], 18, by decide⟩) ∧
    ∃ w, empty.input (output ⟨[0x01#8], 8, by decide⟩ false ++ ['7']) false = .ok w ∧
      w.mNumBits = 8 ∧ w.bits = bits ⟨[0x01#8], 8, by decide⟩ := by
  constructor
  · refine (input_output_iff ⟨[0x33#8, 0x33#8, 0xff#8], 18, by decide⟩ empty (by decide) true
      ['7']).mpr fun _ => ?_
    rw [Legible, if_neg (by decide)]
    decide
  · exact (input_output_iff ⟨[0x01#8], 8, by decide⟩ empty (by decide) false ['7']).mpr
      fun human => Bool.noConfusion human

/-- The byte 1 is written as the digit 1 and read as the code of that digit. -/
theorem input_output_loses : ∃ w, empty.input (output ⟨[0x01#8], 8, by decide⟩ true) true = .ok w ∧
    w = ⟨[0x31#8], 8, by decide⟩ ∧ w.bits ≠ bits ⟨[0x01#8], 8, by decide⟩ :=
  ⟨⟨[0x31#8], 8, by decide⟩, by decide, rfl, by decide⟩

end BitVector

end BatchDualEx
