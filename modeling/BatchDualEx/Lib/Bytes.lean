import BatchDualEx.Lib.Lists
import Mathlib.Algebra.GroupWithZero.Nat

/- Byte strings read as strings of bits, lowest bit of a byte first, and the writes that
   change one bit or a run of bytes in place. -/
namespace Bytes

abbrev Byte := BitVec 8

def bit (data : List Byte) (i : Nat) : Bool := (data.getD (i / 8) 0).getLsbD (i % 8)

theorem ext_bits {data data' : List Byte} (sized : data.length = data'.length)
    (same : ∀ i < 8 * data.length, bit data i = bit data' i) : data = data' := by
  apply List.ext_getElem sized
  intro k below below'
  apply BitVec.eq_of_getLsbD_eq
  intro j inByte
  have bits := same (8 * k + j) (by omega)
  unfold bit at bits
  rw [show (8 * k + j) / 8 = k by omega, show (8 * k + j) % 8 = j by omega,
    List.getD_eq_getElem _ _ below, List.getD_eq_getElem _ _ below'] at bits
  exact bits

theorem bit_take (data : List Byte) (n i : Nat) :
    bit (data.take n) i = (decide (i / 8 < n) && bit data i) := by
  unfold bit
  by_cases kept : i / 8 < n
  · simp [kept, List.getD_eq_getElem?_getD]
  · rw [List.getD_eq_default _ _ (by rw [List.length_take]; omega)]
    simp [kept]

theorem bit_drop (data : List Byte) (n i : Nat) : bit (data.drop n) i = bit data (8 * n + i) := by
  unfold bit
  rw [show (8 * n + i) / 8 = n + i / 8 by omega, show (8 * n + i) % 8 = i % 8 by omega]
  simp [List.getD_eq_getElem?_getD, List.getElem?_drop]

theorem bit_takeD (data : List Byte) {n i : Nat} (taken : i < 8 * n) :
    bit (data.takeD n 0) i = bit data i := by
  unfold bit
  rw [Lists.getD_takeD _ _ _ (by omega)]

theorem bit_zeros (n i : Nat) : bit (List.replicate n 0) i = false := by
  unfold bit
  by_cases inside : i / 8 < n
  · rw [List.getD_replicate _ inside]
    exact BitVec.getLsbD_zero
  · rw [List.getD_eq_default _ _ (by simpa using inside)]
    exact BitVec.getLsbD_zero

def memcpy (data : List Byte) (start : Nat) (source : List Byte) : List Byte :=
  data.mapIdx fun i old => if start ≤ i then source.getD (i - start) old else old

@[simp] theorem memcpy_length (data : List Byte) (start : Nat) (source : List Byte) :
    (memcpy data start source).length = data.length := by
  simp [memcpy]

theorem bit_memcpy {data source : List Byte} {start i : Nat} (inside : i < 8 * data.length) :
    bit (memcpy data start source) i =
      if 8 * start ≤ i ∧ i < 8 * start + 8 * source.length then bit source (i - 8 * start)
      else bit data i := by
  have below : i / 8 < data.length := by omega
  unfold bit memcpy
  rw [List.getD_eq_getElem _ _ (by simpa using below), List.getElem_mapIdx,
    List.getD_eq_getElem data _ below]
  by_cases after : start ≤ i / 8
  · rw [if_pos after]
    by_cases written : i / 8 - start < source.length
    · rw [if_pos (by omega), List.getD_eq_getElem _ _ written,
        show (i - 8 * start) / 8 = i / 8 - start by omega,
        show (i - 8 * start) % 8 = i % 8 by omega, List.getD_eq_getElem _ _ written]
    · rw [if_neg (by omega), List.getD_eq_default _ _ (by omega)]
  · rw [if_neg after, if_neg (by omega)]

def assignBit (byte : Byte) (k : Nat) (val : Bool) : Byte :=
  if val then byte ||| 1#8 <<< k else byte &&& ~~~(1#8 <<< k)

theorem getLsbD_mask (k : Nat) {j : Nat} (inByte : j < 8) :
    (1#8 <<< k).getLsbD j = decide (j = k) := by
  rw [BitVec.getLsbD_shiftLeft, BitVec.getLsbD_one]
  by_cases less : j < k
  · simp [less, Nat.ne_of_lt less]
  · by_cases same : j = k
    · subst same
      simp [inByte]
    · have apart : ¬j - k = 0 := by omega
      simp [apart, same]

theorem getLsbD_assignBit (byte : Byte) (k : Nat) (val : Bool) {j : Nat} (inByte : j < 8) :
    (assignBit byte k val).getLsbD j = if j = k then val else byte.getLsbD j := by
  have mask := getLsbD_mask k inByte
  unfold assignBit
  cases val
  · simp only [Bool.false_eq_true, if_false, BitVec.getLsbD_and, BitVec.getLsbD_not, mask, inByte]
    by_cases same : j = k <;> simp [same]
  · simp only [if_true, BitVec.getLsbD_or, mask]
    by_cases same : j = k <;> simp [same]

def setBit (data : List Byte) (i : Nat) (val : Bool) : List Byte :=
  data.set (i / 8) (assignBit (data.getD (i / 8) 0) (i % 8) val)

@[simp] theorem setBit_length (data : List Byte) (i : Nat) (val : Bool) :
    (setBit data i val).length = data.length := by
  simp [setBit]

theorem bit_setBit {data : List Byte} {i : Nat} (inside : i < 8 * data.length) (val : Bool)
    (j : Nat) : bit (setBit data i val) j = if j = i then val else bit data j := by
  have below : i / 8 < data.length := by omega
  unfold bit setBit
  by_cases sameByte : j / 8 = i / 8
  · rw [sameByte, List.getD_eq_getElem _ _ (by simpa using below), List.getElem_set_self,
      getLsbD_assignBit _ _ _ (Nat.mod_lt _ (by decide))]
    have position : j % 8 = i % 8 ↔ j = i := by omega
    simp only [position]
  · have other : j ≠ i := fun same => sameByte (by rw [same])
    rw [if_neg other, List.getD_eq_getElem?_getD, List.getElem?_set_ne (Ne.symm sameByte),
      ← List.getD_eq_getElem?_getD]

def xorPrefix (n : Nat) (data other : List Byte) : List Byte :=
  data.mapIdx fun i old => if i < n then old ^^^ other.getD i 0 else old

@[simp] theorem xorPrefix_length (n : Nat) (data other : List Byte) :
    (xorPrefix n data other).length = data.length := by
  simp [xorPrefix]

theorem bit_xorPrefix {n : Nat} {data other : List Byte} {i : Nat} (inside : i < 8 * data.length)
    (combined : i < 8 * n) : bit (xorPrefix n data other) i = (bit data i ^^ bit other i) := by
  have below : i / 8 < data.length := by omega
  unfold bit xorPrefix
  rw [List.getD_eq_getElem _ _ (by simpa using below), List.getElem_mapIdx, if_pos (by omega),
    List.getD_eq_getElem data _ below, BitVec.getLsbD_xor]

def andPrefix (n : Nat) (data other : List Byte) : List Byte :=
  data.mapIdx fun i old => if i < n then old &&& other.getD i 0 else old

@[simp] theorem andPrefix_length (n : Nat) (data other : List Byte) :
    (andPrefix n data other).length = data.length := by
  simp [andPrefix]

theorem bit_andPrefix {n : Nat} {data other : List Byte} {i : Nat} (inside : i < 8 * data.length)
    (combined : i < 8 * n) : bit (andPrefix n data other) i = (bit data i && bit other i) := by
  have below : i / 8 < data.length := by omega
  unfold bit andPrefix
  rw [List.getD_eq_getElem _ _ (by simpa using below), List.getElem_mapIdx, if_pos (by omega),
    List.getD_eq_getElem data _ below, BitVec.getLsbD_and]

def parity (data : List Byte) (n : Nat) : Bool :=
  (List.range n).foldl (fun acc i => acc ^^ bit data i) false

theorem parity_succ (data : List Byte) (n : Nat) :
    parity data (n + 1) = (parity data n ^^ bit data n) := by
  rw [parity, List.range_succ, List.foldl_append]
  rfl

theorem parity_add (data : List Byte) (k : Nat) {n : Nat} (inByte : n ≤ 8) :
    parity data (8 * k + n) =
      (List.range n).foldl (fun acc i => acc ^^ (data.getD k 0).getLsbD i)
        (parity data (8 * k)) := by
  induction n with
  | zero => rfl
  | succ n ih =>
    have byte : (8 * k + n) / 8 = k := by omega
    have position : (8 * k + n) % 8 = n := by omega
    rw [List.range_succ, List.foldl_append, ← ih (by omega), ← Nat.add_assoc, parity_succ,
      bit, byte, position]
    rfl

/-- The lowest `k` bytes of a number, lowest first. -/
def littleEndian : Nat → Nat → List Byte
  | 0, _ => []
  | k + 1, n => BitVec.ofNat 8 n :: littleEndian k (n / 256)

def ofLittleEndian (bytes : List Byte) : Nat :=
  bytes.foldr (fun byte n => byte.toNat + 256 * n) 0

@[simp] theorem littleEndian_length (k n : Nat) : (littleEndian k n).length = k := by
  induction k generalizing n with
  | zero => rfl
  | succ k ih => rw [littleEndian, List.length_cons, ih]

theorem ofLittleEndian_littleEndian (k n : Nat) :
    ofLittleEndian (littleEndian k n) = n % 256 ^ k := by
  induction k generalizing n with
  | zero => rw [Nat.pow_zero, Nat.mod_one]; rfl
  | succ k ih =>
    calc ofLittleEndian (littleEndian (k + 1) n)
        = n % 256 + 256 * ofLittleEndian (littleEndian k (n / 256)) := rfl
      _ = n % 256 + 256 * (n / 256 % 256 ^ k) := by rw [ih]
      _ = n % 256 ^ (k + 1) := by rw [Nat.pow_succ', Nat.mod_mul]

theorem littleEndian_ofLittleEndian (bytes : List Byte) :
    littleEndian bytes.length (ofLittleEndian bytes) = bytes := by
  induction bytes with
  | nil => rfl
  | cons byte bytes ih =>
    have low := byte.isLt
    have value : ofLittleEndian (byte :: bytes) = byte.toNat + 256 * ofLittleEndian bytes := rfl
    have head : BitVec.ofNat 8 (byte.toNat + 256 * ofLittleEndian bytes) = byte := by
      apply BitVec.eq_of_toNat_eq
      rw [BitVec.toNat_ofNat]
      omega
    have tail : (byte.toNat + 256 * ofLittleEndian bytes) / 256 = ofLittleEndian bytes := by omega
    rw [List.length_cons, littleEndian, value, head, tail, ih]

end Bytes
