import BatchDualEx.Lib.Bytes
import Mathlib.Algebra.GroupWithZero.Nat

/- Buffers of bytes on the heap: what may be read and written in them, and how they are requested.
   A deleted buffer is `none`; the null pointer is an empty buffer. -/
namespace Memory

open Bytes

/-- How requests for `n` bytes are met: not at all, or with bytes of any content. -/
structure Allocator where
  grants : Nat → Bool
  fresh : Nat → Nat → Byte

/-- The requests that `new u8[n]` meets; from `2^63` bytes on it always throws. -/
def Allocator.Allocates (a : Allocator) (n : Nat) : Prop := n < 2 ^ 63 ∧ a.grants n = true

instance (a : Allocator) (n : Nat) : Decidable (a.Allocates n) :=
  inferInstanceAs (Decidable (_ ∧ _))

def Allocator.bytes (a : Allocator) (n : Nat) : List Byte := (List.range n).map (a.fresh n)

@[simp] theorem Allocator.bytes_length (a : Allocator) (n : Nat) : (a.bytes n).length = n := by
  simp [bytes]

def zeros : Allocator := ⟨fun _ => true, fun _ _ => 0⟩

theorem zeros_allocates {n : Nat} (few : n < 2 ^ 63) : zeros.Allocates n := ⟨few, rfl⟩

/-- The buffer that a pointer handed to a method points to: one apart from the object, or the buffer
    that the object itself has when the method is called. -/
inductive Source where
  | other (buffer : Option (List Byte))
  | own

def Source.read (source : Source) (moved : Bool) (current : Option (List Byte)) :
    Option (List Byte) :=
  match source with
  | other buffer => buffer
  | own => if moved then none else current

def Within (buffer : Option (List Byte)) (start n : Nat) : Prop :=
  n = 0 ∨ ∃ data ∈ buffer, start + n ≤ data.length

instance (buffer : Option (List Byte)) (start n : Nat) : Decidable (Within buffer start n) :=
  match buffer with
  | none => decidable_of_iff (n = 0) (by simp [Within])
  | some data => decidable_of_iff (n = 0 ∨ start + n ≤ data.length) (by simp [Within])

theorem within_some {data : List Byte} {start n : Nat} (inside : start + n ≤ data.length) :
    Within (some data) start n := .inr ⟨data, rfl, inside⟩

def memcpyBuffer (dest source : Option (List Byte)) (start first n : Nat) : Option (List Byte) :=
  dest.map fun data => memcpy data start (((source.getD []).drop first).take n)

@[simp] theorem memcpyBuffer_some (data : List Byte) (source : Option (List Byte))
    (start first n : Nat) : memcpyBuffer (some data) source start first n =
      some (memcpy data start (((source.getD []).drop first).take n)) := rfl

theorem memcpy_zeros {bytes : List Byte} {n : Nat} (room : bytes.length ≤ n) :
    memcpy (List.replicate n 0) 0 bytes = bytes ++ List.replicate (n - bytes.length) 0 := by
  have sized : n = bytes.length + (n - bytes.length) := by omega
  apply ext_bits
  · simp only [memcpy_length, List.length_append, List.length_replicate]
    exact sized
  · intro i inside
    rw [memcpy_length] at inside
    rw [bit_memcpy inside]
    unfold bit
    split
    · rw [List.getD_append _ _ _ _ (by omega)]
      rfl
    · rw [List.getD_append_right _ _ _ _ (by omega)]
      rw [List.length_replicate] at inside
      rw [List.getD_replicate _ (by omega), List.getD_replicate _ (by omega)]

theorem take_memcpy {data source : List Byte} {start : Nat}
    (room : start + source.length ≤ data.length) :
    (memcpy data start source).take (start + source.length) = data.take start ++ source := by
  apply List.ext_getElem
  · rw [List.length_take, memcpy_length, List.length_append, List.length_take]
    omega
  · intro i below _
    rw [List.length_take, memcpy_length] at below
    simp only [List.getElem_take, memcpy, List.getElem_mapIdx]
    by_cases before : i < start
    · rw [if_neg (by omega), List.getElem_append_left (by rw [List.length_take]; omega),
        List.getElem_take]
    · rw [if_pos (by omega), List.getElem_append_right (by rw [List.length_take]; omega),
        List.getD_eq_getElem _ _ (by omega)]
      simp only [List.length_take]
      congr 1
      omega

end Memory
