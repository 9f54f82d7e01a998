import BatchDualEx.Common.BitVector

/- One message of a `BtChannel`: what the sender hands to the socket after the header, and what
   the receiver accepts. -/
namespace BatchDualEx

open Bytes

def u32 (size : Nat) : Nat := size % 4294967296

theorem u32_small {size : Nat} (small : size < 2 ^ 32) : u32 size = size := Nat.mod_eq_of_lt small

namespace BtChannel

/-- `asyncSend` of a buffer. `dispatch` refuses an empty operation. -/
def asyncSend (data : List Byte) : Except Fault (List Byte) :=
  if u32 data.length = 0 then .error (.thrown "rt error")
  else .ok (data.take (u32 data.length))

def recv (dest message : List Byte) : Except Fault (List Byte) :=
  if u32 dest.length = 0 then .error (.thrown "rt error")
  else if u32 dest.length ≠ message.length then .error (.thrown "BadReceiveBufferSize")
  else .ok (memcpy dest 0 message)

theorem asyncSend_ok {data sent : List Byte} (run : asyncSend data = .ok sent) :
    u32 data.length ≠ 0 ∧ sent = data.take (u32 data.length) := by
  unfold asyncSend at run
  split at run
  · cases run
  · rename_i some
    cases run
    exact ⟨some, rfl⟩

theorem asyncSend_small {data : List Byte} (some : data ≠ []) (small : data.length < 2 ^ 32) :
    asyncSend data = .ok data := by
  have positive := List.length_pos_iff.mpr some
  rw [asyncSend, u32_small small, if_neg (by omega), List.take_length]

theorem memcpy_all {dest message : List Byte} (sized : message.length = dest.length) :
    memcpy dest 0 message = message := by
  apply ext_bits (by rw [memcpy_length, sized])
  intro i inside
  rw [memcpy_length] at inside
  rw [bit_memcpy inside, if_pos (by omega), Nat.mul_zero, Nat.sub_zero]

theorem recv_small {dest message : List Byte} (some : message ≠ [])
    (sized : message.length = dest.length) (small : dest.length < 2 ^ 32) :
    recv dest message = .ok message := by
  have positive := List.length_pos_iff.mpr some
  rw [recv, u32_small small, if_neg (by omega), if_neg (by omega), memcpy_all sized]

theorem recv_drop {dest message data : List Byte} (run : recv dest message = .ok data) :
    message.length = u32 dest.length ∧ data.drop message.length = dest.drop message.length := by
  unfold recv at run
  split at run
  · cases run
  · split at run
    · cases run
    · rename_i sized
      cases run
      refine ⟨(not_not.mp sized).symm, ?_⟩
      apply List.ext_getElem (by simp)
      intro i inside _
      rw [List.getElem_drop, List.getElem_drop]
      simp [memcpy]

end BtChannel

end BatchDualEx
