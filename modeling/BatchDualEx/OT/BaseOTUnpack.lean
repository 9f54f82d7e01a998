import BatchDualEx.Common.ByteStreamMemory
import BatchDualEx.OT.BaseOT

/- What `unpack` reads of a base-OT message that the other party may have chosen freely, with the
   stream as it stands in memory. -/
namespace BatchDualEx

open Bytes Memory

namespace ByteStreamMembers

def unpackBig (s : ByteStreamMembers) : Outcome ByteStreamMembers (List Byte) := s.getBytes 50

/-- The unpack throws, or what it copies fits into `data` and comes from the bytes between the
    heads, and the heads stay in order. -/
def Contained (s : ByteStreamMembers) : Prop :=
  s.unpackBig.Ends
    (fun t x => x.length ≤ 50 ∧ t.mReadHead ≤ t.mWriteHead ∧
      ∃ start, s.mReadHead ≤ start ∧ start + x.length ≤ s.mWriteHead ∧ x = s.slice start x.length)
    (fun _ => True)

/-- The first `k` numbers that are unpacked. A point has two of them; the sender's loop unpacks two
    points for every transfer and the receiver's loop four. -/
def EachUnpack : Nat → ByteStreamMembers → Prop
  | 0, _ => True
  | k + 1, s => s.Contained ∧ ∀ t x, s.unpackBig = .returned t x → EachUnpack k t

def Records : Nat → List Byte → Prop
  | 0, _ => True
  | k + 1, bytes => ∃ x rest, x.length ≤ 50 ∧ bytes = ByteStream.stored x ++ rest ∧ Records k rest

variable {a : Allocator} {s t : ByteStreamMembers} {v w : ByteStream}

theorem contained_iff (valid : s.Valid) : s.Contained ↔ GetSafe s 50 := by
  have below := valid.writeHead
  have read := valid.readHead
  have allocated := valid.allocated
  constructor
  · intro contained
    unfold Contained unpackBig getBytes at contained
    split at contained
    · split at contained
      · exact contained.elim
      · rename_i length decoded
        simp only at contained
        split at contained
        · rename_i inside
          obtain ⟨-, heads, -⟩ := contained
          have small : length < 2 ^ 31 := by
            unfold decodeU32 at decoded
            simp only at decoded
            split at decoded
            · cases decoded
            · cases decoded
              omega
          change ((s.mReadHead + 4) % 2 ^ 64 + length) % 2 ^ 64 ≤ s.mWriteHead at heads
          exact ⟨by omega, length, decoded, by omega, inside.2⟩
        · exact contained.elim
    · exact contained.elim
  · intro ⟨_, length, decoded, body, fits⟩
    unfold Contained unpackBig
    rw [getBytes_eq valid decoded body fits]
    have sized : (s.slice (s.mReadHead + 4) length).length = length := valid.slice_length (by omega)
    refine ⟨by omega, body, s.mReadHead + 4, Nat.le_add_right _ _, by omega, ?_⟩
    rw [sized]

theorem getSafe_iff (holds : s.Holds v) (space : Nat) (few : space < 2 ^ 31) :
    GetSafe s space ↔ ∃ x rest, x.length ≤ space ∧ v.unread = ByteStream.stored x ++ rest := by
  obtain ⟨valid, written, readHead⟩ := holds
  have length := Holds.unread_length ⟨valid, written, readHead⟩
  have read := valid.readHead
  have unread : v.unread = s.written.drop s.mReadHead := by
    rw [written, readHead]
    rfl
  constructor
  · intro ⟨header, l, decoded, body, fits⟩
    rw [slice_written header, ← unread] at decoded
    obtain ⟨encoded, -⟩ := decodeU32_ok (by rw [List.length_take]; omega) decoded
    have taken : ((v.unread.drop 4).take l).length = l := by
      rw [List.length_take, List.length_drop]
      omega
    refine ⟨(v.unread.drop 4).take l, (v.unread.drop 4).drop l, taken.symm ▸ fits, ?_⟩
    unfold ByteStream.stored
    rw [taken, ← encoded, List.append_assoc, List.take_append_drop, List.take_append_drop]
  · intro ⟨x, rest, fits, ahead⟩
    have sized := congrArg List.length ahead
    rw [length, List.length_append, ByteStream.stored_length] at sized
    have header : s.mReadHead + 4 ≤ s.mWriteHead := by omega
    refine ⟨header, x.length, ?_, by omega, fits⟩
    have first : (ByteStream.stored x ++ rest).take 4 = encodeU32 x.length := by
      unfold ByteStream.stored
      rw [List.append_assoc, List.take_left' (encodeU32_length _)]
    rw [slice_written header, ← unread, ahead, first]
    exact decodeU32_encodeU32 (by omega)

theorem unpackBig_stored (holds : s.Holds v) {x rest : List Byte} (fits : x.length ≤ 50)
    (ahead : v.unread = ByteStream.stored x ++ rest) :
    ∃ t w, s.unpackBig = .returned t x ∧ t.Holds w ∧ w.unread = rest := by
  obtain ⟨w, run, left⟩ := ByteStream.getBytes_stored (by omega) ahead
  obtain ⟨head, got, holds'⟩ := getBytes_holds holds run fits
  exact ⟨_, w, got, holds', left⟩

theorem eachUnpack_iff (k : Nat) (holds : s.Holds v) : s.EachUnpack k ↔ Records k v.unread := by
  induction k generalizing s v with
  | zero => exact Iff.rfl
  | succ k ih =>
    constructor
    · intro ⟨contained, later⟩
      obtain ⟨x, rest, fits, ahead⟩ := (getSafe_iff holds 50 (by decide)).mp
        ((contained_iff holds.1).mp contained)
      obtain ⟨t, w, run, holds', left⟩ := unpackBig_stored holds fits ahead
      exact ⟨x, rest, fits, ahead, left ▸ (ih holds').mp (later t x run)⟩
    · intro ⟨x, rest, fits, ahead, more⟩
      obtain ⟨t, w, run, holds', left⟩ := unpackBig_stored holds fits ahead
      constructor
      · rw [contained_iff holds.1, getSafe_iff holds 50 (by decide)]
        exact ⟨x, rest, fits, ahead⟩
      · intro t' x' run'
        cases run.symm.trans run'
        exact (ih holds').mpr (left ▸ more)

/-- The unpacks that the protocol's own model lets pass are those that stay inside. -/
theorem unpackBig_ok_iff {P : Type} (M : Miracl P) (holds : s.Holds v) :
    (∃ r, M.unpackBig v = .ok r) ↔ s.Contained := by
  rw [contained_iff holds.1, getSafe_iff holds 50 (by decide)]
  constructor
  · intro ⟨r, run⟩
    obtain ⟨⟨x, w⟩, got, run⟩ := Result.bind_ok run
    obtain ⟨fits, -⟩ := Result.then_ok_iff.mp run
    exact ⟨x, w.unread, Result.require_ok_iff.mp fits, ByteStream.getBytes_ok got⟩
  · intro ⟨x, rest, fits, ahead⟩
    obtain ⟨w, got, -⟩ := ByteStream.getBytes_stored (by omega) ahead
    refine ⟨(M.fromBinary x, w), ?_⟩
    unfold Miracl.unpackBig
    rw [got]
    exact Result.then_ok_iff.mpr ⟨Result.require_ok_iff.mpr fits, rfl⟩

theorem receiveSafe_of_returned (valid : s.Valid) {message : List Byte} {u : Unit}
    (received : s.receive a message = .returned t u) : ReceiveSafe a s message.length := by
  have allocated := valid.allocated
  unfold receive at received
  by_cases short : s.mxlen < message.length
  · rw [if_pos short] at received
    obtain ⟨data, live, -⟩ := valid.buffer
    by_cases granted : a.Allocates (message.length * 2 % 2 ^ 64)
    · rw [reallocate_eq (by rw [live]; rfl) granted, Outcome.bind_returned] at received
      split at received
      · rename_i inside
        have room : message.length ≤ message.length * 2 % 2 ^ 64 := by
          rcases inside with none | ⟨data', live', enough⟩
          · omega
          · cases live'
            rwa [Allocator.bytes_length, Nat.zero_add] at enough
        have few := granted.1
        exact ⟨by omega, .inr granted⟩
      · cases received
    · unfold reallocate at received
      rw [if_pos (by rw [live]; rfl), if_neg granted] at received
      cases received
  · exact ⟨by omega, .inl (Nat.not_lt.mp short)⟩

/-- The unpacks of a message stay inside exactly when it starts with that many strings of at most
    50 bytes, each behind its length. -/
theorem unpack_iff {strm1 : ByteStreamMembers} (valid : strm1.Valid) {message : List Byte}
    (received : strm1.receive a message = .returned s ()) (k : Nat) :
    s.EachUnpack k ↔ Records k message := by
  have holds := receive_holds valid (receiveSafe_of_returned valid received)
  rw [received] at holds
  exact eachUnpack_iff k holds

/-- Two numbers of one byte each. -/
theorem unpack_iff_two_bytes :
    EachUnpack 2 ⟨10, 10, 0, some [1, 0, 0, 0, 7, 1, 0, 0, 0, 8]⟩ ↔
      Records 2 [1, 0, 0, 0, 7, 1, 0, 0, 0, 8] :=
  unpack_iff (a := zeros) (show Valid ⟨0, 10, 0, some (List.replicate 10 0)⟩ from
    ⟨⟨_, rfl, rfl⟩, by decide, by decide, by decide⟩) (by decide) 2

/-- A length of 51 writes over the end of `data`, and a length of 5 with one byte behind it reads
    what the stream held before the message. -/
theorem unpack_overruns :
    (∃ s, null.receive zeros (51 :: List.replicate 54 0) = .returned s () ∧
      s.unpackBig = .undefined ∧ ¬s.Contained) ∧
    ∃ s t, receive zeros ⟨9, 9, 9, some [9, 9, 9, 9, 9, 2, 3, 4, 5]⟩ [5, 0, 0, 0, 1] =
        .returned s () ∧
      s.unpackBig = .returned t [1, 2, 3, 4, 5] ∧ t.mWriteHead < t.mReadHead := by
  constructor
  · have overrun : unpackBig ⟨55, 110, 0, some (51 :: List.replicate 109 0)⟩ = .undefined := by
      decide
    exact ⟨_, by decide +kernel, overrun, fun contained => contained.defined overrun⟩
  · refine ⟨⟨5, 9, 0, some [5, 0, 0, 0, 1, 2, 3, 4, 5]⟩,
      ⟨5, 9, 9, some [5, 0, 0, 0, 1, 2, 3, 4, 5]⟩, ?_, ?_, ?_⟩ <;> decide

end ByteStreamMembers

end BatchDualEx
