import BatchDualEx.Common.ByteStream
import BatchDualEx.Lib.Memory
import BatchDualEx.Lib.Outcome
import BatchDualEx.Lib.Run
import Mathlib.Data.Fintype.Basic

/- `ByteStream` with its members as they stand in memory: an allocation of `mxlen` bytes, in which
   what lies behind the write head is left over from before, and two heads that the operations move
   by themselves. -/
namespace BatchDualEx

open Bytes Memory

/-- A deleted buffer is `none`. -/
structure ByteStreamMembers where
  mWriteHead : Nat
  mxlen : Nat
  mReadHead : Nat
  mData : Option (List Byte)
  deriving DecidableEq

namespace ByteStreamMembers

def null : ByteStreamMembers := ⟨0, 0, 0, some []⟩

def slice (s : ByteStreamMembers) (start n : Nat) : List Byte :=
  ((s.mData.getD []).drop start).take n

def written (s : ByteStreamMembers) : List Byte := s.slice 0 s.mWriteHead

def construct (a : Allocator) (maxlen : Nat) : Outcome ByteStreamMembers Unit :=
  if maxlen = 0 then .returned null ()
  else if a.Allocates maxlen then .returned ⟨0, maxlen, 0, some (a.bytes maxlen)⟩ ()
  else .thrown null

/-- The capacity grows already at equality. -/
def reserve (a : Allocator) (s : ByteStreamMembers) (l : Nat) : Outcome ByteStreamMembers Unit :=
  if l < s.mxlen then .returned s ()
  else
    let l := 2 * l % 2 ^ 64
    if a.Allocates l then
      if Within s.mData 0 s.mWriteHead ∧ s.mWriteHead ≤ l ∧ s.mData.isSome then
        .returned
          { s with
            mData := memcpyBuffer (some (a.bytes l)) s.mData 0 0 s.mWriteHead
            mxlen := l } ()
      else .undefined
    else .thrown s

def write (s : ByteStreamMembers) (x : Option (List Byte)) (l : Nat) :
    Outcome ByteStreamMembers Unit :=
  if Within s.mData s.mWriteHead l ∧ Within x 0 l then
    .returned
      { s with
        mData := memcpyBuffer s.mData x s.mWriteHead 0 l
        mWriteHead := (s.mWriteHead + l) % 2 ^ 64 } ()
  else .undefined

def append (a : Allocator) (s : ByteStreamMembers) (x : List Byte) (l : Nat) :
    Outcome ByteStreamMembers Unit :=
  (s.reserve a ((s.mWriteHead + l) % 2 ^ 64)).bind fun t _ => t.write (some x) l

/-- `os.mData` is read after `reserve`. -/
def concat (a : Allocator) (s : ByteStreamMembers) (os : Source) (osWriteHead : Nat) :
    Outcome ByteStreamMembers Unit :=
  (s.reserve a ((s.mWriteHead + osWriteHead) % 2 ^ 64)).bind fun t _ =>
    t.write (os.read false t.mData) osWriteHead

def storeBytes (a : Allocator) (s : ByteStreamMembers) (x : List Byte) (l : Nat) :
    Outcome ByteStreamMembers Unit :=
  (s.reserve a ((s.mWriteHead + 4 + l) % 2 ^ 64)).bind fun t _ =>
    (t.write (some (encodeU32 l)) 4).bind fun t _ => t.write (some x) l

def setp (s : ByteStreamMembers) (loc : Nat) : Outcome ByteStreamMembers Unit :=
  if s.mxlen < loc then .thrown s
  else .returned { s with mWriteHead := loc, mReadHead := min s.mReadHead loc } ()

def setg (s : ByteStreamMembers) (loc : Nat) : Outcome ByteStreamMembers Unit :=
  if s.mWriteHead < loc then .thrown s else .returned { s with mReadHead := loc } ()

def resize (a : Allocator) (s : ByteStreamMembers) (size : Nat) : Outcome ByteStreamMembers Unit :=
  (s.reserve a size).bind fun t _ => t.setp size

def consume (s : ByteStreamMembers) (l : Nat) : Outcome ByteStreamMembers (List Byte) :=
  if s.mWriteHead < (s.mReadHead + l) % 2 ^ 64 then .thrown s
  else if Within s.mData s.mReadHead l then
    .returned { s with mReadHead := (s.mReadHead + l) % 2 ^ 64 } (s.slice s.mReadHead l)
  else .undefined

/-- `consume(s.data(), l); s.mWriteHead = l` as far as it changes `s`. -/
def fill (s : ByteStreamMembers) (x : List Byte) (l : Nat) : Outcome ByteStreamMembers Unit :=
  if Within s.mData 0 l ∧ Within (some x) 0 l then
    .returned { s with mData := memcpyBuffer s.mData (some x) 0 0 l, mWriteHead := l } ()
  else .undefined

/-- Nothing is checked; the caller has `space` bytes for the answer. -/
def getBytes (s : ByteStreamMembers) (space : Nat) : Outcome ByteStreamMembers (List Byte) :=
  if Within s.mData s.mReadHead 4 then
    match decodeU32 (s.slice s.mReadHead 4) with
    | .error _ => .undefined
    | .ok length =>
      let mReadHead := (s.mReadHead + 4) % 2 ^ 64
      if Within s.mData mReadHead length ∧ length ≤ space then
        .returned { s with mReadHead := (mReadHead + length) % 2 ^ 64 } (s.slice mReadHead length)
      else .undefined
  else .undefined

/-- The old buffer is deleted and `mxlen` set before the new one is requested. -/
def reallocate (a : Allocator) (s : ByteStreamMembers) (mxlen : Nat) :
    Outcome ByteStreamMembers Unit :=
  if s.mData.isSome then
    if a.Allocates mxlen then .returned { s with mxlen, mData := some (a.bytes mxlen) } ()
    else .thrown { s with mxlen, mData := if s.mData = some [] then some [] else none }
  else .undefined

def assign (a : Allocator) (s : ByteStreamMembers) (os : ByteStreamMembers) (osData : Source) :
    Outcome ByteStreamMembers Unit :=
  (if s.mxlen ≤ os.mWriteHead then s.reallocate a os.mxlen else .returned s ()).bind fun t _ =>
    let source := osData.read false t.mData
    if Within t.mData 0 os.mWriteHead ∧ Within source 0 os.mWriteHead then
      .returned
        { t with
          mData := memcpyBuffer t.mData source 0 0 os.mWriteHead
          mWriteHead := os.mWriteHead
          mReadHead := os.mReadHead } ()
    else .undefined

def constructCopy (a : Allocator) (os : ByteStreamMembers) : Outcome ByteStreamMembers Unit :=
  if a.Allocates os.mxlen then
    if Within os.mData 0 os.mWriteHead ∧ os.mWriteHead ≤ os.mxlen then
      .returned
        { os with mData := memcpyBuffer (some (a.bytes os.mxlen)) os.mData 0 0 os.mWriteHead } ()
    else .undefined
  else .thrown null

/-- `hash(output)`, where the hashed stream has written `size` bytes. The read head of the output
    stays where it is. -/
def hashInto (a : Allocator) (sha1 : List Byte → List Byte) (output : ByteStreamMembers)
    (stream : Source) (size : Nat) : Outcome ByteStreamMembers Unit :=
  (output.reserve a 20).bind fun t _ =>
    let source := stream.read false t.mData
    if Within source 0 size ∧ Within t.mData 0 20 then
      .returned
        { t with
          mData := memcpyBuffer t.mData (some (sha1 ((source.getD []).take size))) 0 0 20
          mWriteHead := 20 } ()
    else .undefined

def hash (a : Allocator) (sha1 : List Byte → List Byte) (s : ByteStreamMembers) :
    Outcome ByteStreamMembers Unit :=
  (construct a 20).bind fun h _ => h.hashInto a sha1 (.other s.mData) s.mWriteHead

/-- A message from the channel: `ChannelBufferResize`, and then the bytes are read into
    `ChannelBufferData()`. -/
def receive (a : Allocator) (s : ByteStreamMembers) (message : List Byte) :
    Outcome ByteStreamMembers Unit :=
  (if s.mxlen < message.length then s.reallocate a (message.length * 2 % 2 ^ 64)
    else .returned s ()).bind fun t _ =>
    if Within t.mData 0 message.length then
      .returned
        { t with
          mData := memcpyBuffer t.mData (some message) 0 0 message.length
          mWriteHead := message.length
          mReadHead := 0 } ()
    else .undefined

/-- The allocation has the size that `mxlen` says, and the heads stand in it in their order. -/
structure Valid (s : ByteStreamMembers) : Prop where
  buffer : ∃ data, s.mData = some data ∧ data.length = s.mxlen
  allocated : s.mxlen < 2 ^ 63
  readHead : s.mReadHead ≤ s.mWriteHead
  writeHead : s.mWriteHead ≤ s.mxlen

theorem null_valid : null.Valid := ⟨⟨[], rfl, rfl⟩, by decide, by decide, by decide⟩

def Unchanged (s t : ByteStreamMembers) : Prop :=
  t.mWriteHead = s.mWriteHead ∧ t.mReadHead = s.mReadHead ∧ t.written = s.written

theorem Unchanged.refl (s : ByteStreamMembers) : Unchanged s s := ⟨rfl, rfl, rfl⟩

theorem Unchanged.trans {s t u : ByteStreamMembers} (first : Unchanged s t)
    (later : Unchanged t u) : Unchanged s u :=
  ⟨later.1.trans first.1, later.2.1.trans first.2.1, later.2.2.trans first.2.2⟩

variable {a : Allocator} {s t : ByteStreamMembers}

theorem Valid.written_length (valid : s.Valid) : s.written.length = s.mWriteHead := by
  obtain ⟨data, live, sized⟩ := valid.buffer
  have below := valid.writeHead
  unfold written slice
  rw [live, Option.getD_some, List.drop_zero, List.length_take]
  omega

def capacity (s : ByteStreamMembers) (l : Nat) : Nat :=
  if l < s.mxlen then s.mxlen else 2 * l % 2 ^ 64

theorem le_capacity {l : Nat} (small : l < 2 ^ 63) :
    l ≤ s.capacity l ∧ s.mxlen ≤ s.capacity l := by
  unfold capacity
  split <;> omega

def Refused (a : Allocator) (s : ByteStreamMembers) (l : Nat) : Prop :=
  s.mxlen ≤ l ∧ ¬a.Allocates (2 * l % 2 ^ 64)

/-- The sizes for which `reserve` throws, has the room, or doubles to enough for what is written. -/
def ReserveSafe (a : Allocator) (s : ByteStreamMembers) (l : Nat) : Prop :=
  l < s.mxlen ∨ Refused a s l ∨ s.mWriteHead ≤ 2 * l % 2 ^ 64

theorem reserve_ends (valid : s.Valid) {l : Nat} (safe : ReserveSafe a s l) :
    (s.reserve a l).Ends
      (fun t _ => t.Valid ∧ Unchanged s t ∧ ¬Refused a s l ∧ t.mxlen = s.capacity l)
      (fun t => t = s ∧ Refused a s l) := by
  obtain ⟨data, live, sized⟩ := valid.buffer
  have below := valid.writeHead
  unfold reserve capacity
  by_cases enough : l < s.mxlen
  · rw [if_pos enough, if_pos enough]
    refine ⟨valid, .refl s, fun refused => ?_, rfl⟩
    exact absurd refused.1 (by omega)
  · rw [if_neg enough, if_neg enough]
    by_cases granted : a.Allocates (2 * l % 2 ^ 64)
    · have doubled : s.mWriteHead ≤ 2 * l % 2 ^ 64 := by
        rcases safe with room | refused | doubled
        · exact absurd room enough
        · exact absurd granted refused.2
        · exact doubled
      have inside : Within s.mData 0 s.mWriteHead ∧ s.mWriteHead ≤ 2 * l % 2 ^ 64 ∧
          s.mData.isSome := by
        rw [live]
        exact ⟨within_some (by omega), doubled, rfl⟩
      simp only [if_pos granted, if_pos inside]
      refine ⟨⟨⟨_, rfl, ?_⟩, granted.1, valid.readHead, doubled⟩, ⟨rfl, rfl, ?_⟩, ?_, rfl⟩
      · rw [memcpy_length, Allocator.bytes_length]
      · have copied : ((s.mData.getD []).take s.mWriteHead).length = s.mWriteHead :=
          valid.written_length
        have room : 0 + ((s.mData.getD []).take s.mWriteHead).length ≤
            (a.bytes (2 * l % 2 ^ 64)).length := by
          rw [copied, Allocator.bytes_length]
          omega
        have kept := take_memcpy room
        rw [copied, Nat.zero_add] at kept
        exact kept
      · intro refused
        exact refused.2 granted
    · rw [if_neg granted]
      exact ⟨rfl, by omega, granted⟩

/-- The sizes for which there is room behind the write head after `reserve`. -/
def GrowSafe (a : Allocator) (s : ByteStreamMembers) (l : Nat) : Prop :=
  s.mWriteHead + l < 2 ^ 63 ∨
    s.mWriteHead + l < 2 ^ 64 ∧ ¬a.Allocates (2 * (s.mWriteHead + l) % 2 ^ 64)

theorem grow_ends (valid : s.Valid) {l : Nat} (safe : GrowSafe a s l) :
    (s.reserve a ((s.mWriteHead + l) % 2 ^ 64)).Ends
      (fun t _ => t.Valid ∧ Unchanged s t ∧ s.mWriteHead + l ≤ t.mxlen ∧
        t.mxlen = s.capacity (s.mWriteHead + l))
      (fun t => t = s ∧ Refused a s (s.mWriteHead + l)) := by
  have allocated := valid.allocated
  have unwrapped : (s.mWriteHead + l) % 2 ^ 64 = s.mWriteHead + l := by
    rcases safe with small | ⟨small, -⟩ <;> omega
  have reserved : ReserveSafe a s (s.mWriteHead + l) := by
    by_cases small : s.mWriteHead + l < 2 ^ 63
    · right
      right
      omega
    · have below := valid.writeHead
      exact .inr (.inl ⟨by omega, (safe.resolve_left small).2⟩)
  rw [unwrapped]
  refine (reserve_ends valid reserved).mono ?_ fun _ => id
  intro t _ ⟨valid', same, granted, mxlen⟩
  have small : s.mWriteHead + l < 2 ^ 63 := by
    by_contra large
    exact granted ⟨by omega, (safe.resolve_left large).2⟩
  exact ⟨valid', same, mxlen ▸ (le_capacity small).1, mxlen⟩

structure Appended (s t : ByteStreamMembers) (x : List Byte) : Prop where
  valid : t.Valid
  written : t.written = s.written ++ x
  readHead : t.mReadHead = s.mReadHead

theorem Appended.writeHead {x : List Byte} (appended : Appended s t x) (valid : s.Valid) :
    t.mWriteHead = s.mWriteHead + x.length := by
  rw [← appended.valid.written_length, appended.written, List.length_append, valid.written_length]

theorem write_ends (valid : s.Valid) {x : Option (List Byte)} {l : Nat}
    (room : s.mWriteHead + l ≤ s.mxlen) (source : Within x 0 l) :
    (s.write x l).Ends
      (fun t _ => Appended s t ((x.getD []).take l) ∧ t.mWriteHead = s.mWriteHead + l ∧
        t.mxlen = s.mxlen)
      (fun _ => False) := by
  obtain ⟨data, live, sized⟩ := valid.buffer
  have allocated := valid.allocated
  have read := valid.readHead
  have inside : Within s.mData s.mWriteHead l := by
    rw [live]
    exact within_some (by omega)
  have head : (s.mWriteHead + l) % 2 ^ 64 = s.mWriteHead + l := by omega
  have copied : ((x.getD []).take l).length = l := by
    rcases source with empty | ⟨bytes, held, enough⟩
    · rw [empty, List.take_zero]
      rfl
    · rw [List.length_take, held, Option.getD_some]
      omega
  have fits : s.mWriteHead + ((x.getD []).take l).length ≤ data.length := by omega
  have kept := take_memcpy fits
  rw [copied] at kept
  unfold write
  rw [if_pos ⟨inside, source⟩, head, live, memcpyBuffer_some, List.drop_zero]
  refine ⟨⟨⟨⟨_, rfl, ?_⟩, allocated, ?_, room⟩, ?_, rfl⟩, rfl, rfl⟩
  · rw [memcpy_length]
    exact sized
  · exact le_trans read (Nat.le_add_right _ _)
  · unfold written slice
    rw [live]
    exact kept

theorem append_ends (valid : s.Valid) {x : List Byte} {l : Nat} (safe : GrowSafe a s l)
    (held : l ≤ x.length) :
    (s.append a x l).Ends
      (fun t _ => Appended s t (x.take l) ∧ t.mxlen = s.capacity (s.mWriteHead + l))
      (fun t => t = s ∧ Refused a s (s.mWriteHead + l)) := by
  unfold append
  refine (grow_ends valid safe).bind ?_
  intro t _ ⟨valid', ⟨writeHead, readHead, bytes⟩, room, mxlen⟩
  have source : Within (some x) 0 l := within_some (by omega)
  refine (write_ends valid' (by omega) source).mono ?_ fun _ => False.elim
  intro u _ ⟨filled, _, mxlen'⟩
  exact ⟨⟨filled.valid, bytes ▸ filled.written, filled.readHead.trans readHead⟩, mxlen'.trans mxlen⟩

theorem concat_ends (valid : s.Valid) {os : Source} {size : Nat} (safe : GrowSafe a s size)
    (held : ∀ buffer, os = .other buffer → Within buffer 0 size)
    (self : os = .own → size ≤ s.mWriteHead) :
    (s.concat a os size).Ends (fun t _ => t.Valid) (· = s) := by
  unfold concat
  refine ((grow_ends valid safe).mono (fun _ _ => id) fun _ thrown => thrown.1).bind ?_
  intro t _ ⟨valid', ⟨writeHead, _, _⟩, room, _⟩
  have source : Within (os.read false t.mData) 0 size := by
    cases os with
    | other buffer => exact held buffer rfl
    | own =>
      obtain ⟨data, live, sized⟩ := valid'.buffer
      have enough := self rfl
      have below := valid'.writeHead
      unfold Source.read
      rw [if_neg Bool.false_ne_true, live]
      exact within_some (by omega)
  refine (write_ends valid' (by omega) source).mono ?_ fun _ => False.elim
  intro u _ ⟨filled, _⟩
  exact filled.valid

theorem storeBytes_ends (valid : s.Valid) {x : List Byte} {l : Nat} (safe : GrowSafe a s (4 + l))
    (held : l ≤ x.length) :
    (s.storeBytes a x l).Ends
      (fun t _ => Appended s t (encodeU32 l ++ x.take l) ∧
        t.mxlen = s.capacity (s.mWriteHead + (4 + l)))
      (fun t => t = s ∧ Refused a s (s.mWriteHead + (4 + l))) := by
  unfold storeBytes
  rw [Nat.add_assoc]
  refine (grow_ends valid safe).bind ?_
  intro t _ ⟨valid', ⟨writeHead, readHead, bytes⟩, room, mxlen⟩
  have prefix4 : Within (some (encodeU32 l)) 0 4 := within_some (by rw [encodeU32_length])
  have whole : (encodeU32 l).take 4 = encodeU32 l :=
    List.take_of_length_le (by rw [encodeU32_length])
  refine ((write_ends valid' (by omega) prefix4).mono (fun _ _ => id) fun _ => False.elim).bind ?_
  intro u _ ⟨headed, head, mxlen'⟩
  have source : Within (some x) 0 l := within_some (by omega)
  refine (write_ends headed.valid (by omega) source).mono ?_ fun _ => False.elim
  intro v _ ⟨filled, _, mxlen''⟩
  refine ⟨⟨filled.valid, ?_, ?_⟩, mxlen''.trans (mxlen'.trans mxlen)⟩
  · rw [filled.written, headed.written, bytes, Option.getD_some, whole, Option.getD_some,
      List.append_assoc]
  · rw [filled.readHead, headed.readHead, readHead]

theorem Valid.slice_length (valid : s.Valid) {start n : Nat} (inside : start + n ≤ s.mxlen) :
    (s.slice start n).length = n := by
  obtain ⟨data, live, sized⟩ := valid.buffer
  unfold slice
  rw [live, Option.getD_some, List.length_take, List.length_drop]
  omega

theorem setp_ends (valid : s.Valid) (loc : Nat) :
    (s.setp loc).Ends (fun t _ => t.Valid) (· = s) := by
  unfold setp
  split
  · rfl
  · rename_i room
    exact ⟨valid.buffer, valid.allocated, Nat.min_le_right _ _, Nat.not_lt.mp room⟩

theorem setg_ends (valid : s.Valid) (loc : Nat) :
    (s.setg loc).Ends (fun t _ => t.Valid) (· = s) := by
  unfold setg
  split
  · rfl
  · rename_i below
    exact ⟨valid.buffer, valid.allocated, Nat.not_lt.mp below, valid.writeHead⟩

theorem resize_ends (valid : s.Valid) {size : Nat} (safe : ReserveSafe a s size) :
    (s.resize a size).Ends (fun t _ => t.Valid) (fun t => t.Valid ∧ Unchanged s t) := by
  unfold resize
  refine ((reserve_ends valid safe).mono (fun _ _ => id) ?_).bind ?_
  · intro t thrown
    exact thrown.1.symm ▸ ⟨valid, .refl s⟩
  · intro t _ ⟨valid', same, _⟩
    refine (setp_ends valid' size).mono (fun _ _ => id) ?_
    intro u thrown
    exact thrown.symm ▸ ⟨valid', same⟩

theorem consume_ends (valid : s.Valid) {l : Nat} (safe : s.mReadHead + l < 2 ^ 64) :
    (s.consume l).Ends
      (fun t x => s.mReadHead + l ≤ s.mWriteHead ∧ x = s.slice s.mReadHead l ∧
        t = { s with mReadHead := s.mReadHead + l })
      (fun t => t = s ∧ s.mWriteHead < s.mReadHead + l) := by
  obtain ⟨data, live, sized⟩ := valid.buffer
  have below := valid.writeHead
  unfold consume
  rw [Nat.mod_eq_of_lt safe]
  split
  · rename_i beyond
    exact ⟨rfl, beyond⟩
  · rename_i ahead
    have inside : Within s.mData s.mReadHead l := by
      rw [live]
      exact within_some (by omega)
    rw [if_pos inside]
    exact ⟨Nat.not_lt.mp ahead, rfl, rfl⟩

/-- The record at the read head, with its length before it, lies below the write head, and the
    caller has the space for it. -/
def GetSafe (s : ByteStreamMembers) (space : Nat) : Prop :=
  s.mReadHead + 4 ≤ s.mWriteHead ∧ ∃ length, decodeU32 (s.slice s.mReadHead 4) = .ok length ∧
    s.mReadHead + 4 + length ≤ s.mWriteHead ∧ length ≤ space

theorem getBytes_eq (valid : s.Valid) {space length : Nat}
    (decoded : decodeU32 (s.slice s.mReadHead 4) = .ok length)
    (body : s.mReadHead + 4 + length ≤ s.mWriteHead) (fits : length ≤ space) :
    s.getBytes space =
      .returned { s with mReadHead := s.mReadHead + 4 + length }
        (s.slice (s.mReadHead + 4) length) := by
  obtain ⟨data, live, sized⟩ := valid.buffer
  have below := valid.writeHead
  have allocated := valid.allocated
  have first : Within s.mData s.mReadHead 4 := by
    rw [live]
    exact within_some (by omega)
  have later : Within s.mData (s.mReadHead + 4) length ∧ length ≤ space := by
    rw [live]
    exact ⟨within_some (by omega), fits⟩
  have head : (s.mReadHead + 4) % 2 ^ 64 = s.mReadHead + 4 := by omega
  have last : (s.mReadHead + 4 + length) % 2 ^ 64 = s.mReadHead + 4 + length := by omega
  unfold getBytes
  rw [if_pos first, decoded]
  change (if Within s.mData ((s.mReadHead + 4) % 2 ^ 64) length ∧ length ≤ space then _ else _) = _
  rw [head, if_pos later, last]

theorem Valid.moveRead (valid : s.Valid) {head : Nat} (below : head ≤ s.mWriteHead) :
    Valid { s with mReadHead := head } :=
  ⟨valid.buffer, valid.allocated, below, valid.writeHead⟩

theorem getBytes_ends (valid : s.Valid) {space : Nat} (safe : GetSafe s space) :
    (s.getBytes space).Ends (fun t _ => t.Valid) (fun _ => False) := by
  obtain ⟨-, length, decoded, body, fits⟩ := safe
  rw [getBytes_eq valid decoded body fits]
  exact valid.moveRead body

theorem fill_ends (valid : s.Valid) {x : List Byte} {l : Nat} (room : l ≤ s.mxlen)
    (held : l ≤ x.length) (behind : s.mReadHead ≤ l) :
    (s.fill x l).Ends (fun t _ => t.Valid) (fun _ => False) := by
  obtain ⟨data, live, sized⟩ := valid.buffer
  have inside : Within s.mData 0 l ∧ Within (some x) 0 l := by
    rw [live]
    exact ⟨within_some (by omega), within_some (by omega)⟩
  unfold fill
  rw [if_pos inside, live, memcpyBuffer_some]
  refine ⟨⟨_, rfl, ?_⟩, valid.allocated, behind, room⟩
  rw [memcpy_length]
  exact sized

theorem reallocate_eq (live : s.mData.isSome) {mxlen : Nat} (granted : a.Allocates mxlen) :
    s.reallocate a mxlen = .returned { s with mxlen, mData := some (a.bytes mxlen) } () := by
  unfold reallocate
  rw [if_pos live, if_pos granted]

theorem room_ends (valid : s.Valid) {short : Prop} [Decidable short] {size need : Nat}
    (enough : ¬short → need ≤ s.mxlen) (granted : short → a.Allocates size ∧ need ≤ size) :
    (if short then s.reallocate a size else .returned s ()).Ends
      (fun t _ => ∃ data, t.mData = some data ∧ data.length = t.mxlen ∧ t.mxlen < 2 ^ 63 ∧
        need ≤ t.mxlen) (fun _ => False) := by
  obtain ⟨data, live, sized⟩ := valid.buffer
  split
  · rename_i isShort
    obtain ⟨granted, fits⟩ := granted isShort
    rw [reallocate_eq (by rw [live]; rfl) granted]
    exact ⟨_, rfl, Allocator.bytes_length _ _, granted.1, fits⟩
  · rename_i isEnough
    exact ⟨data, live, sized, valid.allocated, enough isEnough⟩

/-- `assign` must not be refused the memory: it has no buffer any more when it throws. -/
def AssignSafe (a : Allocator) (s os : ByteStreamMembers) : Prop :=
  os.mWriteHead < s.mxlen ∨ a.Allocates os.mxlen

theorem assign_ends (valid : s.Valid) {os : ByteStreamMembers} (valid' : os.Valid)
    (safe : AssignSafe a s os) {osData : Source}
    (source : osData = .own ∨ osData = .other os.mData) :
    (s.assign a os osData).Ends (fun t _ => t.Valid) (fun _ => False) := by
  obtain ⟨osBuffer, osLive, osSized⟩ := valid'.buffer
  have osBelow := valid'.writeHead
  have granted : s.mxlen ≤ os.mWriteHead → a.Allocates os.mxlen ∧ os.mWriteHead ≤ os.mxlen := by
    intro short
    exact ⟨safe.resolve_left (Nat.not_lt.mpr short), osBelow⟩
  have room := room_ends valid (fun long => (Nat.not_le.mp long).le) granted
  unfold assign
  refine room.bind ?_
  intro t _ ⟨data', live', sized', allocated, enough⟩
  have inside : Within t.mData 0 os.mWriteHead ∧
      Within (osData.read false t.mData) 0 os.mWriteHead := by
    rw [live']
    refine ⟨within_some (by omega), ?_⟩
    rcases source with own | other
    · rw [own]
      exact within_some (by omega)
    · rw [other]
      change Within os.mData 0 os.mWriteHead
      rw [osLive]
      exact within_some (by omega)
  simp only [if_pos inside]
  rw [live', memcpyBuffer_some]
  refine ⟨⟨_, rfl, ?_⟩, allocated, valid'.readHead, enough⟩
  rw [memcpy_length]
  exact sized'

theorem construct_ends (maxlen : Nat) :
    (construct a maxlen).Ends
      (fun t _ => t.Valid ∧ t.mReadHead = 0 ∧ t.written = [] ∧ t.mxlen = maxlen)
      (fun _ => ¬a.Allocates maxlen) := by
  unfold construct
  split
  · rename_i none
    exact ⟨null_valid, rfl, rfl, none.symm⟩
  · split
    · rename_i granted
      exact ⟨⟨⟨_, rfl, Allocator.bytes_length _ _⟩, granted.1, le_rfl, Nat.zero_le _⟩, rfl,
        rfl, rfl⟩
    · rename_i refused
      exact refused

theorem constructCopy_ends {os : ByteStreamMembers} (valid : os.Valid) :
    (constructCopy a os).Ends (fun t _ => t.Valid) (fun _ => True) := by
  obtain ⟨data, live, sized⟩ := valid.buffer
  have below := valid.writeHead
  have inside : Within os.mData 0 os.mWriteHead ∧ os.mWriteHead ≤ os.mxlen := by
    rw [live]
    exact ⟨within_some (by omega), below⟩
  unfold constructCopy
  by_cases granted : a.Allocates os.mxlen
  · rw [if_pos granted, if_pos inside]
    refine ⟨⟨_, rfl, ?_⟩, granted.1, valid.readHead, below⟩
    rw [memcpy_length, Allocator.bytes_length]
  · rw [if_neg granted]
    exact trivial

/-- The read head of the output must not be behind its 20 bytes. -/
def HashSafe (a : Allocator) (output : ByteStreamMembers) : Prop :=
  Refused a output 20 ∨ output.mReadHead ≤ 20

theorem hashInto_ends (valid : s.Valid) (safe : HashSafe a s) (sha1 : List Byte → List Byte)
    {stream : Source} {size : Nat}
    (held : ∀ buffer, stream = .other buffer → Within buffer 0 size)
    (self : stream = .own → size ≤ s.mWriteHead) :
    (s.hashInto a sha1 stream size).Ends (fun t _ => t.Valid) (· = s) := by
  have below := valid.writeHead
  have reserves : ReserveSafe a s 20 := by
    by_cases enough : 20 < s.mxlen
    · exact .inl enough
    · right
      right
      omega
  unfold hashInto
  refine ((reserve_ends valid reserves).mono (fun _ _ => id) fun _ thrown => thrown.1).bind ?_
  intro t _ ⟨valid', ⟨writeHead, readHead, _⟩, granted, mxlen⟩
  obtain ⟨data, live, sized⟩ := valid'.buffer
  have below' := valid'.writeHead
  have enough : 20 ≤ t.mxlen := mxlen ▸ (le_capacity (by decide)).1
  have inside : Within (stream.read false t.mData) 0 size ∧ Within t.mData 0 20 := by
    rw [live]
    refine ⟨?_, within_some (by omega)⟩
    cases stream with
    | other buffer => exact held buffer rfl
    | own =>
      have few := self rfl
      exact within_some (by omega)
  simp only [if_pos inside]
  rw [live, memcpyBuffer_some]
  refine ⟨⟨_, rfl, ?_⟩, valid'.allocated, ?_, enough⟩
  · rw [memcpy_length]
    exact sized
  · change t.mReadHead ≤ 20
    rw [readHead]
    exact safe.resolve_left granted

theorem hash_ends (valid : s.Valid) (sha1 : List Byte → List Byte) :
    (s.hash a sha1).Ends (fun t _ => t.Valid) (fun _ => True) := by
  unfold hash
  refine ((construct_ends 20).mono (fun _ _ => id) fun _ _ => trivial).bind ?_
  intro h _ ⟨valid', readHead, _⟩
  have safe : HashSafe a h := .inr (by omega)
  obtain ⟨data, live, sized⟩ := valid.buffer
  have below := valid.writeHead
  refine (hashInto_ends valid' safe sha1 ?_ ?_).mono (fun _ _ => id) fun _ _ => trivial
  · intro buffer same
    cases same
    rw [live]
    exact within_some (by omega)
  · intro own
    cases own

/-- A message that does not fit asks for twice its length, and `mData` is deleted when it does. -/
def ReceiveSafe (a : Allocator) (s : ByteStreamMembers) (length : Nat) : Prop :=
  length < 2 ^ 63 ∧ (length ≤ s.mxlen ∨ a.Allocates (length * 2 % 2 ^ 64))

theorem receive_ends (valid : s.Valid) {message : List Byte}
    (safe : ReceiveSafe a s message.length) :
    (s.receive a message).Ends (fun t _ => t.Valid ∧ t.written = message ∧ t.mReadHead = 0)
      (fun _ => False) := by
  have small := safe.1
  have granted : s.mxlen < message.length → a.Allocates (message.length * 2 % 2 ^ 64) ∧
      message.length ≤ message.length * 2 % 2 ^ 64 := by
    intro short
    exact ⟨safe.2.resolve_left (Nat.not_le.mpr short), by omega⟩
  have room := room_ends valid Nat.not_lt.mp granted
  unfold receive
  refine room.bind ?_
  intro t _ ⟨data', live', sized', allocated, enough⟩
  have inside : Within t.mData 0 message.length := by
    rw [live']
    exact within_some (by omega)
  have fits : 0 + message.length ≤ data'.length := by omega
  have kept := take_memcpy fits
  rw [Nat.zero_add] at kept
  rw [if_pos inside, live', memcpyBuffer_some, Option.getD_some, List.drop_zero, List.take_length]
  refine ⟨⟨⟨_, rfl, ?_⟩, allocated, Nat.zero_le _, enough⟩, kept, rfl⟩
  rw [memcpy_length]
  exact sized'

/-- The operations on the streams of a program; the constructors make stream `i` anew. -/
inductive Call (ι : Type) where
  | construct (i : ι) (maxlen : UInt64)
  | constructData (i : ι) (data : List Byte) (length : UInt64)
  | constructCopy (i os : ι)
  | assign (i os : ι)
  | reserve (i : ι) (l : UInt64)
  | resize (i : ι) (size : UInt64)
  | setp (i : ι) (loc : UInt64)
  | setg (i : ι) (loc : UInt64)
  | append (i : ι) (x : List Byte) (l : UInt64)
  | concat (i os : ι)
  | consume (i : ι) (l : UInt64)
  | consumeStream (i s : ι) (l : UInt64)
  | storeBytes (i : ι) (x : List Byte) (l : UInt32)
  | getBytes (i : ι) (space : Nat)
  | hashInto (i output : ι)
  | hash (i result : ι)
  | receive (i : ι) (message : List Byte)

/-- No object comes of a constructor that throws. -/
def orKeep (old : ByteStreamMembers) :
    Outcome ByteStreamMembers Unit → Outcome ByteStreamMembers Unit
  | .thrown _ => .thrown old
  | made => made

def silent (o : Outcome ByteStreamMembers Unit) : Outcome ByteStreamMembers (List Byte) :=
  o.bind fun s _ => .returned s []

section Calls

variable {ι : Type} [DecidableEq ι]

def sourceOf (streams : ι → ByteStreamMembers) (i j : ι) : Source :=
  if i = j then .own else .other (streams j).mData

/-- `consume(ByteStream& s, u64 l)`: `s` may be the stream itself, and `memcpy` is not defined for
    bytes that overlap with their copy. -/
def consumeStream (a : Allocator) (streams : ι → ByteStreamMembers) (i s : ι) (l : Nat) :
    Outcome (ι → ByteStreamMembers) (List Byte) :=
  (Outcome.on s (reserve a · l) streams).bind fun reserved _ =>
    (Outcome.on i (consume · l) reserved).bind fun after x =>
      if i = s ∧ 0 < (reserved i).mReadHead ∧ (reserved i).mReadHead < l then .undefined
      else Outcome.on s (fun dest => silent (dest.fill x l)) after

def Call.object : Call ι → ι
  | .construct i _ | .constructData i _ _ | .constructCopy i _ | .assign i _ | .reserve i _
  | .resize i _ | .setp i _ | .setg i _ | .append i _ _ | .concat i _ | .consume i _
  | .consumeStream i _ _ | .storeBytes i _ _ | .getBytes i _ | .hashInto _ i | .hash _ i
  | .receive i _ => i

def method (a : Allocator) (sha1 : List Byte → List Byte) (streams : ι → ByteStreamMembers)
    (call : Call ι) (s : ByteStreamMembers) : Outcome ByteStreamMembers (List Byte) :=
  match call with
  | .construct _ maxlen => silent (orKeep s (construct a maxlen.toNat))
  | .constructData _ data length => silent (orKeep s (null.append a data length.toNat))
  | .constructCopy _ os => silent (orKeep s (constructCopy a (streams os)))
  | .assign i os => silent (s.assign a (streams os) (sourceOf streams i os))
  | .reserve _ l => silent (s.reserve a l.toNat)
  | .resize _ size => silent (s.resize a size.toNat)
  | .setp _ loc => silent (s.setp loc.toNat)
  | .setg _ loc => silent (s.setg loc.toNat)
  | .append _ x l => silent (s.append a x l.toNat)
  | .concat i os => silent (s.concat a (sourceOf streams i os) (streams os).mWriteHead)
  | .consume _ l => s.consume l.toNat
  | .consumeStream _ _ _ => .returned s []
  | .storeBytes _ x l => silent (s.storeBytes a x l.toNat)
  | .getBytes _ space => s.getBytes space
  | .hashInto i output =>
    silent (s.hashInto a sha1 (sourceOf streams output i) (streams i).mWriteHead)
  | .hash i _ => silent (orKeep s ((streams i).hash a sha1))
  | .receive _ message => silent (s.receive a message)

def step (a : Allocator) (sha1 : List Byte → List Byte) (streams : ι → ByteStreamMembers)
    (call : Call ι) : Outcome (ι → ByteStreamMembers) (List Byte) :=
  match call with
  | .consumeStream i s l => consumeStream a streams i s l.toNat
  | call => Outcome.on call.object (method a sha1 streams call) streams

/-- What `consume(s, l)` needs of the read heads: that of `s` must not be behind the `l` bytes. -/
def ConsumeStreamSafe (a : Allocator) (streams : ι → ByteStreamMembers) (i s : ι) (l : Nat) :
    Prop :=
  ReserveSafe a (streams s) l ∧
    (¬Refused a (streams s) l → (streams i).mReadHead + l < 2 ^ 64 ∧
      ((streams i).mReadHead + l ≤ (streams i).mWriteHead →
        if i = s then (streams i).mReadHead = 0 else (streams s).mReadHead ≤ l))

/-- The operations that keep the heads in order and inside, given memory of the sizes they name. -/
def Safe (a : Allocator) (streams : ι → ByteStreamMembers) : Call ι → Prop
  | .construct _ _ | .constructCopy _ _ | .setp _ _ | .setg _ _ | .hash _ _ => True
  | .constructData _ data length => GrowSafe a null length.toNat ∧ length.toNat ≤ data.length
  | .assign i os => AssignSafe a (streams i) (streams os)
  | .reserve i l => ReserveSafe a (streams i) l.toNat
  | .resize i size => ReserveSafe a (streams i) size.toNat
  | .append i x l => GrowSafe a (streams i) l.toNat ∧ l.toNat ≤ x.length
  | .concat i os => GrowSafe a (streams i) (streams os).mWriteHead
  | .consume i l => (streams i).mReadHead + l.toNat < 2 ^ 64
  | .consumeStream i s l => ConsumeStreamSafe a streams i s l.toNat
  | .storeBytes i x l => GrowSafe a (streams i) (4 + l.toNat) ∧ l.toNat ≤ x.length
  | .getBytes i space => GetSafe (streams i) space
  | .hashInto _ output => HashSafe a (streams output)
  | .receive i message => ReceiveSafe a (streams i) message.length

variable {streams : ι → ByteStreamMembers} {sha1 : List Byte → List Byte}

theorem silent_ends {o : Outcome ByteStreamMembers Unit} {P Q : ByteStreamMembers → Prop}
    (ends : o.Ends (fun t _ => P t) Q) : (silent o).Ends (fun t _ => P t) Q := by
  unfold silent
  exact ends.bind fun _ _ holds => holds

theorem orKeep_ends {o : Outcome ByteStreamMembers Unit} {P Q : ByteStreamMembers → Prop}
    (ends : o.Ends (fun t _ => P t) Q) : (orKeep s o).Ends (fun t _ => P t) (· = s) := by
  cases o with
  | returned t u => exact ends
  | thrown t => rfl
  | undefined => exact ends

theorem sourceOf_other (valid : ∀ j, (streams j).Valid) {i j : ι} {buffer : Option (List Byte)}
    (same : sourceOf streams i j = .other buffer) : Within buffer 0 (streams j).mWriteHead := by
  obtain ⟨data, live, sized⟩ := (valid j).buffer
  have below := (valid j).writeHead
  unfold sourceOf at same
  split at same
  · cases same
  · cases same
    rw [live]
    exact within_some (by omega)

theorem sourceOf_own {i j : ι} (own : sourceOf streams i j = .own) : i = j := by
  unfold sourceOf at own
  split at own
  · assumption
  · cases own

theorem method_ends (valid : ∀ j, (streams j).Valid) {call : Call ι}
    (safe : Safe a streams call) :
    (method a sha1 streams call (streams call.object)).Ends (fun t _ => t.Valid)
      (fun t => t.Valid ∧ Unchanged (streams call.object) t) := by
  have kept (t : ByteStreamMembers) (same : t = streams call.object) :
      t.Valid ∧ Unchanged (streams call.object) t :=
    same.symm ▸ ⟨valid call.object, .refl _⟩
  cases call with
  | construct i maxlen =>
    have made := orKeep_ends (s := streams i) (construct_ends (a := a) maxlen.toNat)
    exact (silent_ends (made.mono (fun _ _ ends => ends.1) fun _ => id)).mono (fun _ _ => id) kept
  | constructData i data length =>
    have made := orKeep_ends (s := streams i)
      ((append_ends null_valid safe.1 safe.2).mono (fun _ _ ends => ends.1.valid) fun _ => id)
    exact (silent_ends made).mono (fun _ _ => id) kept
  | constructCopy i os =>
    have made := orKeep_ends (s := streams i) (constructCopy_ends (a := a) (valid os))
    exact (silent_ends made).mono (fun _ _ => id) kept
  | assign i os =>
    have source : sourceOf streams i os = .own ∨
        sourceOf streams i os = .other (streams os).mData := by
      unfold sourceOf
      split
      · exact .inl rfl
      · exact .inr rfl
    exact (silent_ends (assign_ends (valid i) (valid os) safe source)).mono (fun _ _ => id)
      fun _ => False.elim
  | reserve i l =>
    have reserved := (reserve_ends (valid i) safe).mono (fun _ _ ends => ends.1)
      fun _ thrown => thrown.1
    exact (silent_ends reserved).mono (fun _ _ => id) kept
  | resize i size => exact silent_ends (resize_ends (valid i) safe)
  | setp i loc => exact (silent_ends (setp_ends (valid i) _)).mono (fun _ _ => id) kept
  | setg i loc => exact (silent_ends (setg_ends (valid i) _)).mono (fun _ _ => id) kept
  | append i x l =>
    have appended := (append_ends (valid i) safe.1 safe.2).mono
      (fun _ _ ends => ends.1.valid) fun _ thrown => thrown.1
    exact (silent_ends appended).mono (fun _ _ => id) kept
  | concat i os =>
    have self (own : sourceOf streams i os = .own) :
        (streams os).mWriteHead ≤ (streams i).mWriteHead := by
      rw [sourceOf_own own]
    have joined := concat_ends (valid i) safe (fun _ same => sourceOf_other valid same) self
    exact (silent_ends joined).mono (fun _ _ => id) kept
  | consume i l =>
    refine (consume_ends (valid i) safe).mono ?_ fun t thrown => kept t thrown.1
    intro t x ⟨ahead, _, same⟩
    exact same ▸ (valid i).moveRead ahead
  | consumeStream i s l => exact valid i
  | storeBytes i x l =>
    have stored := (storeBytes_ends (valid i) safe.1 safe.2).mono
      (fun _ _ ends => ends.1.valid) fun _ thrown => thrown.1
    exact (silent_ends stored).mono (fun _ _ => id) kept
  | getBytes i space =>
    exact (getBytes_ends (valid i) safe).mono (fun _ _ => id) fun _ => False.elim
  | hashInto i output =>
    have self (own : sourceOf streams output i = .own) :
        (streams i).mWriteHead ≤ (streams output).mWriteHead := by
      rw [sourceOf_own own]
    have hashed := hashInto_ends (valid output) safe sha1
      (fun _ same => sourceOf_other valid same) self
    exact (silent_ends hashed).mono (fun _ _ => id) kept
  | hash i result =>
    have made := orKeep_ends (s := streams result) (hash_ends (a := a) (valid i) sha1)
    exact (silent_ends made).mono (fun _ _ => id) kept
  | receive i message =>
    have received := (receive_ends (valid i) safe).mono (fun _ _ ends => ends.1) fun _ => id
    exact (silent_ends received).mono (fun _ _ => id) fun _ => False.elim

theorem valid_update (valid : ∀ j, (streams j).Valid) (i : ι) (valid' : t.Valid) :
    ∀ j, (Function.update streams i t j).Valid :=
  (Function.forall_update_iff streams fun _ s => s.Valid).mpr ⟨valid', fun j _ => valid j⟩

theorem unchanged_update {i : ι} (same : Unchanged (streams i) t) :
    ∀ j, Unchanged (streams j) (Function.update streams i t j) :=
  (Function.forall_update_iff streams fun j s => Unchanged (streams j) s).mpr
    ⟨same, fun _ _ => .refl _⟩

theorem consumeStream_ends (valid : ∀ j, (streams j).Valid) {i s : ι} {l : Nat}
    (safe : ConsumeStreamSafe a streams i s l) :
    (consumeStream a streams i s l).Ends (fun after _ => ∀ j, (after j).Valid)
      (fun after => ∀ j, (after j).Valid ∧ Unchanged (streams j) (after j)) := by
  obtain ⟨reserves, reads⟩ := safe
  unfold consumeStream
  have reserved : (Outcome.on s (reserve a · l) streams).Ends _ _ :=
    Outcome.Ends.on (reserve_ends (valid s) reserves)
  refine (reserved.mono (fun _ _ => id) ?_).bind ?_
  · intro after ⟨t, same, thrown, _⟩ j
    rw [thrown, Function.update_eq_self] at same
    rw [same]
    exact ⟨valid j, .refl _⟩
  · intro after _ ⟨t, same, valid', unchanged, granted, mxlen⟩
    obtain ⟨small, heads⟩ := reads granted
    have all : ∀ j, (after j).Valid := same ▸ valid_update valid s valid'
    have still : ∀ j, Unchanged (streams j) (after j) := same ▸ unchanged_update unchanged
    have read : (after i).mReadHead = (streams i).mReadHead := (still i).2.1
    have write : (after i).mWriteHead = (streams i).mWriteHead := (still i).1
    have dest : after s = t := by rw [same, Function.update_self]
    have unwrapped : (after i).mReadHead + l < 2 ^ 64 := by
      rw [read]
      exact small
    have consumed : (Outcome.on i (consume · l) after).Ends _ _ :=
      Outcome.Ends.on (consume_ends (all i) unwrapped)
    refine (consumed.mono (fun _ _ => id) ?_).bind ?_
    · intro after' ⟨u, same', thrown, _⟩ j
      rw [thrown, Function.update_eq_self] at same'
      rw [same']
      exact ⟨all j, still j⟩
    · intro after' x ⟨u, same', ahead, copied, moved⟩
      have below := (all i).writeHead
      have few := (all i).allocated
      have headed := heads (by omega)
      have enough : l ≤ t.mxlen := mxlen ▸ (le_capacity (by omega)).1
      have sized : x.length = l := by
        rw [copied]
        exact (all i).slice_length (by omega)
      have all' : ∀ j, (after' j).Valid := by
        have advanced : u.Valid := by
          rw [moved]
          exact (all i).moveRead ahead
        exact same' ▸ valid_update all i advanced
      have apart : ¬(i = s ∧ 0 < (after i).mReadHead ∧ (after i).mReadHead < l) := by
        intro ⟨self, positive, _⟩
        rw [if_pos self] at headed
        omega
      have head : (after' s).mReadHead ≤ l ∧ (after' s).mxlen = t.mxlen := by
        by_cases self : i = s
        · rw [if_pos self] at headed
          rw [same', ← self, Function.update_self, moved]
          rw [← self] at dest
          rw [dest] at read
          change (after i).mReadHead + l ≤ l ∧ (after i).mxlen = t.mxlen
          rw [dest]
          omega
        · rw [if_neg self] at headed
          rw [same', Function.update_of_ne (Ne.symm self), dest]
          exact ⟨unchanged.2.1 ▸ headed, rfl⟩
      rw [if_neg apart]
      have filled := fill_ends (all' s) (x := x) (l := l) (by omega) (by omega) head.1
      refine (Outcome.Ends.on (silent_ends filled)).mono ?_ ?_
      · intro final _ ⟨v, final', valid''⟩
        exact final' ▸ valid_update all' s valid''
      · intro _ ⟨_, _, never⟩
        exact never.elim

theorem step_ends (valid : ∀ j, (streams j).Valid) {call : Call ι} (safe : Safe a streams call) :
    (step a sha1 streams call).Ends (fun after _ => ∀ j, (after j).Valid)
      (fun after => ∀ j, (after j).Valid ∧ Unchanged (streams j) (after j)) := by
  unfold step
  split
  · exact consumeStream_ends valid safe
  · refine (Outcome.Ends.on (method_ends valid safe)).mono ?_ ?_
    · intro after _ ⟨t, same, valid'⟩
      exact same ▸ valid_update valid _ valid'
    · intro after ⟨t, same, valid', unchanged⟩
      exact fun j => ⟨same ▸ valid_update valid _ valid' j, same ▸ unchanged_update unchanged j⟩

/-- The streams after a run of safe operations, each with its own answers of the allocator; an
    operation that throws is a step as well. -/
abbrev Reaches (sha1 : List Byte → List Byte) (streams after : ι → ByteStreamMembers) : Prop :=
  Run.Along (fun streams (c : Allocator × Call ι) => (step c.1 sha1 streams c.2).state?)
    (fun streams c => Safe c.1 streams c.2) streams after

/-- In every run of safe operations the heads stay in order and inside the allocation, no operation
    leaves it, and one that throws changes neither heads nor written bytes. -/
theorem run_heads (sha1 : List Byte → List Byte) {after : ι → ByteStreamMembers}
    (run : Reaches sha1 (fun _ => null) after) :
    (∀ i, (after i).mReadHead ≤ (after i).mWriteHead ∧ (after i).mWriteHead ≤ (after i).mxlen ∧
      ∃ data, (after i).mData = some data ∧ data.length = (after i).mxlen) ∧
      ∀ a call, Safe a after call → step a sha1 after call ≠ .undefined ∧
        ∀ later, step a sha1 after call = .thrown later → ∀ i, Unchanged (after i) (later i) := by
  have valid : ∀ i, (after i).Valid := by
    apply run.invariant
    · intro streams c next valid safe taken
      have ends : (step c.1 sha1 streams c.2).Ends _ _ := step_ends valid safe
      have keeps : (step c.1 sha1 streams c.2).Keeps fun after => ∀ i, (after i).Valid :=
        ends.mono (fun _ _ => id) fun _ thrown i => (thrown i).1
      exact keeps.state taken
    · intro _
      exact null_valid
  constructor
  · intro i
    exact ⟨(valid i).readHead, (valid i).writeHead, (valid i).buffer⟩
  · intro a call safe
    have ends : (step a sha1 after call).Ends _ _ := step_ends valid safe
    constructor
    · exact ends.defined
    · intro later thrown i
      rw [thrown] at ends
      exact (ends i).2

/-- A stream written, consumed into another one and hashed over it. -/
theorem run_heads_hash :
    let after : Bool → ByteStreamMembers := fun i =>
      if i then ⟨20, 40, 0, some (List.replicate 40 0)⟩ else ⟨2, 4, 1, some [5, 6, 0, 0]⟩
    (∀ i, (after i).mReadHead ≤ (after i).mWriteHead ∧ (after i).mWriteHead ≤ (after i).mxlen ∧
      ∃ data, (after i).mData = some data ∧ data.length = (after i).mxlen) ∧
      ∀ a call, Safe a after call → step a (fun _ => List.replicate 20 0) after call ≠ .undefined ∧
        ∀ later, step a (fun _ => List.replicate 20 0) after call = .thrown later →
          ∀ i, Unchanged (after i) (later i) := by
  intro after
  let first : Bool → ByteStreamMembers := fun i => if i then null else ⟨2, 4, 0, some [5, 6, 0, 0]⟩
  let second : Bool → ByteStreamMembers := fun i =>
    if i then ⟨1, 2, 0, some [5, 0]⟩ else ⟨2, 4, 1, some [5, 6, 0, 0]⟩
  have one : Reaches (fun _ => List.replicate 20 0) (fun _ => null) first := by
    refine .next (zeros, .append false [5, 6] 2) .refl ?_ (by decide)
    exact ⟨.inl (by decide), by decide⟩
  have two : Reaches (fun _ => List.replicate 20 0) (fun _ => null) second := by
    refine .next (zeros, .consumeStream false true 1) one ?_ (by decide)
    exact ⟨.inr (.inr (by decide)), fun _ => ⟨by decide, fun _ => by decide⟩⟩
  have three : Reaches (fun _ => List.replicate 20 0) (fun _ => null) after := by
    refine .next (zeros, .hashInto false true) two ?_ (by decide)
    exact .inr (by decide)
  exact run_heads _ three

/-- The read head of the stream that `consume` fills stays behind its new bytes, so does that of a
    stream that takes a hash, and `get_bytes` trusts the length it finds. -/
theorem heads_cross :
    ((Run.exec (fun streams call => (step zeros id streams call).state?) (fun _ : Bool => null)
        [.append false [1, 2] 2, .append true [3, 4, 5] 3, .consume true 3,
          .consumeStream false true 2]).map fun after =>
      ((after true).mReadHead, (after true).mWriteHead)) = some (3, 2) ∧
    ((Run.exec (fun streams call => (step zeros id streams call).state?) (fun _ : Bool => null)
        [.append true (List.replicate 21 0) 21, .consume true 21, .hashInto false true]).map
      fun after => ((after true).mReadHead, (after true).mWriteHead)) = some (21, 20) ∧
    step zeros id (fun _ : Unit => ⟨4, 4, 0, some [200, 0, 0, 0]⟩) (.getBytes () 256) =
      .undefined := by
  decide

end Calls

section Refinement

theorem slice_written {start n : Nat} (inside : start + n ≤ s.mWriteHead) :
    s.slice start n = (s.written.drop start).take n := by
  unfold written slice
  rw [List.drop_zero, List.drop_take, List.take_take, Nat.min_eq_left (by omega)]

/-- The members in memory of a stream that has `v` written and read. -/
def Holds (s : ByteStreamMembers) (v : ByteStream) : Prop :=
  s.Valid ∧ s.written = v.mData ∧ s.mReadHead = v.mReadHead

variable {v w : ByteStream}

theorem Holds.length (holds : s.Holds v) : v.mData.length = s.mWriteHead := by
  rw [← holds.2.1, holds.1.written_length]

theorem Holds.unread_length (holds : s.Holds v) :
    v.unread.length = s.mWriteHead - s.mReadHead := by
  unfold ByteStream.unread
  rw [List.length_drop, holds.length, holds.2.2]

theorem receive_holds (valid : s.Valid) {message : List Byte}
    (safe : ReceiveSafe a s message.length) :
    (s.receive a message).Ends (fun t _ => t.Holds (.received message)) (fun _ => False) :=
  (receive_ends valid safe).mono (fun _ _ ends => ends) fun _ => id

theorem setp_holds (holds : s.Holds v) :
    (s.setp 0).Ends (fun t _ => t.Holds v.setp0) (fun _ => False) := by
  have valid := setp_ends holds.1 0
  unfold setp at valid ⊢
  rw [if_neg (Nat.not_lt_zero _)] at valid ⊢
  exact ⟨valid, rfl, congrArg (min · 0) holds.2.2⟩

theorem storeBytes_holds (holds : s.Holds v) {x : List Byte}
    (safe : GrowSafe a s (4 + x.length)) :
    (s.storeBytes a x x.length).Ends (fun t _ => t.Holds (v.storeBytes x)) (· = s) := by
  obtain ⟨valid, written, readHead⟩ := holds
  refine (storeBytes_ends valid safe le_rfl).mono ?_ fun _ thrown => thrown.1
  intro t _ ⟨stored, _⟩
  have bytes := stored.written
  rw [List.take_length, written, ← List.append_assoc] at bytes
  exact ⟨stored.valid, bytes, stored.readHead.trans readHead⟩

theorem getBytes_holds (holds : s.Holds v) {x : List Byte} {space : Nat}
    (run : v.getBytes = .ok (x, w)) (fits : x.length ≤ space) :
    ∃ head, s.getBytes space = .returned { s with mReadHead := head } x ∧
      Holds { s with mReadHead := head } w := by
  obtain ⟨valid, written, readHead⟩ := holds
  have length := Holds.length ⟨valid, written, readHead⟩
  unfold ByteStream.getBytes at run
  obtain ⟨header, run⟩ := Result.then_ok_iff.mp run
  obtain ⟨l, decoded, run⟩ := Result.bind_ok run
  obtain ⟨body, run⟩ := Result.then_ok_iff.mp run
  rw [Result.require_ok_iff, length, ← readHead] at header body
  cases run
  rw [← written, ← readHead] at decoded
  rw [← slice_written header] at decoded
  have copied : s.slice (s.mReadHead + 4) l = (v.mData.drop (v.mReadHead + 4)).take l := by
    rw [slice_written body, written, readHead]
  have sized : (s.slice (s.mReadHead + 4) l).length = l := by
    have below := valid.writeHead
    exact valid.slice_length (by omega)
  rw [← copied, sized] at fits
  refine ⟨_, copied ▸ getBytes_eq valid decoded body fits, valid.moveRead body, written, ?_⟩
  rw [readHead]

end Refinement

end ByteStreamMembers

end BatchDualEx
