import BatchDualEx.Common.BitVectorOps
import BatchDualEx.Lib.Memory
import BatchDualEx.Lib.Outcome
import BatchDualEx.Lib.Run
import Mathlib.Data.Fintype.Basic

/- `BitVector` with its members as they stand in memory: the buffer may be deleted, and what
   `mAllocBytes` says of it may be wrong. A request for memory may be refused. -/
namespace BatchDualEx

open Bytes Memory

/-- A buffer that has been deleted is `none`, and the null pointer is an empty buffer. -/
structure BitVectorMembers where
  mData : Option (List Byte)
  mNumBits : Nat
  mAllocBytes : Nat
  deriving DecidableEq

namespace BitVectorMembers

def null : BitVectorMembers := ⟨some [], 0, 0⟩

def sizeBytes (s : BitVectorMembers) : Nat := (s.mNumBits + 7) % 2 ^ 64 / 8

def resize (a : Allocator) (s : BitVectorMembers) (newSize : Nat) :
    Outcome BitVectorMembers Unit :=
  match BitVector.newBytes newSize with
  | .error _ => .undefined
  | .ok new_nbytes =>
    if s.mAllocBytes < new_nbytes then
      if a.Allocates new_nbytes then
        -- `delete[]` needs a buffer that has not been deleted yet
        if Within s.mData 0 s.sizeBytes ∧ s.sizeBytes ≤ new_nbytes ∧ s.mData.isSome then
          .returned
            { mData := memcpyBuffer (some (List.replicate new_nbytes 0)) s.mData 0 0 s.sizeBytes
              mNumBits := newSize
              mAllocBytes := new_nbytes } ()
        else .undefined
      else .thrown s
    else .returned { s with mNumBits := newSize } ()

def reserve (a : Allocator) (s : BitVectorMembers) (bits : Nat) :
    Outcome BitVectorMembers Unit :=
  (s.resize a bits).bind fun t _ => .returned { t with mNumBits := s.mNumBits } ()

/-- The old buffer is deleted before the new one is requested, and `mData` is not set in between. -/
def reset (a : Allocator) (s : BitVectorMembers) (new_nbits : Nat) :
    Outcome BitVectorMembers Unit :=
  let newSize := (new_nbits + 7) % 2 ^ 64 / 8
  if s.mAllocBytes < newSize then
    if s.mData.isSome then
      if a.Allocates newSize then
        .returned ⟨some (List.replicate newSize 0), new_nbits, newSize⟩ ()
      else .thrown { s with mData := if s.mData = some [] then some [] else none }
    else .undefined
  else if Within s.mData 0 newSize then
    .returned
      { s with
        mData := memcpyBuffer s.mData (some (List.replicate newSize 0)) 0 0 newSize
        mNumBits := new_nbits } ()
  else .undefined

def appendBits (source : Option (List Byte) → Option (List Byte)) (bitIdx offset length : Nat)
    (mData : Option (List Byte)) : Outcome (Option (List Byte)) Unit :=
  (List.range length).foldl
    (fun run i => run.bind fun mData _ =>
      let dest := (bitIdx + i) % 2 ^ 64
      let src := (offset + i) % 2 ^ 64
      if Within mData (dest / 8) 1 ∧ Within (source mData) (src / 8) 1 then
        .returned (mData.map fun bytes => setBit bytes dest (bit ((source mData).getD []) src)) ()
      else .undefined)
    (.returned mData ())

def append (a : Allocator) (s : BitVectorMembers) (data : Source) (length offset : Nat) :
    Outcome BitVectorMembers Unit :=
  let destIdx := s.mNumBits / 8
  let srcIdx := offset / 8
  let byteLength := (length + 7) % 2 ^ 64 / 8
  (s.resize a ((s.mNumBits + length) % 2 ^ 64)).bind fun t _ =>
    let source := data.read (t.mAllocBytes != s.mAllocBytes)
    if offset % 8 ≠ 0 ∨ s.mNumBits % 8 ≠ 0 then
      (appendBits source s.mNumBits offset length t.mData).map fun mData => { t with mData }
    else if Within t.mData destIdx byteLength ∧ Within (source t.mData) srcIdx byteLength then
      .returned
        { t with mData := memcpyBuffer t.mData (source t.mData) destIdx srcIdx byteLength } ()
    else .undefined

def copy (a : Allocator) (s : BitVectorMembers) (src : Source) (idx length : Nat) :
    Outcome BitVectorMembers Unit :=
  (s.resize a 0).bind fun t _ => t.append a src length idx

/-- `K.mData` is read after `reset`. -/
def assign (a : Allocator) (s : BitVectorMembers) (numBits : Nat) (K : Source) :
    Outcome BitVectorMembers Unit :=
  (s.reset a numBits).bind fun t _ =>
    let source := K.read false t.mData
    if Within t.mData 0 t.sizeBytes ∧ Within source 0 t.sizeBytes then
      .returned { t with mData := memcpyBuffer t.mData source 0 0 t.sizeBytes } ()
    else .undefined

/-- The buffer has the size that `mAllocBytes` says, and the bits in use lie in it. -/
structure Valid (s : BitVectorMembers) : Prop where
  buffer : ∃ data, s.mData = some data ∧ data.length = s.mAllocBytes
  allocated : s.mAllocBytes < 2 ^ 63
  counted : s.sizeBytes = (s.mNumBits + 7) / 8
  fits : s.sizeBytes ≤ s.mAllocBytes

theorem null_valid : null.Valid := ⟨⟨[], rfl, rfl⟩, by decide, rfl, by decide⟩

variable {a : Allocator} {s t : BitVectorMembers}

theorem Valid.small (valid : s.Valid) : s.mNumBits + 7 < 2 ^ 64 := by
  have counted := valid.counted
  unfold sizeBytes at counted
  omega

theorem Valid.bits (valid : s.Valid) : (s.mNumBits + 7) / 8 ≤ s.mAllocBytes :=
  valid.counted ▸ valid.fits

theorem Valid.of_room (buffer : ∃ data, s.mData = some data ∧ data.length = s.mAllocBytes)
    (allocated : s.mAllocBytes < 2 ^ 63) (small : s.mNumBits + 7 < 2 ^ 64)
    (room : (s.mNumBits + 7) / 8 ≤ s.mAllocBytes) : s.Valid := by
  have counted : s.sizeBytes = (s.mNumBits + 7) / 8 := by
    unfold sizeBytes
    rw [Nat.mod_eq_of_lt small]
  exact ⟨buffer, allocated, counted, counted ▸ room⟩

theorem Valid.write (valid : s.Valid) {data : List Byte} (sized : data.length = s.mAllocBytes) :
    Valid { s with mData := some data } :=
  Valid.of_room ⟨data, rfl, sized⟩ valid.allocated valid.small valid.bits

theorem Valid.addressed (valid : s.Valid) {idx : Nat} (below : idx < s.mNumBits) :
    ∃ data, s.mData = some data ∧ idx / 8 < data.length := by
  obtain ⟨data, live, sized⟩ := valid.buffer
  have bits := valid.bits
  exact ⟨data, live, by omega⟩

/-- The conversion to `int` gives a number of bytes, and `resize` takes the larger of it and what
    it has. -/
theorem resize_buffer (valid : s.Valid) {n k : Nat} (computed : BitVector.newBytes n = .ok k) :
    (s.resize a n).Ends
      (fun t _ => (∃ data, t.mData = some data ∧ data.length = t.mAllocBytes) ∧
        t.mNumBits = n ∧ t.mAllocBytes = max s.mAllocBytes k ∧
        (s.mAllocBytes < k → a.Allocates k))
      (fun t => t = s ∧ s.mAllocBytes < k ∧ ¬a.Allocates k) := by
  obtain ⟨data, live, sized⟩ := valid.buffer
  have fits := valid.fits
  unfold resize
  rw [computed]
  change Outcome.Ends (if s.mAllocBytes < k then _ else _) _ _
  split
  · rename_i more
    split
    · rename_i granted
      rw [if_pos ⟨.inr ⟨data, live, by omega⟩, by omega, by rw [live]; rfl⟩]
      refine ⟨⟨_, rfl, ?_⟩, rfl, ?_, fun _ => granted⟩
      · rw [memcpy_length, List.length_replicate]
      · exact (Nat.max_eq_right more.le).symm
    · rename_i refused
      exact ⟨rfl, more, refused⟩
  · rename_i enough
    refine ⟨⟨data, live, sized⟩, rfl, ?_, fun more => absurd more enough⟩
    exact (Nat.max_eq_left (Nat.not_lt.mp enough)).symm

def Moves (a : Allocator) (s : BitVectorMembers) (n : Nat) : Prop :=
  ∃ k, BitVector.newBytes n = .ok k ∧ s.mAllocBytes < k ∧ a.Allocates k

def Refused (a : Allocator) (s : BitVectorMembers) (n : Nat) : Prop :=
  ∃ k, BitVector.newBytes n = .ok k ∧ s.mAllocBytes < k ∧ ¬a.Allocates k

/-- The sizes for which `resize` throws or the bits of the new size lie in the buffer. -/
def ResizeSafe (a : Allocator) (s : BitVectorMembers) (n : Nat) : Prop :=
  n + 8 < 2 ^ 31 ∨ Refused a s n ∨
    (n + 14) % 2 ^ 32 < 2 ^ 31 + 6 ∧ n + 7 < 2 ^ 64 ∧ (n + 7) / 8 ≤ s.mAllocBytes

theorem ResizeSafe.computed {n : Nat} (safe : ResizeSafe a s n) :
    ∃ k, BitVector.newBytes n = .ok k ∧
      ((s.mAllocBytes < k → a.Allocates k) →
        n + 7 < 2 ^ 64 ∧ (n + 7) / 8 ≤ max s.mAllocBytes k) := by
  rcases safe with small | ⟨k, computed, more, refused⟩ | ⟨low, small, room⟩
  · refine ⟨_, BitVector.newBytes_small small, fun _ => ?_⟩
    omega
  · exact ⟨k, computed, fun granted => absurd (granted more) refused⟩
  · obtain ⟨k, computed, few⟩ := (BitVector.newBytes_ok_iff n).mpr low
    refine ⟨k, computed, fun _ => ?_⟩
    omega

theorem resize_ends (valid : s.Valid) {n : Nat} (safe : ResizeSafe a s n) :
    (s.resize a n).Ends
      (fun t _ => t.Valid ∧ t.mNumBits = n ∧ (t.mAllocBytes ≠ s.mAllocBytes → Moves a s n))
      (· = s) := by
  obtain ⟨k, computed, room⟩ := safe.computed
  have allocated := valid.allocated
  refine (resize_buffer valid computed).mono ?_ ?_
  · intro t _ ⟨buffer, numBits, alloc, granted⟩
    obtain ⟨small, enough⟩ := room granted
    have few : k < 2 ^ 63 := by
      by_cases more : s.mAllocBytes < k
      · exact (granted more).1
      · omega
    refine ⟨Valid.of_room buffer (by omega) (by omega) (by omega), numBits, fun other => ?_⟩
    have more : s.mAllocBytes < k := by omega
    exact ⟨k, computed, more, granted more⟩
  · intro t thrown
    exact thrown.1

/-- Beyond these sizes `resize` is undefined or leaves fewer bytes than the bits need. -/
theorem resize_keeps_iff (valid : s.Valid) (n : Nat) :
    (s.resize a n).Keeps Valid ↔ ResizeSafe a s n := by
  constructor
  · intro keeps
    cases computed : BitVector.newBytes n with
    | error fault =>
      unfold resize at keeps
      rw [computed] at keeps
      exact keeps.elim
    | ok k =>
      have allocated := valid.allocated
      have ends : (s.resize a n).Ends _ _ := resize_buffer valid computed
      cases ended : s.resize a n with
      | undefined => exact (keeps.defined ended).elim
      | thrown t =>
        rw [ended] at ends
        exact .inr (.inl ⟨k, computed, ends.2⟩)
      | returned t u =>
        rw [ended] at ends keeps
        obtain ⟨-, numBits, alloc, granted⟩ := ends
        have small := Valid.small keeps
        have bits := Valid.bits keeps
        by_cases more : s.mAllocBytes < k
        · have few := (granted more).1
          left
          by_contra large
          rcases BitVector.newBytes_large (by omega) computed with big | short <;> omega
        · have few : k < 2 ^ 63 := by omega
          have accepted := (BitVector.newBytes_ok_iff n).mp ⟨k, computed, few⟩
          exact .inr (.inr ⟨accepted, by omega, by omega⟩)
  · intro safe
    exact (resize_ends valid safe).mono (fun t _ resized => resized.1) fun t same => same ▸ valid

theorem reserve_keeps (valid : s.Valid) {bits : Nat}
    (safe : bits % 2 ^ 32 + 8 < 2 ^ 31 ∨ 2 ^ 31 ≤ bits % 2 ^ 32) :
    (s.reserve a bits).Keeps Valid := by
  have converted : ∃ k, BitVector.newBytes bits = .ok k := by
    have value : (BitVec.ofNat 32 bits).toInt + 8 < 2 ^ 31 := by
      rw [BitVec.toInt_ofNat', Int.bmod_def]
      omega
    exact ⟨_, BitVector.newBytes_eq value⟩
  obtain ⟨k, computed⟩ := converted
  have allocated := valid.allocated
  have small := valid.small
  have fits := valid.bits
  unfold reserve
  refine ((resize_buffer valid computed).mono (fun _ _ => id) ?_).bind ?_
  · intro t thrown
    exact thrown.1 ▸ valid
  · intro t _ ⟨buffer, _, alloc, granted⟩
    have few : k < 2 ^ 63 := by
      by_cases more : s.mAllocBytes < k
      · exact (granted more).1
      · omega
    have bound : t.mAllocBytes < 2 ^ 63 := by omega
    have room : (s.mNumBits + 7) / 8 ≤ t.mAllocBytes := by omega
    exact Valid.of_room buffer bound small room

/-- `reset` computes the number of bytes in 64 bits. -/
def ResetSafe (a : Allocator) (s : BitVectorMembers) (n : Nat) : Prop :=
  n + 7 < 2 ^ 64 ∧
    ((n + 7) / 8 ≤ s.mAllocBytes ∨ s.mAllocBytes = 0 ∨ a.Allocates ((n + 7) / 8))

theorem reset_ends (valid : s.Valid) {n : Nat} (safe : ResetSafe a s n) :
    (s.reset a n).Ends (fun t _ => t.Valid ∧ t.mNumBits = n) Valid := by
  obtain ⟨data, live, sized⟩ := valid.buffer
  obtain ⟨small, room⟩ := safe
  have allocated := valid.allocated
  have fits := valid.bits
  unfold reset
  rw [Nat.mod_eq_of_lt small]
  by_cases more : s.mAllocBytes < (n + 7) / 8
  · rw [if_pos more, if_pos (by rw [live]; rfl)]
    by_cases granted : a.Allocates ((n + 7) / 8)
    · rw [if_pos granted]
      have few := granted.1
      exact ⟨Valid.of_room ⟨_, rfl, List.length_replicate⟩ few small le_rfl, rfl⟩
    · rw [if_neg granted]
      have fresh : s.mAllocBytes = 0 := by
        rcases room with enough | fresh | granted'
        · omega
        · exact fresh
        · exact absurd granted' granted
      have isNull : s.mData = some [] := by
        rw [live, List.length_eq_zero_iff.mp (sized.trans fresh)]
      rw [if_pos isNull, ← isNull]
      exact valid
  · rw [if_neg more, live, if_pos (within_some (by omega))]
    refine ⟨Valid.of_room ⟨_, rfl, ?_⟩ allocated small (Nat.not_lt.mp more), rfl⟩
    rw [memcpy_length]
    exact sized

def bitLoop (source : List Byte → List Byte) (bitIdx offset length : Nat) (data : List Byte) :
    List Byte :=
  (List.range length).foldl
    (fun data i => setBit data ((bitIdx + i) % 2 ^ 64)
      (bit (source data) ((offset + i) % 2 ^ 64))) data

theorem bitLoop_succ (source : List Byte → List Byte) (bitIdx offset length : Nat)
    (data : List Byte) : bitLoop source bitIdx offset (length + 1) data =
      setBit (bitLoop source bitIdx offset length data) ((bitIdx + length) % 2 ^ 64)
        (bit (source (bitLoop source bitIdx offset length data)) ((offset + length) % 2 ^ 64)) := by
  unfold bitLoop
  rw [List.range_succ, List.foldl_append]
  rfl

@[simp] theorem bitLoop_length (source : List Byte → List Byte) (bitIdx offset length : Nat)
    (data : List Byte) : (bitLoop source bitIdx offset length data).length = data.length := by
  induction length with
  | zero => rfl
  | succ length ih => rw [bitLoop_succ, setBit_length, ih]

theorem appendBits_eq {source : Option (List Byte) → Option (List Byte)}
    {bitIdx offset length : Nat} {data : List Byte}
    (dest : bitIdx + length ≤ 8 * data.length)
    (reads : ∀ current : List Byte, current.length = data.length → ∀ i < length,
      Within (source (some current)) ((offset + i) % 2 ^ 64 / 8) 1) :
    appendBits source bitIdx offset length (some data) =
      .returned (some (bitLoop (fun current => (source (some current)).getD []) bitIdx offset
        length data)) () := by
  induction length with
  | zero => rfl
  | succ length ih =>
    have before := ih (by omega) fun current sized i below => reads current sized i (by omega)
    unfold appendBits at before ⊢
    have inside : (bitIdx + length) % 2 ^ 64 / 8 + 1 ≤ data.length := by
      have less := Nat.mod_le (bitIdx + length) (2 ^ 64)
      omega
    rw [List.range_succ, List.foldl_append, before, bitLoop_succ]
    exact if_pos ⟨within_some (by rwa [bitLoop_length]),
      reads _ (bitLoop_length _ _ _ _ _) length (Nat.lt_succ_self length)⟩

/-- The bits that are copied exist, and lie in a buffer that is still there after `resize`. -/
def SourceSafe (a : Allocator) (s : BitVectorMembers) (data : Source)
    (length offset : Nat) : Prop :=
  length = 0 ∨
    match data with
    | .other buffer => ∃ bytes ∈ buffer, offset + length ≤ 8 * bytes.length
    | .own => offset + length ≤ 8 * s.mAllocBytes ∧ ¬Moves a s (s.mNumBits + length)

def AppendSafe (a : Allocator) (s : BitVectorMembers) (data : Source)
    (length offset : Nat) : Prop :=
  s.mNumBits + length < 2 ^ 64 ∧ ResizeSafe a s (s.mNumBits + length) ∧
    SourceSafe a s data length offset

theorem SourceSafe.read {data : Source} {length offset : Nat}
    (safe : SourceSafe a s data length offset)
    (moved : t.mAllocBytes ≠ s.mAllocBytes → Moves a s (s.mNumBits + length))
    (current : List Byte) (sized : current.length = t.mAllocBytes) :
    length = 0 ∨ ∃ bytes, data.read (t.mAllocBytes != s.mAllocBytes) (some current) = some bytes ∧
      offset + length ≤ 8 * bytes.length := by
  rcases safe with none' | covers
  · exact .inl none'
  · right
    cases data with
    | other buffer =>
      obtain ⟨bytes, live, inside⟩ := covers
      exact ⟨bytes, live, inside⟩
    | own =>
      obtain ⟨inside, still⟩ := covers
      have same : t.mAllocBytes = s.mAllocBytes := by
        by_contra other
        exact still (moved other)
      refine ⟨current, ?_, by omega⟩
      unfold Source.read
      rw [same, bne_self_eq_false]
      rfl

theorem append_keeps (valid : s.Valid) {data : Source} {length offset : Nat}
    (safe : AppendSafe a s data length offset) :
    (s.append a data length offset).Keeps Valid := by
  obtain ⟨small, resizes, covers⟩ := safe
  unfold append
  rw [Nat.mod_eq_of_lt small]
  refine ((resize_ends valid resizes).mono (fun _ _ => id) fun t same => same ▸ valid).bind ?_
  intro t _ ⟨valid', numBits, moved⟩
  obtain ⟨current, live, sized⟩ := valid'.buffer
  have room := valid'.bits
  have reads := covers.read moved
  rw [numBits] at room
  by_cases shifting : offset % 8 ≠ 0 ∨ s.mNumBits % 8 ≠ 0
  · have eachRead (written : List Byte) (same : written.length = current.length) (i : Nat)
        (below : i < length) : Within (data.read (t.mAllocBytes != s.mAllocBytes) (some written))
          ((offset + i) % 2 ^ 64 / 8) 1 := by
      rcases reads written (same.trans sized) with none' | ⟨bytes, source, inside⟩
      · omega
      · have less := Nat.mod_le (offset + i) (2 ^ 64)
        rw [source]
        exact within_some (by omega)
    have dest : s.mNumBits + length ≤ 8 * current.length := by omega
    have loop := appendBits_eq dest eachRead
    simp only [if_pos shifting, live, loop]
    exact valid'.write (by rw [bitLoop_length, sized])
  · have inside : Within t.mData (s.mNumBits / 8) ((length + 7) % 2 ^ 64 / 8) ∧
        Within (data.read (t.mAllocBytes != s.mAllocBytes) t.mData) (offset / 8)
          ((length + 7) % 2 ^ 64 / 8) := by
      have less := Nat.mod_le (length + 7) (2 ^ 64)
      rw [live]
      rcases reads current sized with none' | ⟨bytes, source, enough⟩
      · rw [none']
        exact ⟨.inl rfl, .inl rfl⟩
      · rw [source]
        exact ⟨within_some (by omega), within_some (by omega)⟩
    simp only [if_neg shifting, if_pos inside]
    rw [live, memcpyBuffer_some]
    exact valid'.write (by rw [memcpy_length, sized])

theorem copy_keeps (valid : s.Valid) {src : Source} {idx length : Nat}
    (safe : AppendSafe a { s with mNumBits := 0 } src length idx) :
    (s.copy a src idx length).Keeps Valid := by
  have emptied : s.resize a 0 = .returned { s with mNumBits := 0 } () := by
    unfold resize
    rw [BitVector.newBytes_small (by decide)]
    exact if_neg (Nat.not_lt_zero _)
  have kept : Valid { s with mNumBits := 0 } :=
    Valid.of_room valid.buffer valid.allocated (show 0 + 7 < 2 ^ 64 by decide)
      (show (0 + 7) / 8 ≤ s.mAllocBytes from Nat.zero_le _)
  unfold copy
  rw [emptied]
  exact append_keeps kept safe

theorem assign_keeps (valid : s.Valid) {numBits : Nat} (safe : ResetSafe a s numBits)
    {K : Source} (covers : ∀ buffer, K = .other buffer →
      ∃ bytes ∈ buffer, (numBits + 7) / 8 ≤ bytes.length) :
    (s.assign a numBits K).Keeps Valid := by
  unfold assign
  refine (reset_ends valid safe).bind ?_
  intro t _ ⟨valid', numBits'⟩
  obtain ⟨current, live, sized⟩ := valid'.buffer
  have counted := valid'.counted
  have fits := valid'.fits
  have source : Within (K.read false t.mData) 0 t.sizeBytes := by
    cases K with
    | own =>
      unfold Source.read
      rw [if_neg Bool.false_ne_true, live]
      exact within_some (by omega)
    | other buffer =>
      obtain ⟨bytes, held, enough⟩ := covers buffer rfl
      exact .inr ⟨bytes, held, by omega⟩
  have dest : Within t.mData 0 t.sizeBytes := by
    rw [live]
    exact within_some (by omega)
  simp only [if_pos (And.intro dest source)]
  rw [live, memcpyBuffer_some]
  exact valid'.write (by rw [memcpy_length, sized])

section Refinement

/-- The members in memory of a vector whose buffer has room for its bits. -/
def Holds (s : BitVectorMembers) (v : BitVector) : Prop :=
  s.mData = some v.mData ∧ s.mNumBits = v.mNumBits ∧ s.mAllocBytes = v.mData.length

variable {v w : BitVector}

theorem resize_holds (valid : s.Valid) (holds : s.Holds v) {n : Nat} (run : v.resize n = .ok w) :
    ∃ t, s.resize zeros n = .returned t () ∧ t.Holds w := by
  obtain ⟨live, numBits, alloc⟩ := holds
  have counted : s.sizeBytes = v.sizeBytes := by
    rw [valid.counted, numBits]
    rfl
  have inUse := v.fits
  unfold BitVector.resize at run
  obtain ⟨k, computed, run⟩ := Result.bind_ok run
  split at run
  · cases run
  · rename_i few
    split at run
    · cases run
      unfold resize
      rw [computed]
      by_cases more : v.mData.length < k
      · have copied : memcpyBuffer (some (List.replicate k 0)) s.mData 0 0 s.sizeBytes =
            some (v.bytes ++ List.replicate (k - v.bytes.length) 0) := by
          rw [live, counted, memcpyBuffer_some, ← memcpy_zeros]
          · rfl
          · rw [BitVector.bytes_length]
            exact le_trans inUse more.le
        refine ⟨⟨some (v.bytes ++ List.replicate (k - v.bytes.length) 0), n, k⟩, ?_, ?_⟩
        · have inside : Within s.mData 0 s.sizeBytes ∧ s.sizeBytes ≤ k ∧ s.mData.isSome := by
            rw [live, counted]
            exact ⟨within_some (by rw [Nat.zero_add]; exact inUse), le_trans inUse more.le, rfl⟩
          simp only [alloc, more, if_true, zeros_allocates (Nat.not_le.mp few), inside, copied,
            and_self]
        · refine ⟨congrArg some (if_pos more).symm, rfl, ?_⟩
          change k = (v.allocate k).length
          rw [BitVector.allocate_length]
          omega
      · have kept : v.allocate k = v.mData := if_neg more
        exact ⟨{ s with mNumBits := n }, if_neg (by omega), live.trans (congrArg some kept.symm),
          rfl, alloc.trans (congrArg List.length kept.symm)⟩
    · cases run

theorem reset_holds (holds : s.Holds v) {n : Nat} (small : n + 7 < 2 ^ 64) :
    ∃ t, s.reset zeros n = .returned t () ∧ t.Holds (v.reset n) := by
  obtain ⟨live, numBits, alloc⟩ := holds
  have few : (n + 7) / 8 < 2 ^ 63 := by omega
  unfold reset BitVector.reset
  rw [Nat.mod_eq_of_lt small]
  by_cases room : (n + 7) / 8 ≤ v.mData.length
  · have inside : Within s.mData 0 ((n + 7) / 8) := by
      rw [live]
      exact within_some (by omega)
    refine ⟨_, (if_neg (by omega)).trans (if_pos inside), ?_⟩
    rw [dif_pos room, live, memcpyBuffer_some]
    refine ⟨?_, rfl, ?_⟩
    · simp
    · rw [memcpy_length]
      exact alloc
  · have isSome : s.mData.isSome := by
      rw [live]
      rfl
    refine ⟨_, (if_pos (by omega)).trans ((if_pos isSome).trans (if_pos ⟨few, rfl⟩)), ?_⟩
    rw [dif_neg room]
    exact ⟨rfl, rfl, List.length_replicate.symm⟩

theorem setLoop_data (f : Nat → Bool) (start length : Nat) :
    ((List.range length).foldl (fun w i => BitVector.set w (start + i) (f i)) v).mData =
      (List.range length).foldl (fun data i => setBit data (start + i) (f i)) v.mData := by
  induction length with
  | zero => rfl
  | succ length ih =>
    rw [List.range_succ, List.foldl_append, List.foldl_append, ← ih]
    rfl

theorem append_holds (valid : s.Valid) (holds : s.Holds v) {data : List Byte}
    {length offset : Nat} (small : v.mNumBits + length < 2 ^ 64)
    (covers : offset + length ≤ 8 * data.length) (real : data.length < 2 ^ 60)
    (run : v.append data length offset = .ok w) :
    ∃ t, s.append zeros (.other (some data)) length offset = .returned t () ∧
      t.Holds w := by
  obtain ⟨live, numBits, alloc⟩ := holds
  unfold BitVector.append at run
  obtain ⟨r, resized, run⟩ := Result.bind_ok run
  obtain ⟨t, raw, held⟩ := resize_holds valid ⟨live, numBits, alloc⟩ resized
  obtain ⟨live', numBits', alloc'⟩ := held
  have room := r.fits
  rw [(BitVector.resize_ok resized).1] at room
  unfold append
  rw [numBits, Nat.mod_eq_of_lt small, raw, Outcome.bind_returned]
  have reads : (Source.other (some data)).read (t.mAllocBytes != s.mAllocBytes) =
      fun _ => some data := rfl
  by_cases shifting : offset % 8 ≠ 0 ∨ v.mNumBits % 8 ≠ 0
  · rw [if_pos shifting] at run
    cases run
    obtain ⟨sameBits, sameLength, -⟩ := BitVector.get_setLoop r v.mNumBits
      (fun i => bit data (offset + i)) length (by omega)
    have inRange : bitLoop (fun _ => data) v.mNumBits offset length r.mData =
        (List.range length).foldl
          (fun written i => setBit written (v.mNumBits + i) (bit data (offset + i))) r.mData := by
      refine List.foldl_ext _ _ _ fun written i listed => ?_
      have below := List.mem_range.mp listed
      rw [Nat.mod_eq_of_lt (by omega), Nat.mod_eq_of_lt (by omega)]
    have loop : appendBits (fun _ => some data) v.mNumBits offset length (some r.mData) =
        .returned (some (bitLoop (fun _ => data) v.mNumBits offset length r.mData)) () := by
      apply appendBits_eq (by omega)
      intro current _ i below
      have less := Nat.mod_le (offset + i) (2 ^ 64)
      exact within_some (by omega)
    rw [reads, if_pos shifting, live', loop]
    refine ⟨_, rfl, ?_, numBits'.trans sameBits.symm, alloc'.trans sameLength.symm⟩
    rw [setLoop_data, ← inRange]
  · rw [if_neg shifting] at run
    cases run
    have whole : (length + 7) % 2 ^ 64 / 8 = (length + 7) / 8 := by omega
    have inside : Within t.mData (v.mNumBits / 8) ((length + 7) / 8) ∧
        Within (some data) (offset / 8) ((length + 7) / 8) := by
      rw [live']
      exact ⟨within_some (by omega), within_some (by omega)⟩
    have taken : (data.drop (offset / 8)).takeD ((length + 7) / 8) 0 =
        (data.drop (offset / 8)).take ((length + 7) / 8) :=
      List.takeD_eq_take _ (by rw [List.length_drop]; omega)
    rw [reads, if_neg shifting, whole, if_pos inside, live', memcpyBuffer_some]
    refine ⟨_, rfl, ?_, numBits', ?_⟩
    · change _ = some (memcpy r.mData _ _)
      rw [taken]
      rfl
    · change t.mAllocBytes = (memcpy r.mData _ _).length
      rw [memcpy_length]
      exact alloc'

end Refinement

/-- The calls on the vectors of a program; the constructors make vector `i` anew. -/
inductive Call (ι : Type) where
  | construct (i : ι)
  | constructSize (i : ι) (n : UInt64)
  | constructCopy (i K : ι)
  | constructMove (i rref : ι)
  | constructData (i : ι) (data : List Byte) (length : UInt64)
  | reset (i : ι) (new_nbits : UInt64)
  | resize (i : ι) (newSize : UInt64)
  | reserve (i : ι) (bits : UInt64)
  | append (i : ι) (data : List Byte) (length offset : UInt64)
  | appendVector (i k : ι)
  | copy (i src : ι) (idx length : UInt64)
  | assignBlock (i : ι) (b : Block)
  | assign (i K : ι)

section Calls

variable {ι : Type} [DecidableEq ι]

def sourceOf (vectors : ι → BitVectorMembers) (i j : ι) : Source :=
  if i = j then .own else .other (vectors j).mData

def Call.object : Call ι → ι
  | .construct i | .constructSize i _ | .constructCopy i _ | .constructMove i _
  | .constructData i _ _ | .reset i _ | .resize i _ | .reserve i _ | .append i _ _ _
  | .appendVector i _ | .copy i _ _ _ | .assignBlock i _ | .assign i _ => i

def method (a : Allocator) (vectors : ι → BitVectorMembers) (call : Call ι)
    (s : BitVectorMembers) : Outcome BitVectorMembers Unit :=
  match call with
  | .construct _ => .returned null ()
  | .constructSize _ n => null.reset a n.toNat
  | .constructCopy _ K => null.assign a (vectors K).mNumBits (.other (vectors K).mData)
  | .constructMove _ rref => .returned (vectors rref) ()
  | .constructData _ data length => null.append a (.other (some data)) length.toNat 0
  | .reset _ new_nbits => s.reset a new_nbits.toNat
  | .resize _ newSize => s.resize a newSize.toNat
  | .reserve _ bits => s.reserve a bits.toNat
  | .append _ data length offset =>
    s.append a (.other (some data)) length.toNat offset.toNat
  | .appendVector i k => s.append a (sourceOf vectors i k) (vectors k).mNumBits 0
  | .copy i src idx length => s.copy a (sourceOf vectors i src) idx.toNat length.toNat
  | .assignBlock _ b => s.assign a 128 (.other (some (byteArray b)))
  | .assign i K => s.assign a (vectors K).mNumBits (sourceOf vectors i K)

/-- The vector that is moved from is left null. -/
def step (a : Allocator) (vectors : ι → BitVectorMembers) (call : Call ι) :
    Outcome (ι → BitVectorMembers) Unit :=
  (Outcome.on call.object (method a vectors call) vectors).bind fun after _ =>
    match call with
    | .constructMove _ rref => Outcome.on rref (fun _ => .returned null ()) after
    | _ => .returned after ()

/-- The calls that meet neither the conversion to `int` nor a refusal in `reset`, and that are given
    memory with the bits they copy. -/
def Safe (a : Allocator) (vectors : ι → BitVectorMembers) : Call ι → Prop
  | .construct _ => True
  | .constructSize _ n => ResetSafe a null n.toNat
  | .constructCopy i K => i ≠ K ∧ ResetSafe a null (vectors K).mNumBits
  | .constructMove i rref => i ≠ rref
  | .constructData _ data length => AppendSafe a null (.other (some data)) length.toNat 0
  | .reset i new_nbits => ResetSafe a (vectors i) new_nbits.toNat
  | .resize i newSize => ResizeSafe a (vectors i) newSize.toNat
  | .reserve _ bits => bits.toNat % 2 ^ 32 + 8 < 2 ^ 31 ∨ 2 ^ 31 ≤ bits.toNat % 2 ^ 32
  | .append i data length offset =>
    AppendSafe a (vectors i) (.other (some data)) length.toNat offset.toNat
  | .appendVector i k => AppendSafe a (vectors i) (sourceOf vectors i k) (vectors k).mNumBits 0
  | .copy i src idx length =>
    AppendSafe a { vectors i with mNumBits := 0 } (sourceOf vectors i src) length.toNat idx.toNat
  | .assignBlock i _ => ResetSafe a (vectors i) 128
  | .assign i K => ResetSafe a (vectors i) (vectors K).mNumBits

variable {vectors : ι → BitVectorMembers}

theorem sourceOf_covers (valid : ∀ i, (vectors i).Valid) (i K : ι)
    (buffer : Option (List Byte)) (same : sourceOf vectors i K = .other buffer) :
    ∃ bytes ∈ buffer, ((vectors K).mNumBits + 7) / 8 ≤ bytes.length := by
  obtain ⟨bytes, live, sized⟩ := (valid K).buffer
  unfold sourceOf at same
  split at same
  · cases same
  · cases same
    exact ⟨bytes, live, sized ▸ (valid K).bits⟩

theorem method_keeps (valid : ∀ i, (vectors i).Valid) {call : Call ι}
    (safe : Safe a vectors call) :
    (method a vectors call (vectors call.object)).Keeps Valid := by
  cases call with
  | construct i => exact null_valid
  | constructSize i n =>
    exact (reset_ends null_valid safe).mono (fun _ _ ends => ends.1) fun _ => id
  | constructCopy i K =>
    refine assign_keeps null_valid safe.2 fun buffer same => ?_
    obtain ⟨bytes, live, sized⟩ := (valid K).buffer
    cases same
    exact ⟨bytes, live, sized ▸ (valid K).bits⟩
  | constructMove i rref => exact valid rref
  | constructData i data length => exact append_keeps null_valid safe
  | reset i n => exact (reset_ends (valid i) safe).mono (fun _ _ ends => ends.1) fun _ => id
  | resize i n => exact (resize_keeps_iff (valid i) _).mpr safe
  | reserve i n => exact reserve_keeps (valid i) safe
  | append i data length offset => exact append_keeps (valid i) safe
  | appendVector i k => exact append_keeps (valid i) safe
  | copy i src idx length => exact copy_keeps (valid i) safe
  | assignBlock i b =>
    refine assign_keeps (valid i) safe fun buffer same => ?_
    cases same
    exact ⟨_, rfl, by rw [byteArray_length]⟩
  | assign i K => exact assign_keeps (valid i) safe (sourceOf_covers valid i K)

theorem step_keeps (valid : ∀ i, (vectors i).Valid) {call : Call ι}
    (safe : Safe a vectors call) :
    (step a vectors call).Keeps fun after => ∀ i, (after i).Valid := by
  refine (Outcome.Keeps.on valid (method_keeps valid safe)).bind ?_
  intro after _ valid'
  split
  · exact Outcome.Keeps.on valid' null_valid
  · exact valid'

/-- The vectors after a run of safe calls, each with its own answers of the allocator; a call that
    throws is a step as well. -/
abbrev Reaches (vectors after : ι → BitVectorMembers) : Prop :=
  Run.Along (fun vectors (c : Allocator × Call ι) => (step c.1 vectors c.2).state?)
    (fun vectors c => Safe c.1 vectors c.2) vectors after

end Calls

end BitVectorMembers

end BatchDualEx
