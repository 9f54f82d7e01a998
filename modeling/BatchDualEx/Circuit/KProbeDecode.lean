import BatchDualEx.Circuit.Circuit
import BatchDualEx.Common.BitVector
import BatchDualEx.Lib.Systematic

/- The four overloads of `KProbeMatrix::decode`, and the linear map over the field with two
   elements that each of them computes on every bit plane. -/
namespace BatchDualEx

open WordXor Lists

/-- The members of a `KProbeMatrix`, with the rows as they are held. -/
structure KProbeMembers where
  mMtx : List BitVector
  mEncodingSize : Nat
  mSignature : Nat
  deriving DecidableEq

namespace KProbeMembers

variable (M : KProbeMembers)

def h : Nat := M.mEncodingSize - M.mMtx.length

def entry (i j : Nat) : Bool := (M.mMtx.getD i .empty).get j

def decodeBits (encoding input : BitVector) : Except Fault BitVector :=
  if encoding.size ≠ M.mEncodingSize then .error (.thrown "")
  else .ok ((List.range M.mMtx.length).foldl (fun input i =>
    (List.range M.h).foldl
      (fun input j => input.set i (input.get i ^^ (M.entry i j && encoding.get j)))
      (input.set i (encoding.get (M.h + i)))) (input.reset M.mMtx.length))

/-- The overload with an iterator: `input` stands at `start` in a container `dest`. -/
def decodeIterator (encoding dest : List Block) (start : Nat) : Except Fault (List Block) :=
  if encoding.length ≠ M.mEncodingSize then .error (.thrown "")
  else if dest.length < start + M.mMtx.length then .error .undefined
  else .ok ((List.range M.mMtx.length).foldl (fun dest i =>
    (List.range M.h).foldl
      (fun dest j => dest.set (start + i) (dest.getD (start + i) zeroBlock ^^^
        select (M.entry i j) (encoding.getD j zeroBlock)))
      (dest.set (start + i) (encoding.getD (M.h + i) zeroBlock))) dest)

def decodeBlocks (encoding : List Block) : Except Fault (List Block) :=
  M.decodeIterator encoding (List.replicate M.mMtx.length zeroBlock) 0

def decodePairs (encoding : List (Block × Block)) : Except Fault (List (Block × Block)) :=
  if encoding.length ≠ M.mEncodingSize then .error (.thrown "")
  else .ok ((List.range M.mMtx.length).foldl (fun input i =>
    (List.range M.h).foldl
      (fun input j =>
        let old := input.getD i (zeroBlock, zeroBlock)
        let masked := encoding.getD j (zeroBlock, zeroBlock)
        input.set i (old.1 ^^^ select (M.entry i j) masked.1,
          old.2 ^^^ select (M.entry i j) masked.2))
      (input.set i (encoding.getD (M.h + i) (zeroBlock, zeroBlock))))
    (List.replicate M.mMtx.length (zeroBlock, zeroBlock)))

end KProbeMembers

structure KProbeCode (n h : Nat) extends KProbeMembers where
  rows : mMtx.length = n
  width : ∀ row ∈ mMtx, row.mNumBits = h
  encodingSize : mEncodingSize = h + n

namespace KProbeCode

open Systematic

variable {n h : Nat} (M : KProbeCode n h)

def matrix : Matrix (Fin n) (Fin h) (ZMod 2) := fun i j => ofBit (M.entry i j)

theorem h_eq : M.toKProbeMembers.h = h := by
  unfold KProbeMembers.h
  rw [M.encodingSize, M.rows, Nat.add_sub_cancel]

/-- `M * e[0..h) xor e[h..h+n)`. -/
def Computes (e out : Nat → Bool) : Prop :=
  ∀ i : Fin n, ofBit (out i) = Systematic.apply M.matrix (fun t => ofBit (e t)) i

/-- What is expected of an overload: `bit p e` and `bit' p out` are the bit planes of encodings and
    results, and the results have a certain shape. -/
structure Decodes {P α β : Type} (size : α → Nat) (bit : P → α → Nat → Bool) (xor : α → α → α)
    (shape : β → Prop) (bit' : P → β → Nat → Bool) (run : α → Except Fault β) : Prop where
  computes : ∀ e, size e = h + n → ∃ out, run e = .ok out ∧ shape out ∧
    ∀ p, M.Computes (bit p e) (bit' p out)
  homomorphic : ∀ e e', size e = h + n → size e' = h + n → ∃ out out' both,
    run e = .ok out ∧ run e' = .ok out' ∧ run (xor e e') = .ok both ∧
      ∀ p, ∀ i < n, bit' p both i = (bit' p out i ^^ bit' p out' i)
  refuses : ∀ e, size e ≠ h + n → run e = .error (.thrown "")

variable {M}

/-- The map is linear, so that a result of the sum is the sum of the results. -/
theorem Computes.xor {e e' both out out' out'' : Nat → Bool} (left : M.Computes e out)
    (right : M.Computes e' out') (sum : M.Computes both out'')
    (differ : ∀ t < h + n, both t = (e t ^^ e' t)) :
    ∀ i < n, out'' i = (out i ^^ out' i) := by
  intro i inside
  have bits : (fun t : Fin (h + n) => ofBit (both t)) =
      (fun t : Fin (h + n) => ofBit (e t)) + fun t : Fin (h + n) => ofBit (e' t) := by
    funext t
    rw [differ t t.isLt, ofBit_xor]
    rfl
  have rows := sum ⟨i, inside⟩
  rw [bits, map_add, Pi.add_apply, ← left ⟨i, inside⟩, ← right ⟨i, inside⟩, ← ofBit_xor] at rows
  exact ofBit_injective rows

theorem Decodes.of_computes {P α β : Type} {size : α → Nat} {bit : P → α → Nat → Bool}
    {xor : α → α → α} {shape : β → Prop} {bit' : P → β → Nat → Bool} {run : α → Except Fault β}
    (computes : ∀ e, size e = h + n → ∃ out, run e = .ok out ∧ shape out ∧
      ∀ p, M.Computes (bit p e) (bit' p out))
    (refuses : ∀ e, size e ≠ h + n → run e = .error (.thrown ""))
    (sums : ∀ e e', size e = h + n → size e' = h + n → size (xor e e') = h + n ∧
      ∀ p, ∀ t < h + n, bit p (xor e e') t = (bit p e t ^^ bit p e' t)) :
    M.Decodes size bit xor shape bit' run where
  computes := computes
  refuses := refuses
  homomorphic := by
    intro e e' sized sized'
    obtain ⟨sizedBoth, differ⟩ := sums e e' sized sized'
    obtain ⟨out, run, -, left⟩ := computes e sized
    obtain ⟨out', run', -, right⟩ := computes e' sized'
    obtain ⟨both, runBoth, -, sum⟩ := computes _ sizedBoth
    refine ⟨out, out', both, run, run', runBoth, ?_⟩
    intro p
    exact (left p).xor (right p) (sum p) (differ p)

variable (M)

theorem row_eq (e : Nat → Bool) (i : Fin n) :
    ofBit ((List.range M.h).foldl (fun acc j => acc ^^ (M.entry i j && e j)) (e (M.h + i))) =
      Systematic.apply M.matrix (fun t => ofBit (e t)) i := by
  rw [M.h_eq, ofBit_foldl, apply_row]
  rfl

section Bits

theorem bitRow_get (encoding input : BitVector) {i : Nat} (inside : i < 8 * input.mData.length) :
    let out := (List.range M.h).foldl
      (fun input j => input.set i (input.get i ^^ (M.entry i j && encoding.get j)))
      (input.set i (encoding.get (M.h + i)))
    out.mNumBits = input.mNumBits ∧ out.mData.length = input.mData.length ∧
      ∀ k, out.get k = if k = i then (List.range M.h).foldl
        (fun acc j => acc ^^ (M.entry i j && encoding.get j)) (encoding.get (M.h + i))
        else input.get k := by
  suffices loop : ∀ (js : List Nat) (v : BitVector) (a : Bool), v.mNumBits = input.mNumBits →
      v.mData.length = input.mData.length → (∀ k, v.get k = if k = i then a else input.get k) →
      (js.foldl (fun v j => v.set i (v.get i ^^ (M.entry i j && encoding.get j))) v).mNumBits =
          input.mNumBits ∧
        (js.foldl (fun v j => v.set i (v.get i ^^ (M.entry i j && encoding.get j)))
          v).mData.length = input.mData.length ∧
        ∀ k, (js.foldl (fun v j => v.set i (v.get i ^^ (M.entry i j && encoding.get j))) v).get k =
          if k = i then js.foldl (fun acc j => acc ^^ (M.entry i j && encoding.get j)) a
          else input.get k by
    apply loop
    · rfl
    · exact Bytes.setBit_length _ _ _
    · intro k
      exact BitVector.get_set inside _ k
  intro js
  induction js with
  | nil =>
    intro v a numBits sized bits
    exact ⟨numBits, sized, bits⟩
  | cons j js ih =>
    intro v a numBits sized bits
    rw [List.foldl_cons, List.foldl_cons]
    apply ih
    · exact numBits
    · exact (Bytes.setBit_length _ _ _).trans sized
    · intro k
      rw [BitVector.get_set (by omega), bits i, if_pos rfl]
      by_cases here : k = i
      · rw [if_pos here, if_pos here]
      · rw [if_neg here, if_neg here, bits k, if_neg here]

theorem decodeBits_computes (encoding input : BitVector) (sized : encoding.size = h + n) :
    ∃ out, M.decodeBits encoding input = .ok out ∧ out.size = n ∧
      M.Computes encoding.get out.get := by
  suffices loop : ∀ k ≤ n, ∃ out : BitVector, (List.range k).foldl (fun input i =>
      (List.range M.h).foldl
        (fun input j => input.set i (input.get i ^^ (M.entry i j && encoding.get j)))
        (input.set i (encoding.get (M.h + i)))) (input.reset n) = out ∧ out.mNumBits = n ∧
      ∀ i < k, out.get i = (List.range M.h).foldl
        (fun acc j => acc ^^ (M.entry i j && encoding.get j)) (encoding.get (M.h + i)) by
    obtain ⟨out, run, size, bits⟩ := loop n le_rfl
    refine ⟨out, ?_, size, ?_⟩
    · unfold KProbeMembers.decodeBits
      rw [if_neg (by rw [M.encodingSize]; exact not_not.mpr sized), M.rows, run]
    · intro i
      rw [bits i i.isLt]
      exact M.row_eq encoding.get i
  intro k
  induction k with
  | zero =>
    intro _
    refine ⟨_, rfl, BitVector.reset_numBits input n, ?_⟩
    intro i none
    exact absurd none (Nat.not_lt_zero i)
  | succ k ih =>
    intro within
    obtain ⟨out, run, size, bits⟩ := ih (by omega)
    have fits := out.fits
    obtain ⟨numBits, -, row⟩ := M.bitRow_get encoding out (i := k) (by omega)
    refine ⟨_, rfl, ?_, ?_⟩
    · rw [List.range_succ, List.foldl_append, run]
      exact numBits.trans size
    · intro i below
      rw [List.range_succ, List.foldl_append, run, List.foldl_cons, List.foldl_nil, row i]
      by_cases last : i = k
      · rw [if_pos last, last]
      · rw [if_neg last]
        exact bits i (by omega)

end Bits

section Blocks

def blockPlane (c : Fin 128) (blocks : List Block) (t : Nat) : Bool :=
  (blocks.getD t zeroBlock).getLsbD c

def pairPlane (c : Bool × Fin 128) (pairs : List (Block × Block)) (t : Nat) : Bool :=
  let pair := pairs.getD t (zeroBlock, zeroBlock)
  (if c.1 then pair.2 else pair.1).getLsbD c.2

def rowBlock (label : Nat → Block) (i : Nat) : Block :=
  (List.range M.h).foldl (fun acc j => acc ^^^ select (M.entry i j) (label j)) (label (M.h + i))

theorem rowBlock_plane (label : Nat → Block) (c : Nat) (i : Fin n) :
    ofBit ((M.rowBlock label i).getLsbD c) =
      Systematic.apply M.matrix (fun t => ofBit ((label t).getLsbD c)) i := by
  unfold rowBlock
  rw [getLsbD_foldl]
  exact M.row_eq (fun t => (label t).getLsbD c) i

theorem decodeIterator_writes (encoding dest : List Block) (start : Nat)
    (sized : encoding.length = h + n) (room : start + n ≤ dest.length) :
    ∃ out, M.decodeIterator encoding dest start = .ok out ∧ out.length = dest.length ∧
      ∀ k, out.getD k zeroBlock = if start ≤ k ∧ k < start + n
        then M.rowBlock (encoding.getD · zeroBlock) (k - start) else dest.getD k zeroBlock := by
  obtain ⟨length, entries⟩ := foldl_set_range dest start n
    (fun dest i => (List.range M.h).foldl
      (fun dest j => dest.set (start + i) (dest.getD (start + i) zeroBlock ^^^
        select (M.entry i j) (encoding.getD j zeroBlock)))
      (dest.set (start + i) (encoding.getD (M.h + i) zeroBlock)))
    (M.rowBlock (encoding.getD · zeroBlock)) zeroBlock
    (fun ys i inside => foldl_set_same inside
      (fun acc j => acc ^^^ select (M.entry i j) (encoding.getD j zeroBlock)) _ _ _) room
  refine ⟨_, ?_, length, entries⟩
  unfold KProbeMembers.decodeIterator
  rw [if_neg (by rw [M.encodingSize]; exact not_not.mpr sized), M.rows,
    if_neg (Nat.not_lt.mpr room)]

theorem decodePairs_writes (encoding : List (Block × Block)) (sized : encoding.length = h + n) :
    ∃ out, M.decodePairs encoding = .ok out ∧ out.length = n ∧
      ∀ i < n, out.getD i (zeroBlock, zeroBlock) =
        (M.rowBlock (fun t => (encoding.getD t (zeroBlock, zeroBlock)).1) i,
          M.rowBlock (fun t => (encoding.getD t (zeroBlock, zeroBlock)).2) i) := by
  have sides (label : Nat → Block × Block) (i : Nat) (js : List Nat) (first : Block × Block) :
      js.foldl (fun acc j => (acc.1 ^^^ select (M.entry i j) (label j).1,
          acc.2 ^^^ select (M.entry i j) (label j).2)) first =
        (js.foldl (fun acc j => acc ^^^ select (M.entry i j) (label j).1) first.1,
          js.foldl (fun acc j => acc ^^^ select (M.entry i j) (label j).2) first.2) := by
    induction js generalizing first with
    | nil => rfl
    | cons j js ih =>
      simp only [List.foldl_cons]
      rw [ih]
  obtain ⟨length, entries⟩ := foldl_set_range (List.replicate n (zeroBlock, zeroBlock)) 0 n
    (fun input i => (List.range M.h).foldl
      (fun input j => input.set i ((input.getD i (zeroBlock, zeroBlock)).1 ^^^
          select (M.entry i j) (encoding.getD j (zeroBlock, zeroBlock)).1,
        (input.getD i (zeroBlock, zeroBlock)).2 ^^^
          select (M.entry i j) (encoding.getD j (zeroBlock, zeroBlock)).2))
      (input.set i (encoding.getD (M.h + i) (zeroBlock, zeroBlock))))
    (fun i => (M.rowBlock (fun t => (encoding.getD t (zeroBlock, zeroBlock)).1) i,
      M.rowBlock (fun t => (encoding.getD t (zeroBlock, zeroBlock)).2) i)) (zeroBlock, zeroBlock)
    (fun ys i inside => by
      rw [Nat.zero_add] at inside ⊢
      unfold rowBlock
      rw [← sides (fun t => encoding.getD t (zeroBlock, zeroBlock)) i]
      exact foldl_set_same inside (fun acc j =>
        (acc.1 ^^^ select (M.entry i j) (encoding.getD j (zeroBlock, zeroBlock)).1,
          acc.2 ^^^ select (M.entry i j) (encoding.getD j (zeroBlock, zeroBlock)).2)) _ _ _)
    (by rw [List.length_replicate, Nat.zero_add])
  refine ⟨_, ?_, length.trans List.length_replicate, ?_⟩
  · unfold KProbeMembers.decodePairs
    rw [if_neg (by rw [M.encodingSize]; exact not_not.mpr sized), M.rows]
  · intro i inside
    rw [entries i, if_pos (by omega), Nat.sub_zero]

end Blocks

section Overloads

def xorBits (a b : BitVector) : BitVector := (BitVector.ofCopy a).xorAssign b

def xorBlocks (a b : List Block) : List Block := List.zipWith (· ^^^ ·) a b

def xorPairs (a b : List (Block × Block)) : List (Block × Block) :=
  List.zipWith (fun p q => (p.1 ^^^ q.1, p.2 ^^^ q.2)) a b

theorem decodeBits_decodes (input : BitVector) :
    M.Decodes (P := Unit) BitVector.size (fun _ => BitVector.get) xorBits
      (fun out => out.size = n) (fun _ => BitVector.get) (M.decodeBits · input) := by
  apply Decodes.of_computes
  · intro e sized
    obtain ⟨out, run, size, computes⟩ := M.decodeBits_computes e input sized
    exact ⟨out, run, size, fun _ => computes⟩
  · intro e sized
    rw [← M.encodingSize] at sized
    exact if_pos sized
  · intro e e' sized _
    constructor
    · exact (BitVector.ofCopy_numBits e).trans sized
    · intro _ t below
      have size : (BitVector.ofCopy e).mNumBits = e.mNumBits := BitVector.ofCopy_numBits e
      have count : e.mNumBits = h + n := sized
      have inside : t < 8 * e.sizeBytes := by
        unfold BitVector.sizeBytes
        omega
      have inside' : t < 8 * (BitVector.ofCopy e).sizeBytes := by
        unfold BitVector.sizeBytes
        omega
      unfold xorBits
      rw [BitVector.get_xorAssign e' inside', BitVector.get_ofCopy inside]

theorem blockPlane_xor (c : Fin 128) {a b : List Block} (same : a.length = b.length) (t : Nat) :
    blockPlane c (xorBlocks a b) t = (blockPlane c a t ^^ blockPlane c b t) := by
  unfold blockPlane xorBlocks
  by_cases inside : t < a.length
  · have sum : t < (List.zipWith (· ^^^ ·) a b).length := by
      rw [List.length_zipWith]
      omega
    rw [List.getD_eq_getElem _ _ sum, List.getElem_zipWith, List.getD_eq_getElem _ _ inside,
      List.getD_eq_getElem b _ (by omega), BitVec.getLsbD_xor]
  · rw [List.getD_eq_default _ _ (by rw [List.length_zipWith]; omega),
      List.getD_eq_default _ _ (by omega), List.getD_eq_default _ _ (by omega)]
    simp

def Outside (dest : List Block) (start count : Nat) (out : List Block) : Prop :=
  out.length = dest.length ∧
    ∀ k, k < start ∨ start + count ≤ k → out.getD k zeroBlock = dest.getD k zeroBlock

theorem decodeIterator_decodes (dest : List Block) (start : Nat)
    (room : start + n ≤ dest.length) :
    M.Decodes List.length blockPlane xorBlocks (Outside dest start n)
      (fun c out i => blockPlane c out (start + i)) (M.decodeIterator · dest start) := by
  apply Decodes.of_computes
  · intro e sized
    obtain ⟨out, run, length, entries⟩ := M.decodeIterator_writes e dest start sized room
    refine ⟨out, run, ⟨length, ?_⟩, ?_⟩
    · intro k beyond
      rw [entries k, if_neg (by omega)]
    · intro c i
      have inside := i.isLt
      unfold blockPlane
      simp only
      rw [entries, if_pos (by omega), Nat.add_sub_cancel_left]
      exact M.rowBlock_plane (e.getD · zeroBlock) c i
  · intro e sized
    rw [← M.encodingSize] at sized
    exact if_pos sized
  · intro e e' sized sized'
    constructor
    · unfold xorBlocks
      rw [List.length_zipWith]
      omega
    · intro c t _
      exact blockPlane_xor c (sized.trans sized'.symm) t

theorem decodeBlocks_decodes :
    M.Decodes List.length blockPlane xorBlocks (fun out => out.length = n) blockPlane
      M.decodeBlocks := by
  have zeros : (List.replicate M.mMtx.length zeroBlock).length = n := by
    rw [List.length_replicate, M.rows]
  have iterator := M.decodeIterator_decodes (List.replicate M.mMtx.length zeroBlock) 0 (by omega)
  simp only [Nat.zero_add] at iterator
  refine ⟨?_, iterator.homomorphic, iterator.refuses⟩
  intro e sized
  obtain ⟨out, run, shape, computes⟩ := iterator.computes e sized
  exact ⟨out, run, shape.1.trans zeros, computes⟩

theorem pairPlane_eq (side : Bool) (c : Fin 128) (pairs : List (Block × Block)) (t : Nat) :
    pairPlane (side, c) pairs t =
      blockPlane c (pairs.map fun p => if side then p.2 else p.1) t := by
  unfold pairPlane blockPlane
  by_cases inside : t < pairs.length
  · rw [getD_map _ inside (zeroBlock, zeroBlock)]
  · rw [List.getD_eq_default _ _ (by omega),
      List.getD_eq_default _ _ (by rw [List.length_map]; omega)]
    cases side <;> rfl

theorem decodePairs_decodes :
    M.Decodes List.length pairPlane xorPairs (fun out => out.length = n) pairPlane
      M.decodePairs := by
  apply Decodes.of_computes
  · intro e sized
    obtain ⟨out, run, length, entries⟩ := M.decodePairs_writes e sized
    refine ⟨out, run, length, ?_⟩
    intro c i
    have row := M.rowBlock_plane (fun t =>
      if c.1 then (e.getD t (zeroBlock, zeroBlock)).2 else (e.getD t (zeroBlock, zeroBlock)).1)
      c.2 i
    unfold pairPlane
    simp only
    rw [entries i i.isLt]
    cases side : c.1 <;> simp only [side] at row ⊢ <;> exact row
  · intro e sized
    rw [← M.encodingSize] at sized
    exact if_pos sized
  · intro e e' sized sized'
    constructor
    · unfold xorPairs
      rw [List.length_zipWith]
      omega
    · intro c t _
      obtain ⟨side, c⟩ := c
      have sum : (xorPairs e e').map (fun p => if side then p.2 else p.1) =
          xorBlocks (e.map fun p => if side then p.2 else p.1)
            (e'.map fun p => if side then p.2 else p.1) := by
        unfold xorPairs xorBlocks
        rw [List.map_zipWith, List.zipWith_map]
        cases side <;> rfl
      rw [pairPlane_eq, pairPlane_eq, pairPlane_eq, sum]
      apply blockPlane_xor
      rw [List.length_map, List.length_map]
      exact sized.trans sized'.symm

/-- The four overloads compute one map on every bit plane, each of them is linear, and each
    refuses an encoding of another length. -/
theorem decode_overloads (M : KProbeCode n h) :
    (∀ input, M.Decodes (P := Unit) BitVector.size (fun _ => BitVector.get) xorBits
      (fun out => out.size = n) (fun _ => BitVector.get) (M.decodeBits · input)) ∧
    M.Decodes List.length blockPlane xorBlocks (fun out => out.length = n) blockPlane
      M.decodeBlocks ∧
    (∀ dest start, start + n ≤ dest.length →
      M.Decodes List.length blockPlane xorBlocks (Outside dest start n)
        (fun c out i => blockPlane c out (start + i)) (M.decodeIterator · dest start)) ∧
    M.Decodes List.length pairPlane xorPairs (fun out => out.length = n) pairPlane
      M.decodePairs :=
  ⟨M.decodeBits_decodes, M.decodeBlocks_decodes, M.decodeIterator_decodes,
    M.decodePairs_decodes⟩

theorem padded_fits : (3 + 7) / 8 ≤ [(0xfd : Bytes.Byte)].length := by decide

/-- One row of three bits, with padding behind them. -/
def padded : KProbeMembers := ⟨[⟨[0xfd], 3, padded_fits⟩], 4, 0⟩

theorem padded_rows : padded.mMtx.length = 1 := rfl

theorem padded_width : ∀ row ∈ padded.mMtx, row.mNumBits = 3 := by decide

theorem padded_encodingSize : padded.mEncodingSize = 3 + 1 := rfl

def oneRow : KProbeCode 1 3 := ⟨padded, padded_rows, padded_width, padded_encodingSize⟩

theorem decode_overloads_one_row :
    oneRow.Decodes (P := Unit) BitVector.size (fun _ => BitVector.get) xorBits
      (fun out => out.size = 1) (fun _ => BitVector.get) (oneRow.decodeBits · .empty) ∧
    oneRow.Decodes List.length blockPlane xorBlocks (fun out => out.length = 1) blockPlane
      oneRow.decodeBlocks ∧
    oneRow.Decodes List.length blockPlane xorBlocks (Outside [7, 9] 1 1)
        (fun c out i => blockPlane c out (1 + i)) (oneRow.decodeIterator · [7, 9] 1) ∧
    oneRow.Decodes List.length pairPlane xorPairs (fun out => out.length = 1) pairPlane
      oneRow.decodePairs := by
  obtain ⟨bits, blocks, iterator, pairs⟩ := decode_overloads oneRow
  exact ⟨bits .empty, blocks, iterator [7, 9] 1 (by decide), pairs⟩

end Overloads

end KProbeCode

end BatchDualEx
