import BatchDualEx.Circuit.Circuit

/- `KProbeMatrix`: decoding an encoded input, of bits or of labels, under `[M | I]`. -/
namespace BatchDualEx

open WordXor

structure KProbeMatrix where
  mMtx : List (List Bool)
  mEncodingSize : Nat
  deriving DecidableEq, Repr

namespace KProbeMatrix

variable (M : KProbeMatrix)

def encodingSize : Nat := M.mEncodingSize

/-- `n`, the number of decoded bits, and `h = m - n`, the number of masked ones. -/
def n : Nat := M.mMtx.length
def h : Nat := M.mEncodingSize - M.mMtx.length

def entry (i j : Nat) : Bool := (M.mMtx.getD i []).getD j false

def decodeBit (encoding : List Bool) (i : Nat) : Bool :=
  (List.range M.h).foldl (fun acc j => acc ^^ (M.entry i j && encoding.getD j false))
    (encoding.getD (M.h + i) false)

def decodeBits (encoding : List Bool) : Except Fault (List Bool) :=
  if encoding.length ≠ M.mEncodingSize then .error (.thrown "")
  else .ok ((List.range M.n).map (M.decodeBit encoding))

def decodeLabel (encoding : List Block) (i : Nat) : Block :=
  (List.range M.h).foldl (fun acc j => acc ^^^ select (M.entry i j) (encoding.getD j zeroBlock))
    (encoding.getD (M.h + i) zeroBlock)

def decodeLabels (encoding : List Block) : Except Fault (List Block) :=
  if encoding.length ≠ M.mEncodingSize then .error (.thrown "")
  else .ok ((List.range M.n).map (M.decodeLabel encoding))

theorem decodeBits_ok {M : KProbeMatrix} {encoding out : List Bool}
    (decoded : M.decodeBits encoding = .ok out) :
    encoding.length = M.mEncodingSize ∧ out = (List.range M.n).map (M.decodeBit encoding) := by
  unfold decodeBits at decoded
  split at decoded
  · exact nomatch decoded
  · rename_i sized
    cases decoded
    exact ⟨not_not.mp sized, rfl⟩

theorem decodeLabels_ok {M : KProbeMatrix} {encoding out : List Block}
    (decoded : M.decodeLabels encoding = .ok out) :
    encoding.length = M.mEncodingSize ∧ out = (List.range M.n).map (M.decodeLabel encoding) := by
  unfold decodeLabels at decoded
  split at decoded
  · exact nomatch decoded
  · rename_i sized
    cases decoded
    exact ⟨not_not.mp sized, rfl⟩

theorem decodeLabel_shift {labels zero : List Block} {choices : List Bool} {offset : Block}
    {i : Nat} (row : M.h + i < M.mEncodingSize)
    (shifted : ∀ t < M.mEncodingSize, labels.getD t zeroBlock =
      zero.getD t zeroBlock ^^^ select (choices.getD t false) offset) :
    M.decodeLabel labels i = M.decodeLabel zero i ^^^ select (M.decodeBit choices i) offset := by
  unfold decodeLabel decodeBit
  rw [← foldl_select_shift, shifted _ row]
  apply List.foldl_ext
  intro acc j inRow
  have below : j < M.mEncodingSize := by
    have := List.mem_range.mp inRow
    omega
  rw [shifted j below]

theorem decodeBit_xor {left right both : List Bool} {i : Nat}
    (row : M.h + i < M.mEncodingSize)
    (differ : ∀ t < M.mEncodingSize, both.getD t false =
      (left.getD t false ^^ right.getD t false)) :
    M.decodeBit both i = (M.decodeBit left i ^^ M.decodeBit right i) := by
  unfold decodeBit
  rw [← foldl_bits_xor, differ _ row]
  apply List.foldl_ext
  intro acc j inRow
  have below : j < M.mEncodingSize := by
    have := List.mem_range.mp inRow
    omega
  rw [differ j below]

end KProbeMatrix

end BatchDualEx
