import BatchDualEx.Lib.Xor

/- The 128-bit `block` of the library and the lane operations used on it. Bits 0..63 are
   the low 64-bit lane, so `_mm_set_epi64x hi lo` is `hi ++ lo`. -/
namespace BatchDualEx

abbrev Block := BitVec 128

def mmSetEpi64x (hi lo : BitVec 64) : Block := hi ++ lo
def mmSet1Epi64x (lane : BitVec 64) : Block := lane ++ lane

def Block.lo (b : Block) : BitVec 64 := b.extractLsb' 0 64
def Block.hi (b : Block) : BitVec 64 := b.extractLsb' 64 64

/-- `_mm_slli_epi64`: both lanes shift, nothing crosses from the low to the high one. -/
def mmSlliEpi64 (b : Block) (n : Nat) : Block := mmSetEpi64x (b.hi <<< n) (b.lo <<< n)

/-- `_mm_slli_si128` and `_mm_srli_si128` count bytes. -/
def mmSlliSi128 (a : Block) (imm8 : Nat) : Block := a <<< (8 * imm8)
def mmSrliSi128 (a : Block) (imm8 : Nat) : Block := a >>> (8 * imm8)

/-- `operator+` on blocks is lane-wise addition without a carry between the lanes. -/
def mmAddEpi64 (a b : Block) : Block := mmSetEpi64x (a.hi + b.hi) (a.lo + b.lo)

def zeroBlock : Block := mmSetEpi64x 0 0
def oneBlock : Block := mmSetEpi64x 0 1

@[simp] theorem zeroBlock_eq : zeroBlock = 0#128 := by decide

/-- `ByteArray(b)[0] & 1`, the bottom bit used for point-and-permute. -/
def permuteBit (b : Block) : Bool := b.getLsbD 0

@[simp] theorem permuteBit_xor (a b : Block) :
    permuteBit (a ^^^ b) = (permuteBit a ^^ permuteBit b) := by
  simp [permuteBit]

@[simp] theorem permuteBit_zero : permuteBit 0#128 = false := by decide

theorem permuteBit_select {delta : Block} (odd : permuteBit delta = true) (bit : Bool) :
    permuteBit (WordXor.select bit delta) = bit := by
  cases bit
  · simp
  · simpa using odd

inductive Role where
  | first
  | second
  deriving DecidableEq, Repr

def Role.other : Role → Role
  | .first => .second
  | .second => .first

@[simp] theorem Role.other_other (r : Role) : r.other.other = r := by cases r <;> rfl

end BatchDualEx
