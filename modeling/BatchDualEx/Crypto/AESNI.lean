import Mathlib.Data.Fintype.EquivFin
import BatchDualEx.Common.Block
import BatchDualEx.Lib.Bytes
import BatchDualEx.Lib.RoundCipher

/- The instructions for AES as Intel specifies them. Byte `i` of a block is in row `i % 4` and
   column `i / 4` of the AES state. -/
namespace BatchDualEx

namespace AESNI

open Bytes WordXor

def byteAt (b : Block) (i : Nat) : Byte := b.extractLsb' (8 * i) 8

def joinBytes (f : Nat → Byte) : (n : Nat) → BitVec (8 * n)
  | 0 => 0
  | n + 1 => (f n ++ joinBytes f n).setWidth (8 * (n + 1))

theorem getLsbD_joinBytes (f : Nat → Byte) {n k : Nat} (inside : k < 8 * n) :
    (joinBytes f n).getLsbD k = (f (k / 8)).getLsbD (k % 8) := by
  induction n with
  | zero => omega
  | succ n ih =>
    rw [joinBytes, BitVec.getLsbD_setWidth, BitVec.getLsbD_append]
    by_cases before : k < 8 * n
    · simpa [inside, before] using ih before
    · simp [inside, before, show k / 8 = n by omega, show k - 8 * n = k % 8 by omega]

def ofBytes (f : Nat → Byte) : Block := joinBytes f 16

theorem byteAt_ofBytes (f : Nat → Byte) {i : Nat} (inside : i < 16) :
    byteAt (ofBytes f) i = f i := by
  apply BitVec.eq_of_getLsbD_eq
  intro j below
  rw [byteAt, BitVec.getLsbD_extractLsb', ofBytes, getLsbD_joinBytes f (by omega),
    show (8 * i + j) / 8 = i by omega, show (8 * i + j) % 8 = j by omega]
  simp [below]

theorem ext_byteAt {a b : Block} (same : ∀ i < 16, byteAt a i = byteAt b i) : a = b := by
  apply BitVec.eq_of_getLsbD_eq
  intro k below
  have byte := congrArg (fun byte => byte.getLsbD (k % 8)) (same (k / 8) (by omega))
  simp only [byteAt, BitVec.getLsbD_extractLsb'] at byte
  rw [show 8 * (k / 8) + k % 8 = k by omega] at byte
  simpa [Nat.mod_lt] using byte

theorem byteAt_xor (a b : Block) (i : Nat) : byteAt (a ^^^ b) i = byteAt a i ^^^ byteAt b i := by
  apply BitVec.eq_of_getLsbD_eq
  intro j below
  simp [byteAt, below]

def sboxTable : List (List Nat) :=
  [[0x63, 0x7C, 0x77, 0x7B, 0xF2, 0x6B, 0x6F, 0xC5, 0x30, 0x01, 0x67, 0x2B, 0xFE, 0xD7, 0xAB, 0x76],
   [0xCA, 0x82, 0xC9, 0x7D, 0xFA, 0x59, 0x47, 0xF0, 0xAD, 0xD4, 0xA2, 0xAF, 0x9C, 0xA4, 0x72, 0xC0],
   [0xB7, 0xFD, 0x93, 0x26, 0x36, 0x3F, 0xF7, 0xCC, 0x34, 0xA5, 0xE5, 0xF1, 0x71, 0xD8, 0x31, 0x15],
   [0x04, 0xC7, 0x23, 0xC3, 0x18, 0x96, 0x05, 0x9A, 0x07, 0x12, 0x80, 0xE2, 0xEB, 0x27, 0xB2, 0x75],
   [0x09, 0x83, 0x2C, 0x1A, 0x1B, 0x6E, 0x5A, 0xA0, 0x52, 0x3B, 0xD6, 0xB3, 0x29, 0xE3, 0x2F, 0x84],
   [0x53, 0xD1, 0x00, 0xED, 0x20, 0xFC, 0xB1, 0x5B, 0x6A, 0xCB, 0xBE, 0x39, 0x4A, 0x4C, 0x58, 0xCF],
   [0xD0, 0xEF, 0xAA, 0xFB, 0x43, 0x4D, 0x33, 0x85, 0x45, 0xF9, 0x02, 0x7F, 0x50, 0x3C, 0x9F, 0xA8],
   [0x51, 0xA3, 0x40, 0x8F, 0x92, 0x9D, 0x38, 0xF5, 0xBC, 0xB6, 0xDA, 0x21, 0x10, 0xFF, 0xF3, 0xD2],
   [0xCD, 0x0C, 0x13, 0xEC, 0x5F, 0x97, 0x44, 0x17, 0xC4, 0xA7, 0x7E, 0x3D, 0x64, 0x5D, 0x19, 0x73],
   [0x60, 0x81, 0x4F, 0xDC, 0x22, 0x2A, 0x90, 0x88, 0x46, 0xEE, 0xB8, 0x14, 0xDE, 0x5E, 0x0B, 0xDB],
   [0xE0, 0x32, 0x3A, 0x0A, 0x49, 0x06, 0x24, 0x5C, 0xC2, 0xD3, 0xAC, 0x62, 0x91, 0x95, 0xE4, 0x79],
   [0xE7, 0xC8, 0x37, 0x6D, 0x8D, 0xD5, 0x4E, 0xA9, 0x6C, 0x56, 0xF4, 0xEA, 0x65, 0x7A, 0xAE, 0x08],
   [0xBA, 0x78, 0x25, 0x2E, 0x1C, 0xA6, 0xB4, 0xC6, 0xE8, 0xDD, 0x74, 0x1F, 0x4B, 0xBD, 0x8B, 0x8A],
   [0x70, 0x3E, 0xB5, 0x66, 0x48, 0x03, 0xF6, 0x0E, 0x61, 0x35, 0x57, 0xB9, 0x86, 0xC1, 0x1D, 0x9E],
   [0xE1, 0xF8, 0x98, 0x11, 0x69, 0xD9, 0x8E, 0x94, 0x9B, 0x1E, 0x87, 0xE9, 0xCE, 0x55, 0x28, 0xDF],
   [0x8C, 0xA1, 0x89, 0x0D, 0xBF, 0xE6, 0x42, 0x68, 0x41, 0x99, 0x2D, 0x0F, 0xB0, 0x54, 0xBB, 0x16]]

def invSboxTable : List (List Nat) :=
  [[0x52, 0x09, 0x6A, 0xD5, 0x30, 0x36, 0xA5, 0x38, 0xBF, 0x40, 0xA3, 0x9E, 0x81, 0xF3, 0xD7, 0xFB],
   [0x7C, 0xE3, 0x39, 0x82, 0x9B, 0x2F, 0xFF, 0x87, 0x34, 0x8E, 0x43, 0x44, 0xC4, 0xDE, 0xE9, 0xCB],
   [0x54, 0x7B, 0x94, 0x32, 0xA6, 0xC2, 0x23, 0x3D, 0xEE, 0x4C, 0x95, 0x0B, 0x42, 0xFA, 0xC3, 0x4E],
   [0x08, 0x2E, 0xA1, 0x66, 0x28, 0xD9, 0x24, 0xB2, 0x76, 0x5B, 0xA2, 0x49, 0x6D, 0x8B, 0xD1, 0x25],
   [0x72, 0xF8, 0xF6, 0x64, 0x86, 0x68, 0x98, 0x16, 0xD4, 0xA4, 0x5C, 0xCC, 0x5D, 0x65, 0xB6, 0x92],
   [0x6C, 0x70, 0x48, 0x50, 0xFD, 0xED, 0xB9, 0xDA, 0x5E, 0x15, 0x46, 0x57, 0xA7, 0x8D, 0x9D, 0x84],
   [0x90, 0xD8, 0xAB, 0x00, 0x8C, 0xBC, 0xD3, 0x0A, 0xF7, 0xE4, 0x58, 0x05, 0xB8, 0xB3, 0x45, 0x06],
   [0xD0, 0x2C, 0x1E, 0x8F, 0xCA, 0x3F, 0x0F, 0x02, 0xC1, 0xAF, 0xBD, 0x03, 0x01, 0x13, 0x8A, 0x6B],
   [0x3A, 0x91, 0x11, 0x41, 0x4F, 0x67, 0xDC, 0xEA, 0x97, 0xF2, 0xCF, 0xCE, 0xF0, 0xB4, 0xE6, 0x73],
   [0x96, 0xAC, 0x74, 0x22, 0xE7, 0xAD, 0x35, 0x85, 0xE2, 0xF9, 0x37, 0xE8, 0x1C, 0x75, 0xDF, 0x6E],
   [0x47, 0xF1, 0x1A, 0x71, 0x1D, 0x29, 0xC5, 0x89, 0x6F, 0xB7, 0x62, 0x0E, 0xAA, 0x18, 0xBE, 0x1B],
   [0xFC, 0x56, 0x3E, 0x4B, 0xC6, 0xD2, 0x79, 0x20, 0x9A, 0xDB, 0xC0, 0xFE, 0x78, 0xCD, 0x5A, 0xF4],
   [0x1F, 0xDD, 0xA8, 0x33, 0x88, 0x07, 0xC7, 0x31, 0xB1, 0x12, 0x10, 0x59, 0x27, 0x80, 0xEC, 0x5F],
   [0x60, 0x51, 0x7F, 0xA9, 0x19, 0xB5, 0x4A, 0x0D, 0x2D, 0xE5, 0x7A, 0x9F, 0x93, 0xC9, 0x9C, 0xEF],
   [0xA0, 0xE0, 0x3B, 0x4D, 0xAE, 0x2A, 0xF5, 0xB0, 0xC8, 0xEB, 0xBB, 0x3C, 0x83, 0x53, 0x99, 0x61],
   [0x17, 0x2B, 0x04, 0x7E, 0xBA, 0x77, 0xD6, 0x26, 0xE1, 0x69, 0x14, 0x63, 0x55, 0x21, 0x0C, 0x7D]]

def lookup (table : List (List Nat)) (a : Byte) : Byte :=
  BitVec.ofNat 8 ((table.getD (a.toNat / 16) []).getD (a.toNat % 16) 0)

def sbox (a : Byte) : Byte := lookup sboxTable a

def invSbox (a : Byte) : Byte := lookup invSboxTable a

theorem invSbox_sbox : ∀ a : Byte, invSbox (sbox a) = a := by decide +kernel

theorem sbox_invSbox : ∀ a : Byte, sbox (invSbox a) = a := by decide +kernel

/-- Multiplication by `x` modulo `x^8 + x^4 + x^3 + x + 1`. -/
def xtime (a : Byte) : Byte := a <<< 1 ^^^ select a.msb 0x1B

def mulBytes (c a : Byte) : Byte := xorSum 8 fun i => select (c.getLsbD i) (xtime^[i] a)

theorem xtime_xor (a b : Byte) : xtime (a ^^^ b) = xtime a ^^^ xtime b := by
  rw [xtime, BitVec.shiftLeft_xor_distrib, BitVec.msb_xor, select_xor]
  simp only [xtime, BitVec.xor_assoc, xor_left_comm]

theorem xtime_iterate_xor (i : Nat) (a b : Byte) :
    xtime^[i] (a ^^^ b) = xtime^[i] a ^^^ xtime^[i] b := by
  induction i generalizing a b with
  | zero => rfl
  | succ i ih =>
    rw [Function.iterate_succ_apply, xtime_xor, ih, Function.iterate_succ_apply,
      Function.iterate_succ_apply]

theorem mulBytes_xor (c a b : Byte) : mulBytes c (a ^^^ b) = mulBytes c a ^^^ mulBytes c b := by
  rw [mulBytes, mulBytes, mulBytes, ← xorSum_xor]
  apply xorSum_congr
  intro i _
  rw [xtime_iterate_xor, select_words]

def shiftRows (a : Block) : Block :=
  ofBytes fun i => byteAt a (i % 4 + 4 * ((i / 4 + i % 4) % 4))

def invShiftRows (a : Block) : Block :=
  ofBytes fun i => byteAt a (i % 4 + 4 * ((i / 4 + 4 - i % 4) % 4))

def subBytes (a : Block) : Block := ofBytes fun i => sbox (byteAt a i)

def invSubBytes (a : Block) : Block := ofBytes fun i => invSbox (byteAt a i)

def below (a : Block) (i r : Nat) : Byte := byteAt a (4 * (i / 4) + (i + r) % 4)

def mixColumns (a : Block) : Block :=
  ofBytes fun i =>
    mulBytes 0x02 (below a i 0) ^^^ mulBytes 0x03 (below a i 1) ^^^ below a i 2 ^^^ below a i 3

def invMixColumns (a : Block) : Block :=
  ofBytes fun i =>
    mulBytes 0x0E (below a i 0) ^^^ mulBytes 0x0B (below a i 1) ^^^ mulBytes 0x0D (below a i 2) ^^^
      mulBytes 0x09 (below a i 3)

def mmAesencSi128 (a roundKey : Block) : Block := mixColumns (subBytes (shiftRows a)) ^^^ roundKey

def mmAesenclastSi128 (a roundKey : Block) : Block := subBytes (shiftRows a) ^^^ roundKey

def mmAesdecSi128 (a roundKey : Block) : Block :=
  invMixColumns (invSubBytes (invShiftRows a)) ^^^ roundKey

def mmAesdeclastSi128 (a roundKey : Block) : Block := invSubBytes (invShiftRows a) ^^^ roundKey

def mmAesimcSi128 (a : Block) : Block := invMixColumns a

def laneAt (b : Block) (i : Nat) : BitVec 32 := b.extractLsb' (32 * i) 32

def ofLanes (x3 x2 x1 x0 : BitVec 32) : Block := x3 ++ x2 ++ x1 ++ x0

def subWord (x : BitVec 32) : BitVec 32 := joinBytes (fun i => sbox (x.extractLsb' (8 * i) 8)) 4

def rotWord (x : BitVec 32) : BitVec 32 := x.rotateRight 8

def mmAeskeygenassistSi128 (a : Block) (imm8 : Byte) : Block :=
  let x1 := subWord (laneAt a 1)
  let x3 := subWord (laneAt a 3)
  let rcon := imm8.setWidth 32
  ofLanes (rotWord x3 ^^^ rcon) x3 (rotWord x1 ^^^ rcon) x1

/-- Lane `i` of the result is the lane that bits `2 i` and `2 i + 1` of `imm8` name. -/
def mmShuffleEpi32 (a : Block) (imm8 : Nat) : Block :=
  let lane (i : Nat) := laneAt a (imm8 / 4 ^ i % 4)
  ofLanes (lane 3) (lane 2) (lane 1) (lane 0)

section Bytes

variable (a : Block) {i : Nat} (inside : i < 16)

include inside

theorem byteAt_shiftRows :
    byteAt (shiftRows a) i = byteAt a (i % 4 + 4 * ((i / 4 + i % 4) % 4)) := byteAt_ofBytes _ inside

theorem byteAt_invShiftRows :
    byteAt (invShiftRows a) i = byteAt a (i % 4 + 4 * ((i / 4 + 4 - i % 4) % 4)) :=
  byteAt_ofBytes _ inside

theorem byteAt_subBytes : byteAt (subBytes a) i = sbox (byteAt a i) := byteAt_ofBytes _ inside

theorem byteAt_invSubBytes : byteAt (invSubBytes a) i = invSbox (byteAt a i) :=
  byteAt_ofBytes _ inside

theorem below_mixColumns (r : Nat) : below (mixColumns a) i r =
    mulBytes 0x02 (below a i (r % 4)) ^^^ mulBytes 0x03 (below a i ((r + 1) % 4)) ^^^
      below a i ((r + 2) % 4) ^^^ below a i ((r + 3) % 4) := by
  have at_r (k : Nat) :
      below a (4 * (i / 4) + (i + r) % 4) k = below a i ((r + k) % 4) := by
    unfold below
    congr 1
    omega
  rw [below, mixColumns, byteAt_ofBytes _ (by omega), at_r, at_r, at_r, at_r, Nat.add_zero]

theorem below_invMixColumns (r : Nat) : below (invMixColumns a) i r =
    mulBytes 0x0E (below a i (r % 4)) ^^^ mulBytes 0x0B (below a i ((r + 1) % 4)) ^^^
      mulBytes 0x0D (below a i ((r + 2) % 4)) ^^^ mulBytes 0x09 (below a i ((r + 3) % 4)) := by
  have at_r (k : Nat) :
      below a (4 * (i / 4) + (i + r) % 4) k = below a i ((r + k) % 4) := by
    unfold below
    congr 1
    omega
  rw [below, invMixColumns, byteAt_ofBytes _ (by omega), at_r, at_r, at_r, at_r, Nat.add_zero]

end Bytes

theorem byteAt_eq_below (a : Block) (i : Nat) : byteAt a i = below a i 0 := by
  unfold below
  congr 1
  omega

theorem invShiftRows_shiftRows (a : Block) : invShiftRows (shiftRows a) = a := by
  apply ext_byteAt
  intro i inside
  rw [byteAt_invShiftRows _ inside, byteAt_shiftRows _ (by omega)]
  congr 1
  omega

theorem shiftRows_invShiftRows (a : Block) : shiftRows (invShiftRows a) = a := by
  apply ext_byteAt
  intro i inside
  rw [byteAt_shiftRows _ inside, byteAt_invShiftRows _ (by omega)]
  congr 1
  omega

theorem invSubBytes_subBytes (a : Block) : invSubBytes (subBytes a) = a := by
  apply ext_byteAt
  intro i inside
  rw [byteAt_invSubBytes _ inside, byteAt_subBytes _ inside, invSbox_sbox]

theorem subBytes_invSubBytes (a : Block) : subBytes (invSubBytes a) = a := by
  apply ext_byteAt
  intro i inside
  rw [byteAt_subBytes _ inside, byteAt_invSubBytes _ inside, sbox_invSbox]

/-- The S-box is the same for all bytes, so it does not matter whether they move before. -/
theorem subBytes_shiftRows (a : Block) : subBytes (shiftRows a) = shiftRows (subBytes a) := by
  apply ext_byteAt
  intro i inside
  rw [byteAt_subBytes _ inside, byteAt_shiftRows _ inside, byteAt_shiftRows _ inside,
    byteAt_subBytes _ (by omega)]

theorem mulBytes_02 (x : Byte) : mulBytes 0x02 x = xtime x := by simp [mulBytes, xorSum_succ]

theorem mulBytes_03 (x : Byte) : mulBytes 0x03 x = x ^^^ xtime x := by
  simp [mulBytes, xorSum_succ]

theorem mulBytes_09 (x : Byte) : mulBytes 0x09 x = x ^^^ xtime (xtime (xtime x)) := by
  simp [mulBytes, xorSum_succ]

theorem mulBytes_0B (x : Byte) :
    mulBytes 0x0B x = x ^^^ (xtime x ^^^ xtime (xtime (xtime x))) := by
  simp [mulBytes, xorSum_succ, BitVec.xor_assoc]

theorem mulBytes_0D (x : Byte) :
    mulBytes 0x0D x = x ^^^ (xtime (xtime x) ^^^ xtime (xtime (xtime x))) := by
  simp [mulBytes, xorSum_succ, BitVec.xor_assoc]

theorem mulBytes_0E (x : Byte) :
    mulBytes 0x0E x = xtime x ^^^ (xtime (xtime x) ^^^ xtime (xtime (xtime x))) := by
  simp [mulBytes, xorSum_succ, BitVec.xor_assoc]

theorem mix_coefficients (x : Byte) :
    mulBytes 0x0E (mulBytes 0x02 x) ^^^ (mulBytes 0x0B x ^^^ (mulBytes 0x0D x ^^^
        mulBytes 0x09 (mulBytes 0x03 x))) = x ∧
      mulBytes 0x0E (mulBytes 0x03 x) ^^^ (mulBytes 0x0B (mulBytes 0x02 x) ^^^ (mulBytes 0x0D x ^^^
        mulBytes 0x09 x)) = 0 ∧
      mulBytes 0x0E x ^^^ (mulBytes 0x0B (mulBytes 0x03 x) ^^^ (mulBytes 0x0D (mulBytes 0x02 x) ^^^
        mulBytes 0x09 x)) = 0 ∧
      mulBytes 0x0E x ^^^ (mulBytes 0x0B x ^^^ (mulBytes 0x0D (mulBytes 0x03 x) ^^^
        mulBytes 0x09 (mulBytes 0x02 x))) = 0 := by
  simp only [mulBytes_02, mulBytes_03, mulBytes_09, mulBytes_0B, mulBytes_0D, mulBytes_0E,
    xtime_xor]
  simp [xor_left_comm, BitVec.xor_comm]

theorem invMix_mix_bytes (x0 x1 x2 x3 : Byte) :
    mulBytes 0x0E (mulBytes 0x02 x0 ^^^ mulBytes 0x03 x1 ^^^ x2 ^^^ x3) ^^^
      mulBytes 0x0B (mulBytes 0x02 x1 ^^^ mulBytes 0x03 x2 ^^^ x3 ^^^ x0) ^^^
      mulBytes 0x0D (mulBytes 0x02 x2 ^^^ mulBytes 0x03 x3 ^^^ x0 ^^^ x1) ^^^
      mulBytes 0x09 (mulBytes 0x02 x3 ^^^ mulBytes 0x03 x0 ^^^ x1 ^^^ x2) = x0 := by
  obtain ⟨first, -, -, -⟩ := mix_coefficients x0
  obtain ⟨-, second, -, -⟩ := mix_coefficients x1
  obtain ⟨-, -, third, -⟩ := mix_coefficients x2
  obtain ⟨-, -, -, fourth⟩ := mix_coefficients x3
  calc _ = (mulBytes 0x0E (mulBytes 0x02 x0) ^^^ (mulBytes 0x0B x0 ^^^ (mulBytes 0x0D x0 ^^^
          mulBytes 0x09 (mulBytes 0x03 x0)))) ^^^
        (mulBytes 0x0E (mulBytes 0x03 x1) ^^^ (mulBytes 0x0B (mulBytes 0x02 x1) ^^^
          (mulBytes 0x0D x1 ^^^ mulBytes 0x09 x1))) ^^^
        (mulBytes 0x0E x2 ^^^ (mulBytes 0x0B (mulBytes 0x03 x2) ^^^
          (mulBytes 0x0D (mulBytes 0x02 x2) ^^^ mulBytes 0x09 x2))) ^^^
        (mulBytes 0x0E x3 ^^^ (mulBytes 0x0B x3 ^^^ (mulBytes 0x0D (mulBytes 0x03 x3) ^^^
          mulBytes 0x09 (mulBytes 0x02 x3)))) := by
        simp only [mulBytes_xor]
        ac_rfl
    _ = x0 := by
        rw [first, second, third, fourth]
        simp

theorem invMixColumns_mixColumns (a : Block) : invMixColumns (mixColumns a) = a := by
  apply ext_byteAt
  intro i inside
  rw [byteAt_eq_below, below_invMixColumns _ inside]
  simp only [below_mixColumns a inside, byteAt_eq_below a]
  exact invMix_mix_bytes _ _ _ _

/-- There are finitely many blocks, so what mixing back undoes it also is undone by. -/
theorem mixColumns_invMixColumns (a : Block) : mixColumns (invMixColumns a) = a := by
  have finite : Finite Block := Finite.of_injective BitVec.toFin fun _ _ => BitVec.eq_of_toFin_eq
  have left : Function.LeftInverse invMixColumns mixColumns := invMixColumns_mixColumns
  have onto := Finite.injective_iff_surjective.mp left.injective
  exact left.rightInverse_of_surjective onto a

theorem invMixColumns_xor (a b : Block) :
    invMixColumns (a ^^^ b) = invMixColumns a ^^^ invMixColumns b := by
  apply ext_byteAt
  intro i inside
  have below_xor (r : Nat) : below (a ^^^ b) i r = below a i r ^^^ below b i r := byteAt_xor a b _
  rw [byteAt_xor, byteAt_eq_below, byteAt_eq_below, byteAt_eq_below, below_invMixColumns _ inside,
    below_invMixColumns _ inside, below_invMixColumns _ inside]
  simp only [below_xor, mulBytes_xor]
  ac_rfl

def aesLayers : RoundCipher.Layers Block where
  add := fun a k => a ^^^ k
  sub := fun a => subBytes (shiftRows a)
  subInv := fun a => invSubBytes (invShiftRows a)
  mix := mixColumns
  mixInv := invMixColumns
  add_add := fun a k => by rw [BitVec.xor_assoc, BitVec.xor_self, BitVec.xor_zero]
  subInv_sub := fun a => by
    rw [subBytes_shiftRows, invShiftRows_shiftRows, invSubBytes_subBytes]
  sub_subInv := fun a => by
    rw [subBytes_shiftRows, subBytes_invSubBytes, shiftRows_invShiftRows]
  mixInv_mix := invMixColumns_mixColumns
  mix_mixInv := mixColumns_invMixColumns
  mixInv_add := invMixColumns_xor

end AESNI

end BatchDualEx
