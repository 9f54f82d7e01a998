import BatchDualEx.Common.BitVector
import Mathlib.Data.Stream.Init

/- `PRNG`: the functions that take bytes from a generator, which is known by its stream. -/
namespace BatchDualEx

/-- The bytes that a generator is going to return. -/
abbrev PRNG := Stream' UInt8

namespace PRNG

def getUchar (prng : PRNG) : UInt8 × PRNG := (prng.head, prng.tail)

def getBit (prng : PRNG) : UInt8 × PRNG :=
  let (byte, prng) := prng.getUchar
  (byte &&& 1, prng)

def getU8s (prng : PRNG) : Nat → List UInt8 × PRNG
  | 0 => ([], prng)
  | len + 1 =>
    let (byte, prng) := prng.getUchar
    let (bytes, prng) := getU8s prng len
    (byte :: bytes, prng)

def getBlock (prng : PRNG) : Block × PRNG :=
  let (bytes, prng) := prng.getU8s 16
  (bytes.foldr (fun byte b => b <<< 8 ||| byte.toBitVec.setWidth 128) 0, prng)

end PRNG

def BitVector.randomize (v : BitVector) (G : PRNG) : BitVector × PRNG :=
  let (bytes, G) := G.getU8s v.sizeBytes
  (v.overwrite 0 (bytes.map UInt8.toBitVec), G)

end BatchDualEx
