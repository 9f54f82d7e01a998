import BatchDualEx.Lib.Xor
import Mathlib.Algebra.BigOperators.Fin
import Mathlib.Algebra.Field.ZMod
import Mathlib.Data.ZMod.Basic
import Mathlib.LinearAlgebra.Matrix.ToLin

/- The linear map of a matrix `[M | I]`, and the loops over bits and over masked words that
   evaluate one of its rows over the field with two elements. -/
namespace Systematic

open WordXor

/-- `M` times the first `h` entries plus the last `n` ones. -/
def apply {R : Type} [CommSemiring R] {n h : Nat} (M : Matrix (Fin n) (Fin h) R) :
    (Fin (h + n) → R) →ₗ[R] (Fin n → R) :=
  M.mulVecLin.comp (LinearMap.funLeft R R (Fin.castAdd n)) + LinearMap.funLeft R R (Fin.natAdd h)

theorem apply_row {R : Type} [CommSemiring R] {n h : Nat} (M : Matrix (Fin n) (Fin h) R)
    (e : Fin (h + n) → R) (i : Fin n) :
    apply M e i = ∑ j, M i j * e (Fin.castAdd n j) + e (Fin.natAdd h i) := rfl

def ofBit (b : Bool) : ZMod 2 := if b then 1 else 0

theorem ofBit_xor (a b : Bool) : ofBit (a ^^ b) = ofBit a + ofBit b := by
  revert a b
  decide

theorem ofBit_and (a b : Bool) : ofBit (a && b) = ofBit a * ofBit b := by
  revert a b
  decide

theorem ofBit_injective : Function.Injective ofBit := by
  intro a b
  revert a b
  decide

theorem ofBit_foldl (mask bit : Nat → Bool) (h : Nat) (first : Bool) :
    ofBit ((List.range h).foldl (fun acc j => acc ^^ (mask j && bit j)) first) =
      ∑ j : Fin h, ofBit (mask j) * ofBit (bit j) + ofBit first := by
  induction h with
  | zero => simp
  | succ h ih =>
    rw [List.range_succ, List.foldl_append, List.foldl_cons, List.foldl_nil, ofBit_xor, ih,
      ofBit_and, Fin.sum_univ_castSucc]
    simp only [Fin.val_castSucc, Fin.val_last]
    ring

theorem getLsbD_foldl {w : Nat} (mask : Nat → Bool) (word : Nat → BitVec w) (is : List Nat)
    (first : BitVec w) (c : Nat) :
    (is.foldl (fun acc j => acc ^^^ select (mask j) (word j)) first).getLsbD c =
      is.foldl (fun acc j => acc ^^ (mask j && (word j).getLsbD c)) (first.getLsbD c) := by
  induction is generalizing first with
  | nil => rfl
  | cons j is ih =>
    have masked : (select (mask j) (word j)).getLsbD c = (mask j && (word j).getLsbD c) := by
      cases mask j <;> simp
    rw [List.foldl_cons, List.foldl_cons, ih, BitVec.getLsbD_xor, masked]

end Systematic
