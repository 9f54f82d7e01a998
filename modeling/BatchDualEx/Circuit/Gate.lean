import BatchDualEx.Common.Block
import Mathlib.Tactic.IntervalCases

/- `Gate.h`: gate types are four-bit truth tables, and the constructor derives the three
   modifiers which turn any of the eight AND-like types into one AND. -/
namespace BatchDualEx

inductive GateType where
  | zero | nor | nbAnd | nb | naAnd | na | xor | nand
  | and | nxor | a | nbOr | b | naOr | or | one
  deriving DecidableEq, Repr

namespace GateType

/-- The value of the enumerator, which is also the truth table. -/
def code : GateType → BitVec 4
  | zero => 0 | nor => 1 | nbAnd => 2 | nb => 3 | naAnd => 4 | na => 5 | xor => 6 | nand => 7
  | and => 8 | nxor => 9 | a => 10 | nbOr => 11 | b => 12 | naOr => 13 | or => 14 | one => 15

def ofCode (s : BitVec 4) : GateType :=
  match s.toNat with
  | 0 => zero | 1 => nor | 2 => nbAnd | 3 => nb | 4 => naAnd | 5 => na | 6 => xor | 7 => nand
  | 8 => and | 9 => nxor | 10 => a | 11 => nbOr | 12 => b | 13 => naOr | 14 => or | _ => one

@[simp] theorem ofCode_code (t : GateType) : ofCode t.code = t := by cases t <;> rfl

def apply (t : GateType) (x y : Bool) : Bool := t.code.getLsbD (x.toNat + 2 * y.toNat)

/-- `gt == Xor || gt == Nxor`: the gates that need no garbled table. -/
def isXor : GateType → Bool
  | xor | nxor => true
  | _ => false

def aAlpha : GateType → Bool
  | nor | naAnd | nbOr | or => true
  | _ => false

def bAlpha : GateType → Bool
  | nor | nbAnd | naOr | or => true
  | _ => false

def cAlpha : GateType → Bool
  | nand | nbOr | naOr | or => true
  | _ => false

/-- The types a default `readBris` produces and the garbling code supports. -/
def Garblable : GateType → Prop
  | xor | nxor | and | nand | or | nor | naAnd | nbAnd | naOr | nbOr => True
  | _ => False

instance : DecidablePred Garblable := fun t => by
  cases t <;> first | exact isTrue trivial | exact isFalse id

theorem xor_truth {t : GateType} (free : t.isXor = true) (x y : Bool) :
    t.apply x y = ((x ^^ y) ^^ t.code.getLsbD 0) := by
  cases t <;> simp only [isXor, Bool.false_eq_true] at free
  all_goals cases x <;> cases y <;> decide

/-- The modifiers turn the truth table of a supported table gate into an AND. -/
theorem alpha_truth {t : GateType} (supported : t.Garblable) (table : t.isXor = false)
    (x y : Bool) :
    t.apply x y = (((x ^^ t.aAlpha) && (y ^^ t.bAlpha)) ^^ t.cAlpha) := by
  cases t <;> simp only [Garblable, isXor, Bool.true_eq_false] at supported table
  all_goals cases x <;> cases y <;> decide

/-- The type that computes the same from complemented inputs, or the complement. -/
def flip (in0 in1 out : Bool) (t : GateType) : GateType :=
  let bit (x y : Bool) : BitVec 1 := .ofBool (t.apply (x ^^ in0) (y ^^ in1) ^^ out)
  ofCode (bit true true ++ bit false true ++ bit true false ++ bit false false)

theorem apply_flip (t : GateType) (in0 in1 out x y : Bool) :
    (t.flip in0 in1 out).apply x y = (t.apply (x ^^ in0) (y ^^ in1) ^^ out) := by
  cases t <;> revert in0 in1 out x y <;> decide

theorem apply_ext {t u : GateType} (same : ∀ x y, t.apply x y = u.apply x y) : t = u := by
  have codes : t.code = u.code := by
    refine BitVec.eq_of_getLsbD_eq fun i below => ?_
    interval_cases i
    · exact same false false
    · exact same true false
    · exact same false true
    · exact same true true
  rw [← ofCode_code t, codes, ofCode_code]

theorem flip_flip (t : GateType) (in0 in1 out in0' in1' out' : Bool) :
    (t.flip in0 in1 out).flip in0' in1' out' =
      t.flip (in0 ^^ in0') (in1 ^^ in1') (out ^^ out') := by
  refine apply_ext fun x y => ?_
  simp only [apply_flip, Bool.xor_assoc, Bool.xor_comm in0', Bool.xor_comm in1']

@[simp] theorem flip_none (t : GateType) : t.flip false false false = t := by
  cases t <;> rfl

theorem garblable_flip {t : GateType} (supported : t.Garblable) (in0 in1 out : Bool) :
    (t.flip in0 in1 out).Garblable := by
  cases t <;> first | exact supported.elim | (revert in0 in1 out; decide)

theorem flip_na (in0 in1 out : Bool) : na.flip in0 in1 out = if in0 ^^ out then a else na := by
  revert in0 in1 out
  decide

theorem flip_a (in0 in1 out : Bool) : a.flip in0 in1 out = if in0 ^^ out then na else a := by
  revert in0 in1 out
  decide

end GateType

structure Gate where
  mInput0 : Nat
  mInput1 : Nat
  mOutput : Nat
  mType : GateType
  deriving DecidableEq, Repr

def Gate.eval (g : Gate) (i : Nat) : Bool := g.mType.code.getLsbD i

theorem Gate.eval_apply (g : Gate) (x y : Bool) :
    g.eval ((if x then 1 else 0) ||| (if y then 2 else 0)) = g.mType.apply x y := by
  cases x <;> cases y <;> rfl

end BatchDualEx
