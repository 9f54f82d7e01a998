import BatchDualEx.Circuit.Gate
import Mathlib.Data.List.TakeDrop

/- `Circuit`: a straight-line list of gates over numbered wires and its plain evaluation. -/
namespace BatchDualEx

/-- How a call may fail to return: an exception of the source, a step whose behaviour C++
    leaves undefined, or the bound of a recursion in this model. -/
inductive Fault where
  | thrown (what : String)
  | undefined
  | fuel
  deriving DecidableEq, Repr

structure Circuit where
  mWireCount : Nat
  mNonXorGateCount : Nat
  mOutputCount : Nat
  mInputs : Nat × Nat
  mGates : List Gate
  mOutputs : List Nat
  deriving DecidableEq, Repr

namespace Circuit

def inputs (c : Circuit) : Role → Nat
  | .first => c.mInputs.1
  | .second => c.mInputs.2

def inputWireCount (c : Circuit) : Nat := c.mInputs.1 + c.mInputs.2

def start (c : Circuit) : Role → Nat
  | .first => 0
  | .second => c.mInputs.1

theorem start_inputs_le (c : Circuit) (r : Role) : c.start r + c.inputs r ≤ c.inputWireCount := by
  cases r <;> simp [start, inputs, inputWireCount]

theorem inputs_apart (c : Circuit) (r : Role) :
    c.start r + c.inputs r ≤ c.start r.other ∨ c.start r.other + c.inputs r.other ≤ c.start r := by
  cases r <;> simp [start, inputs, Role.other]

def noWire : Nat := 0xffffffffffffffff

def addGate (c : Circuit) (input0 input1 : Nat) (gt : GateType) : Except Fault (Circuit × Nat) :=
  if c.mWireCount < input0 then .error (.thrown "")
  else if c.mWireCount < input1 ∧ (gt ≠ .na ∨ input1 ≠ noWire) then .error (.thrown "")
  else if gt = .a ∨ gt = .b ∨ gt = .nb ∨ gt = .one ∨ gt = .zero then .error (.thrown "")
  else .ok ({ c with
    mNonXorGateCount := if gt.isXor then c.mNonXorGateCount else c.mNonXorGateCount + 1
    mGates := c.mGates ++ [⟨input0, input1, c.mWireCount, gt⟩]
    mWireCount := c.mWireCount + 1 }, c.mWireCount)

def addOutputWire (c : Circuit) (i : Nat) : Except Fault Circuit :=
  if c.mWireCount ≤ i then .error (.thrown "")
  else .ok { c with mOutputs := c.mOutputs ++ [i], mOutputCount := c.mOutputCount + 1 }

def evaluateGate (labels : List Bool) (g : Gate) : List Bool :=
  labels.set g.mOutput (g.eval
    ((if labels.getD g.mInput0 false then 1 else 0) |||
      (if labels.getD g.mInput1 false then 2 else 0)))

def evaluate (c : Circuit) (labels : List Bool) : List Bool :=
  c.mGates.foldl evaluateGate (labels.takeD c.mWireCount false)

def translate (c : Circuit) (labels : List Bool) : List Bool :=
  (c.mOutputs.map (labels.getD · false)).takeD c.mOutputCount false

/-- Gates from wire `n` on are in topological order and write consecutive wires. -/
def OrderedFrom : Nat → List Gate → Prop
  | _, [] => True
  | n, g :: gs => g.mOutput = n ∧ g.mInput0 < n ∧ g.mInput1 < n ∧ OrderedFrom (n + 1) gs

instance decidableOrderedFrom : (n : Nat) → (gs : List Gate) → Decidable (OrderedFrom n gs)
  | _, [] => isTrue trivial
  | n, g :: gs =>
    let := decidableOrderedFrom (n + 1) gs
    inferInstanceAs (Decidable (g.mOutput = n ∧ g.mInput0 < n ∧ g.mInput1 < n ∧ _))

/-- What `AddGate` and `AddOutputWire` maintain. -/
structure WellFormed (c : Circuit) : Prop where
  ordered : OrderedFrom c.inputWireCount c.mGates
  wires : c.mWireCount = c.inputWireCount + c.mGates.length
  tables : c.mNonXorGateCount = c.mGates.countP fun g => !g.mType.isXor
  outputs : ∀ o ∈ c.mOutputs, o < c.mWireCount
  outputCount : c.mOutputCount = c.mOutputs.length

theorem orderedFrom_append (n : Nat) (gs hs : List Gate) :
    OrderedFrom n (gs ++ hs) ↔ OrderedFrom n gs ∧ OrderedFrom (n + gs.length) hs := by
  induction gs generalizing n with
  | nil => simp [OrderedFrom]
  | cons g gs ih =>
    simp only [List.cons_append, OrderedFrom, ih, List.length_cons, and_assoc]
    rw [Nat.add_right_comm, Nat.add_assoc n gs.length 1]

theorem evaluateGate_length (labels : List Bool) (g : Gate) :
    (evaluateGate labels g).length = labels.length := by
  simp [evaluateGate]

theorem evaluateGate_eq (labels : List Bool) (g : Gate) :
    evaluateGate labels g = labels.set g.mOutput
      (g.mType.apply (labels.getD g.mInput0 false) (labels.getD g.mInput1 false)) := by
  simp only [evaluateGate, Gate.eval_apply]

theorem foldl_evaluateGate_length (gs : List Gate) (labels : List Bool) :
    (gs.foldl evaluateGate labels).length = labels.length := by
  induction gs generalizing labels with
  | nil => rfl
  | cons g gs ih => rw [List.foldl_cons, ih, evaluateGate_length]

theorem translate_eq {c : Circuit} (wf : c.WellFormed) (labels : List Bool) :
    c.translate labels = c.mOutputs.map (labels.getD · false) := by
  rw [translate, wf.outputCount, List.takeD_eq_take _ (by simp)]
  simp

end Circuit

end BatchDualEx
