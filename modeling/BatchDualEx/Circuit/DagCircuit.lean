import BatchDualEx.Circuit.Circuit
import Mathlib.Logic.Function.Basic
import Mathlib.Data.List.FinRange

/- `DagCircuit`: a Bristol file read as a doubly linked graph, the removal of its INV gates
   and the translation to a `Circuit`, as `Circuit::readBris` calls them. -/
namespace BatchDualEx

open Function

/-- `fanIn fanOut inputs output gateType`, with `fanIn` as many inputs. -/
structure BrisLine where
  inputs : List Nat
  fanOut : Nat
  output : Nat
  gateType : String
  deriving DecidableEq, Repr

/-- What `>>` reads, with `numGates` as many lines. -/
structure BrisFile where
  mWireCount : Nat
  mInputCounts : Nat × Nat
  outputCount : Nat
  lines : List BrisLine
  deriving DecidableEq, Repr

def BrisFile.inputWireCount (f : BrisFile) : Nat := f.mInputCounts.1 + f.mInputCounts.2

/-- The members of all nodes, by the position of the node in `mNodes`. The first positions
    are the input nodes, the others gates; a gate that is not driven keeps wire index 0. -/
structure DagCircuit (W : Nat) where
  mInputCounts : Nat × Nat
  numGates : Nat
  mNonInvertGateCount : Nat
  mWireIdx : Fin W → Nat
  mType : Fin W → GateType
  mParents : Fin W → List (Fin W)
  mChildren : Fin W → List (Fin W)
  mOutputs : List (Option (Fin W))

def GateType.invert (i : Nat) (src : GateType) : Except Fault GateType :=
  let s := src.code
  match i with
  | 0 => .ok (.ofCode
      ((s &&& 1) <<< 1 ||| (s &&& 2) >>> 1 ||| (s &&& 4) <<< 1 ||| (s &&& 8) >>> 1))
  | 1 => .ok (.ofCode ((s &&& 3) <<< 2 ||| (s &&& 12) >>> 2))
  | _ => .error (.thrown "")

def eraseByBack {α : Type} [DecidableEq α] (l : List α) (x : α) : Except Fault (List α) :=
  if x ∈ l then .ok (l.set (l.idxOf x) (l.getLastD x)).dropLast else .error .undefined

def readAt {α : Type} (l : List α) (i : Nat) : Except Fault α :=
  match l[i]? with
  | some x => .ok x
  | none => .error .undefined

namespace DagCircuit

variable {W : Nat} (d : DagCircuit W)

def inputWireCount : Nat := d.mInputCounts.1 + d.mInputCounts.2

def isInput (n : Fin W) : Prop := n.val < d.inputWireCount

instance (n : Fin W) : Decidable (d.isInput n) := inferInstanceAs (Decidable (_ < _))

/-- An input node is never an invert; here it has no parents. -/
def isInvert (n : Fin W) : Prop := d.mType n = .na ∧ (d.mParents n).length = 1

instance (n : Fin W) : Decidable (d.isInvert n) := inferInstanceAs (Decidable (_ ∧ _))

section Read

def node (W i : Nat) : Except Fault (Fin W) :=
  if inside : i < W then .ok ⟨i, inside⟩ else .error .undefined

def empty (f : BrisFile) : DagCircuit f.mWireCount where
  mInputCounts := f.mInputCounts
  numGates := f.lines.length
  mNonInvertGateCount := 0
  mWireIdx := fun n => if n.val < f.inputWireCount then n.val else 0
  mType := fun _ => .zero
  mParents := fun _ => []
  mChildren := fun _ => []
  mOutputs := List.replicate f.outputCount none

def pushChild (gate parent : Fin W) : DagCircuit W :=
  { d with mChildren := update d.mChildren parent (d.mChildren parent ++ [gate]) }

/-- The type of the last token, and by how much the line counts as no inverter. -/
def parseType (gateType : String) : Except Fault (GateType × Nat) :=
  if gateType = "XOR" then .ok (.xor, 1)
  else if gateType = "AND" then .ok (.and, 1)
  else if gateType = "INV" then .ok (.na, 0)
  else .error (.thrown "")

/-- `mOutputs[output - outputStartIdx].mParent = &gate` for the last wires; with more outputs
    than wires `outputStartIdx` wraps and no wire is an output. -/
def setOutput (outputCount : Nat) (gate : Fin W) : List (Option (Fin W)) :=
  if outputCount ≤ W ∧ W - outputCount ≤ gate.val then
    d.mOutputs.set (gate.val - (W - outputCount)) (some gate)
  else d.mOutputs

def link (outputCount : Nat) (gate : Fin W) (parents : List (Fin W)) (mType : GateType)
    (counted : Nat) : DagCircuit W :=
  { parents.foldl (pushChild · gate) d with
    mWireIdx := update d.mWireIdx gate gate.val
    mParents := update d.mParents gate parents
    mType := update d.mType gate mType
    mNonInvertGateCount := d.mNonInvertGateCount + counted
    mOutputs := d.setOutput outputCount gate }

/-- A third input is read past the end of `inputs` before the check for it. -/
def readLine (outputCount : Nat) (l : BrisLine) : Except Fault (DagCircuit W) :=
  if 2 < l.inputs.length then .error .undefined
  else if l.fanOut ≠ 1 then .error (.thrown "")
  else if l.output < d.inputWireCount then .error .undefined
  else do
    let gate ← node W l.output
    let parents ← l.inputs.mapM (node W)
    let (mType, counted) ← parseType l.gateType
    return d.link outputCount gate parents mType counted

def readBris (f : BrisFile) : Except Fault (DagCircuit f.mWireCount) :=
  if f.mWireCount < f.inputWireCount ∨ f.inputWireCount + f.lines.length < f.mWireCount then
    .error .undefined
  else f.lines.foldlM (fun d l => d.readLine f.outputCount l) (empty f)

end Read

section RemoveInvertGates

def invertParents (input : Fin W) : Nat → List (Fin W) → GateType → Except Fault GateType
  | _, [], mType => .ok mType
  | i, parent :: parents, mType =>
    if parent = input then do
      let mType ← mType.invert i
      invertParents input (i + 1) parents mType
    else invertParents input (i + 1) parents mType

def invertInput (input gate : Fin W) : Except Fault (DagCircuit W) :=
  if input ∈ d.mParents gate then do
    let mType ← invertParents input 0 (d.mParents gate) (d.mType gate)
    return { d with mType := update d.mType gate mType }
  else .error (.thrown "")

def invertOutput (n : Fin W) : Except Fault (DagCircuit W) :=
  if d.isInput n then .error (.thrown "")
  else (d.mChildren n).foldlM (invertInput · n)
    { d with mType := update d.mType n (.ofCode (~~~(d.mType n).code)) }

def eraseChild (n child : Fin W) : Except Fault (DagCircuit W) := do
  let children ← eraseByBack (d.mChildren n) child
  return { d with mChildren := update d.mChildren n children }

def dropInvert (parent : Fin W) : Except Fault (Fin W × DagCircuit W) := do
  let newParent ← readAt (d.mParents parent) 0
  let d ← d.invertOutput newParent
  if d.mType parent = .a then
    let d ← d.eraseChild newParent parent
    return (newParent, d)
  else throw (.thrown "")

def removeOutputInverts : List (Option (Fin W)) → DagCircuit W →
    Except Fault (List (Option (Fin W)) × DagCircuit W)
  | [], d => .ok ([], d)
  | none :: _, _ => .error .undefined
  | some parent :: outputs, d =>
    if d.isInvert parent then do
      let (newParent, d) ← d.dropInvert parent
      let (outputs, d) ← removeOutputInverts outputs d
      return (some newParent :: outputs, d)
    else do
      let (outputs, d) ← removeOutputInverts outputs d
      return (some parent :: outputs, d)

def absorbParent (gate : Fin W) (i : Nat) : Except Fault (DagCircuit W) := do
  let parent ← readAt (d.mParents gate) i
  if d.isInvert parent then
    let newParent ← readAt (d.mParents parent) 0
    let mType ← (d.mType gate).invert i
    let d := { d with mType := update d.mType gate mType }
    if d.isInvert newParent then throw (.thrown "")
    else return { d with
      mChildren := update d.mChildren newParent (d.mChildren newParent ++ [gate])
      mParents := update d.mParents gate ((d.mParents gate).set i newParent) }
  else return d

def reduceInvert (gate : Fin W) : Except Fault (DagCircuit W) :=
  if d.isInvert gate then do
    let parent ← readAt (d.mParents gate) 0
    d.eraseChild parent gate
  else (List.range (d.mParents gate).length).foldlM (fun d i => d.absorbParent gate i) d

def gates : List (Fin W) := (List.finRange W).filter fun n => ¬ d.isInput n

def removeInvertGates : Except Fault (DagCircuit W) := do
  let (outputs, d) ← removeOutputInverts d.mOutputs d
  let d := { d with mOutputs := outputs }
  d.gates.foldlM (fun d gate => d.reduceInvert gate) d

end RemoveInvertGates

section ToCircuit

/-- The arguments of `depthFirstAdd`; the top of `addStack` is its head. -/
structure AddState (W : Nat) where
  newWireIdx : Nat → Nat
  added : Nat → Bool
  addStack : List (Fin W)
  cir : Circuit

def addNode (s : AddState W) (n : Fin W) : Except Fault (AddState W) :=
  match d.mParents n with
  | [] => .error .undefined
  | [parent] => do
    let (cir, wire) ← s.cir.addGate (s.newWireIdx (d.mWireIdx parent)) 0 (d.mType n)
    return { s with cir := cir, newWireIdx := update s.newWireIdx (d.mWireIdx n) wire }
  | parent0 :: parent1 :: _ => do
    let (cir, wire) ← s.cir.addGate (s.newWireIdx (d.mWireIdx parent0))
      (s.newWireIdx (d.mWireIdx parent1)) (d.mType n)
    return { s with cir := cir, newWireIdx := update s.newWireIdx (d.mWireIdx n) wire }

def AddState.push (s : AddState W) (n : Fin W) : AddState W :=
  { s with addStack := n :: s.addStack }

/-- The parents of a node that is not added yet, the node itself, and then its children. The
    fuel bounds the depth of the recursion. -/
def depthFirstAdd : Nat → Bool → AddState W → Except Fault (AddState W)
  | 0, _, _ => .error .fuel
  | fuel + 1, explore, s =>
    match s.addStack with
    | [] => .error .undefined
    | n :: addStack =>
      let s := { s with addStack := addStack }
      (if s.added (d.mWireIdx n) then .ok s
      else
        let s := { s with added := update s.added (d.mWireIdx n) true }
        (d.mParents n).foldlM (fun s input =>
          if s.added (d.mWireIdx input) then .ok s
          else depthFirstAdd fuel false (s.push input)) s >>= (d.addNode · n)) >>=
      (d.mChildren n).foldlM fun s child =>
        if s.added (d.mWireIdx child) then .ok s
        else if explore then depthFirstAdd fuel true (s.push child)
        else .ok (s.push child)

/-- `while (addStack.size()) depthFirstAdd(..., true)`; the first number bounds the passes. -/
def addAll (fuel : Nat) : Nat → AddState W → Except Fault (AddState W)
  | 0, s => if s.addStack = [] then .ok s else .error .fuel
  | passes + 1, s =>
    if s.addStack = [] then .ok s
    else do
      let s ← d.depthFirstAdd fuel true s
      addAll fuel passes s

def initial : AddState W where
  newWireIdx := fun i => if i < d.inputWireCount then i else Circuit.noWire
  added := fun i => i < d.inputWireCount
  addStack := ((List.finRange W).filter fun n => d.isInput n).reverse
  cir :=
    { mWireCount := d.inputWireCount, mNonXorGateCount := 0, mOutputCount := 0
      mInputs := d.mInputCounts, mGates := [], mOutputs := [] }

def addOutput (newWireIdx : Nat → Nat) (cir : Circuit) : Option (Fin W) → Except Fault Circuit
  | none => .error .undefined
  | some n => cir.addOutputWire (newWireIdx (d.mWireIdx n))

def toCircuit (fuel : Nat) : Except Fault Circuit := do
  let s ← d.addAll fuel fuel d.initial
  d.mOutputs.foldlM (d.addOutput s.newWireIdx) s.cir

end ToCircuit

end DagCircuit

def Circuit.readBris (f : BrisFile) (fuel : Nat) (reduce : Bool) : Except Fault Circuit := do
  let dag ← DagCircuit.readBris f
  if reduce then
    let dag ← dag.removeInvertGates
    let cir ← dag.toCircuit fuel
    if cir.mGates.length = dag.mNonInvertGateCount then return cir else throw (.thrown "")
  else
    let cir ← dag.toCircuit fuel
    if cir.mGates.length = dag.numGates then return cir else throw (.thrown "")

end BatchDualEx
