import BatchDualEx.Circuit.Circuit
import BatchDualEx.Lib.Lists
import BatchDualEx.Lib.Result

/- `ClassicGarbledCircuit`: four doubly encrypted rows for every gate, placed by the permute bits
   of its inputs. `enc key` is AES under `EncKeyGen(key)` and `dec key` under `DecKeyGen(key)`. -/
namespace BatchDualEx

open WordXor Lists

structure ClassicGarbledCircuit where
  mWires : List Block
  mGates : List (List Block)
  mTranslationTable : List Bool
  mGlobalOffset : Block

namespace ClassicGarbledCircuit

variable (enc dec : Block → Block → Block)

def nextRand (seed : Block) (idx : Nat) : Block := enc seed (mmSetEpi64x 0 (BitVec.ofNat 64 idx))

def swapAt (permute : List Nat) (i j : Nat) : List Nat :=
  (permute.set i (permute.getD j 0)).set j (permute.getD i 0)

def permute (aPermuteBit bPermuteBit : Bool) : List Nat :=
  let permute := [0, 1, 2, 3]
  let permute := if aPermuteBit then swapAt (swapAt permute 0 1) 2 3 else permute
  if bPermuteBit then swapAt (swapAt permute 0 2) 1 3 else permute

def row (mGlobalOffset a b c : Block) (gate : Gate) (i : Nat) : Block :=
  let aKey := if i % 2 = 0 then a else a ^^^ mGlobalOffset
  let bKey := if i / 2 = 0 then b else b ^^^ mGlobalOffset
  let wireValue := if gate.eval i then c ^^^ mGlobalOffset else c
  enc bKey (enc aKey wireValue)

def garbledTable (mGlobalOffset a b c : Block) (gate : Gate) : List Block :=
  (List.range 4).foldl
    (fun table i => table.set ((permute (permuteBit a) (permuteBit b)).getD i 0)
      (row enc mGlobalOffset a b c gate i))
    (List.replicate 4 zeroBlock)

structure GarbleState where
  mWires : List Block
  mGates : List (List Block)
  mNextRandIdx : Nat

def garbleGate (seed mGlobalOffset : Block) (s : GarbleState) (gate : Gate) : GarbleState :=
  let c := nextRand enc seed s.mNextRandIdx
  let mWires := s.mWires ++ [c]
  let a := mWires.getD gate.mInput0 zeroBlock
  let b := mWires.getD gate.mInput1 zeroBlock
  { mWires := mWires
    mGates := s.mGates ++ [garbledTable enc mGlobalOffset a b c gate]
    mNextRandIdx := s.mNextRandIdx + 1 }

/-- The first call of `GetNextRand`, with its bottom bit forced to one. -/
def globalOffset (seed : Block) : Block := nextRand enc seed 0 ||| 1#128

/-- The state before the gate loop: one call for the offset and one for every input wire. -/
def firstState (cir : Circuit) (seed : Block) : GarbleState where
  mWires := (List.range cir.inputWireCount).map fun i => nextRand enc seed (1 + i)
  mGates := []
  mNextRandIdx := 1 + cir.inputWireCount

def garbleLoop (cir : Circuit) (seed : Block) : GarbleState :=
  cir.mGates.foldl (garbleGate enc seed (globalOffset enc seed)) (firstState enc cir seed)

def Garble (cir : Circuit) (seed : Block) : ClassicGarbledCircuit :=
  let s := garbleLoop enc cir seed
  { mWires := s.mWires
    mGates := s.mGates
    mTranslationTable := cir.mOutputs.map fun o => permuteBit (s.mWires.getD o zeroBlock)
    mGlobalOffset := globalOffset enc seed }

structure EvaluateState where
  labels : List Block
  garbledGateIter : List (List Block)

def evaluateGate (s : EvaluateState) (gate : Gate) : Except Fault EvaluateState :=
  match s.garbledGateIter with
  | [] => .error .undefined
  | garbledTable :: garbledGateIter =>
    let a := s.labels.getD gate.mInput0 zeroBlock
    let b := s.labels.getD gate.mInput1 zeroBlock
    let tableIdx := (if permuteBit a then 1 else 0) + (if permuteBit b then 2 else 0)
    let newOutLabel := dec a (dec b (garbledTable.getD tableIdx zeroBlock))
    .ok ⟨s.labels ++ [newOutLabel], garbledGateIter⟩

def checkInputs (gc : ClassicGarbledCircuit) (cir : Circuit) (labels : List Block) :
    Except Fault Unit :=
  (List.range cir.inputWireCount).forM fun i =>
    let label := labels.getD i zeroBlock
    let wire := gc.mWires.getD i zeroBlock
    Result.require (¬(label ≠ wire ∧ label ≠ wire ^^^ gc.mGlobalOffset)) (.thrown "")

def evaluate (gc : ClassicGarbledCircuit) (cir : Circuit) (labels : List Block) :
    Except Fault (List Block) := do
  Result.require (labels.length = cir.inputWireCount) (.thrown "")
  if gc.mWires.length ≠ 0 then gc.checkInputs cir labels
  let s ← cir.mGates.foldlM (evaluateGate dec) ⟨labels, gc.mGates⟩
  .ok s.labels

def translateBit (gc : ClassicGarbledCircuit) (cir : Circuit) (labels : List Block) (i : Nat) :
    Except Fault Bool := do
  let label := labels.getD (cir.mOutputs.getD i 0) zeroBlock
  let wire := gc.mWires.getD (cir.mOutputs.getD i 0) zeroBlock
  let output := gc.mTranslationTable.getD i false ^^ permuteBit label
  if gc.mWires.length ≠ 0 then
    Result.require (label = if output then wire ^^^ gc.mGlobalOffset else wire) (.thrown "")
  .ok output

def translate (gc : ClassicGarbledCircuit) (cir : Circuit) (labels : List Block) :
    Except Fault (List Bool) := do
  let output ← (List.range cir.mOutputs.length).mapM (gc.translateBit cir labels)
  .ok (output.takeD gc.mTranslationTable.length false)

def activeLabels (gc : ClassicGarbledCircuit) (x : List Bool) : List Block :=
  x.mapIdx fun i bit => gc.mWires.getD i zeroBlock ^^^ select bit gc.mGlobalOffset

theorem garbledTable_getD (delta a b c : Block) (gate : Gate) (x y : Bool) :
    (garbledTable enc delta a b c gate).getD
        ((if permuteBit a ^^ x then 1 else 0) + (if permuteBit b ^^ y then 2 else 0)) zeroBlock =
      row enc delta a b c gate ((if x then 1 else 0) + (if y then 2 else 0)) := by
  unfold garbledTable
  cases permuteBit a <;> cases permuteBit b <;> cases x <;> cases y <;> rfl

theorem row_eq (delta a b c : Block) (gate : Gate) (x y : Bool) :
    row enc delta a b c gate ((if x then 1 else 0) + (if y then 2 else 0)) =
      enc (b ^^^ select y delta) (enc (a ^^^ select x delta)
        (c ^^^ select (gate.mType.apply x y) delta)) := by
  unfold row
  have value : gate.eval ((if x then 1 else 0) + (if y then 2 else 0)) = gate.mType.apply x y := by
    rw [← Gate.eval_apply]
    cases x <;> cases y <;> rfl
  rw [value]
  cases x <;> cases y <;> cases gate.mType.apply _ _ <;> simp

/-- The first `n` active labels are the zero labels moved by the value times the offset. -/
structure Simulates (delta : Block) (n : Nat) (labels zero : List Block) (values : List Bool) :
    Prop where
  sized : labels.length = n
  wires : zero.length = n
  active : ∀ w < n, labels.getD w zeroBlock =
    zero.getD w zeroBlock ^^^ select (values.getD w false) delta

theorem Simulates.extend {delta : Block} {n : Nat} {labels zero : List Block}
    {values : List Bool} (sim : Simulates delta n labels zero values) (room : n < values.length)
    (c : Block) (value : Bool) :
    Simulates delta (n + 1) (labels ++ [c ^^^ select value delta]) (zero ++ [c])
      (values.set n value) := by
  obtain ⟨sized, wires, active⟩ := sim
  refine ⟨by simp [sized], by simp [wires], ?_⟩
  intro w below
  by_cases last : w = n
  · subst last
    rw [getD_set_self room, ← sized, getD_append_last, sized, ← wires, getD_append_last]
  · have early : w < n := by omega
    rw [List.getD_append _ _ _ _ (by omega), List.getD_append _ _ _ _ (by omega),
      getD_set_ne _ (Ne.symm last)]
    exact active w early

theorem garble_appends (seed delta : Block) (gates : List Gate) (s : GarbleState) :
    ∃ wires tables, (gates.foldl (garbleGate enc seed delta) s).mWires = s.mWires ++ wires ∧
      (gates.foldl (garbleGate enc seed delta) s).mGates = s.mGates ++ tables := by
  induction gates generalizing s with
  | nil => exact ⟨[], [], (List.append_nil _).symm, (List.append_nil _).symm⟩
  | cons gate gates ih =>
    obtain ⟨wires, tables, wiresEq, tablesEq⟩ := ih (garbleGate enc seed delta s gate)
    rw [List.foldl_cons, wiresEq, tablesEq]
    exact ⟨_ :: wires, _ :: tables, List.append_assoc .., List.append_assoc ..⟩

section
variable {enc dec} (inverse : ∀ key b, dec key (enc key b) = b)
include inverse

/-- The two active labels open their row, whether or not the gate reads one wire twice. -/
theorem evaluateGate_ok {seed delta : Block} (odd : permuteBit delta = true) {n : Nat}
    {s : GarbleState} {labels : List Block} {values : List Bool}
    (sim : Simulates delta n labels s.mWires values) (room : n < values.length)
    {gate : Gate} {gates : List Gate} (ordered : Circuit.OrderedFrom n (gate :: gates))
    {table : List Block} (later : List (List Block))
    (garbled : (garbleGate enc seed delta s gate).mGates = s.mGates ++ [table]) :
    ∃ label, evaluateGate dec ⟨labels, table :: later⟩ gate = .ok ⟨labels ++ [label], later⟩ ∧
      Simulates delta (n + 1) (labels ++ [label]) (garbleGate enc seed delta s gate).mWires
        (Circuit.evaluateGate values gate) := by
  obtain ⟨output, input0, input1, _⟩ := ordered
  have wires := sim.wires
  have a : (s.mWires ++ [nextRand enc seed s.mNextRandIdx]).getD gate.mInput0 zeroBlock =
      s.mWires.getD gate.mInput0 zeroBlock := List.getD_append _ _ _ _ (by omega)
  have b : (s.mWires ++ [nextRand enc seed s.mNextRandIdx]).getD gate.mInput1 zeroBlock =
      s.mWires.getD gate.mInput1 zeroBlock := List.getD_append _ _ _ _ (by omega)
  have same : [garbledTable enc delta (s.mWires.getD gate.mInput0 zeroBlock)
      (s.mWires.getD gate.mInput1 zeroBlock) (nextRand enc seed s.mNextRandIdx) gate] =
      [table] := by
    rw [← a, ← b]
    exact List.append_cancel_left garbled
  obtain rfl := List.singleton_inj.mp same
  refine ⟨nextRand enc seed s.mNextRandIdx ^^^ select (gate.mType.apply
    (values.getD gate.mInput0 false) (values.getD gate.mInput1 false)) delta, ?_, ?_⟩
  · simp only [evaluateGate, sim.active _ input0, sim.active _ input1, permuteBit_xor,
      permuteBit_select odd]
    rw [garbledTable_getD, row_eq, inverse, inverse]
  · rw [Circuit.evaluateGate_eq, output]
    exact sim.extend room _ _

theorem evaluateGates_ok {seed delta : Block} (odd : permuteBit delta = true) {gates : List Gate}
    {n : Nat} {s : GarbleState} {labels : List Block} {tables : List (List Block)}
    {values : List Bool} (sim : Simulates delta n labels s.mWires values)
    (room : n + gates.length ≤ values.length) (ordered : Circuit.OrderedFrom n gates)
    (garbled : (gates.foldl (garbleGate enc seed delta) s).mGates = s.mGates ++ tables) :
    ∃ e, gates.foldlM (evaluateGate dec) ⟨labels, tables⟩ = .ok e ∧
      Simulates delta (n + gates.length) e.labels
        (gates.foldl (garbleGate enc seed delta) s).mWires
        (gates.foldl Circuit.evaluateGate values) := by
  induction gates generalizing n s labels tables values with
  | nil => exact ⟨_, rfl, sim⟩
  | cons gate gates ih =>
    rw [List.length_cons] at room
    obtain ⟨_, later, _, rest⟩ :=
      garble_appends enc seed delta gates (garbleGate enc seed delta s gate)
    obtain ⟨table, first⟩ : ∃ table,
        (garbleGate enc seed delta s gate).mGates = s.mGates ++ [table] := ⟨_, rfl⟩
    rw [List.foldl_cons, rest, first, List.append_assoc, List.append_cancel_left_eq] at garbled
    subst garbled
    obtain ⟨label, step, next⟩ :=
      evaluateGate_ok inverse odd sim (by omega) ordered later first
    have sized : n + 1 + gates.length ≤ (Circuit.evaluateGate values gate).length := by
      rw [Circuit.evaluateGate_length]
      omega
    obtain ⟨e, run, reached⟩ := ih next sized ordered.2.2.2 rest
    refine ⟨e, ?_, ?_⟩
    · rw [List.singleton_append, List.foldlM_cons, step]
      exact run
    · rw [List.length_cons, Nat.add_comm gates.length 1, ← Nat.add_assoc]
      exact reached

end

theorem globalOffset_odd (seed : Block) : permuteBit (globalOffset enc seed) = true := by
  simp [permuteBit, globalOffset]

theorem firstState_wires (cir : Circuit) (seed : Block) :
    (firstState enc cir seed).mWires.length = cir.inputWireCount := by
  simp [firstState]

theorem garbled_wire {cir : Circuit} (seed : Block) {w : Nat} (below : w < cir.inputWireCount) :
    (Garble enc cir seed).mWires.getD w zeroBlock =
      (firstState enc cir seed).mWires.getD w zeroBlock := by
  obtain ⟨wires, _, appended, _⟩ := garble_appends enc seed (globalOffset enc seed) cir.mGates
    (firstState enc cir seed)
  have all : (Garble enc cir seed).mWires = (firstState enc cir seed).mWires ++ wires := appended
  have count := firstState_wires enc cir seed
  rw [all, List.getD_append _ _ _ _ (by omega)]

theorem activeLabels_getD (gc : ClassicGarbledCircuit) {x : List Bool} {w : Nat}
    (below : w < x.length) : (gc.activeLabels x).getD w zeroBlock =
      gc.mWires.getD w zeroBlock ^^^ select (x.getD w false) gc.mGlobalOffset :=
  getD_mapIdx _ below _ _

theorem simulates_start {cir : Circuit} (wires : cir.inputWireCount ≤ cir.mWireCount)
    (seed : Block) {x : List Bool} (sized : x.length = cir.inputWireCount) :
    Simulates (globalOffset enc seed) cir.inputWireCount ((Garble enc cir seed).activeLabels x)
      (firstState enc cir seed).mWires (x.takeD cir.mWireCount false) := by
  refine ⟨by simp [activeLabels, sized], firstState_wires enc cir seed, ?_⟩
  intro w below
  rw [activeLabels_getD _ (by omega), garbled_wire enc seed below, getD_takeD _ _ _ (by omega)]
  rfl

theorem checkInputs_ok {cir : Circuit} (gc : ClassicGarbledCircuit) {x : List Bool}
    (sized : x.length = cir.inputWireCount) :
    gc.checkInputs cir (gc.activeLabels x) = .ok () := by
  rw [checkInputs, Result.forM_ok_iff]
  intro i listed
  have below : i < x.length := by rw [sized]; exact List.mem_range.mp listed
  rw [Result.require_ok_iff, activeLabels_getD gc below]
  cases x.getD i false <;> simp

theorem translateBit_ok {cir : Circuit} (seed : Block) {labels : List Block} {i : Nat}
    (inside : i < cir.mOutputs.length) {value : Bool}
    (active : labels.getD (cir.mOutputs.getD i 0) zeroBlock =
      (Garble enc cir seed).mWires.getD (cir.mOutputs.getD i 0) zeroBlock ^^^
        select value (globalOffset enc seed)) :
    (Garble enc cir seed).translateBit cir labels i = .ok value := by
  have bit : (Garble enc cir seed).mTranslationTable.getD i false =
      permuteBit ((Garble enc cir seed).mWires.getD (cir.mOutputs.getD i 0) zeroBlock) := by
    rw [Garble, List.getD_eq_getElem _ _ (by simpa using inside), List.getElem_map,
      List.getD_eq_getElem _ _ inside]
  have output : ((Garble enc cir seed).mTranslationTable.getD i false ^^
      permuteBit (labels.getD (cir.mOutputs.getD i 0) zeroBlock)) = value := by
    rw [active, permuteBit_xor, permuteBit_select (globalOffset_odd enc seed), bit]
    simp
  have matched : Result.require (labels.getD (cir.mOutputs.getD i 0) zeroBlock = if value then
      (Garble enc cir seed).mWires.getD (cir.mOutputs.getD i 0) zeroBlock ^^^
        (Garble enc cir seed).mGlobalOffset else
      (Garble enc cir seed).mWires.getD (cir.mOutputs.getD i 0) zeroBlock)
      (Fault.thrown "") = .ok () := by
    rw [Result.require_ok_iff, active]
    cases value
    · simp
    · rfl
  simp only [translateBit, output, matched]
  split <;> rfl

theorem map_range_outputs (outputs : List Nat) (values : List Bool) :
    (List.range outputs.length).map (fun i => values.getD (outputs.getD i 0) false) =
      outputs.map (values.getD · false) := by
  apply List.ext_getElem (by simp)
  intro i inside _
  have below : i < outputs.length := by simpa using inside
  simp [below]

/-- Garbling, evaluating and translating throws nowhere and computes the circuit. -/
theorem classic_evaluation_correct {enc dec : Block → Block → Block}
    (inverse : ∀ key b, dec key (enc key b) = b) {cir : Circuit} (wf : cir.WellFormed)
    (seed : Block) {x : List Bool} (sized : x.length = cir.inputWireCount) :
    ∃ labels, (Garble enc cir seed).evaluate dec cir ((Garble enc cir seed).activeLabels x) =
        .ok labels ∧
      (Garble enc cir seed).translate cir labels = .ok (cir.translate (cir.evaluate x)) := by
  have all := wf.wires
  have start := @simulates_start enc cir (by omega) seed x sized
  obtain ⟨e, run, reached⟩ := evaluateGates_ok inverse (globalOffset_odd enc seed) start
    (by rw [List.takeD_length, all]) wf.ordered (List.nil_append _).symm
  have values : cir.mGates.foldl Circuit.evaluateGate (x.takeD cir.mWireCount false) =
      cir.evaluate x := rfl
  rw [values, ← all] at reached
  refine ⟨e.labels, ?_, ?_⟩
  · have count : Result.require (((Garble enc cir seed).activeLabels x).length =
        cir.inputWireCount) (Fault.thrown "") = .ok () :=
      Result.require_ok_iff.mpr start.sized
    have known := @checkInputs_ok cir (Garble enc cir seed) x sized
    simp only [evaluate, count, known]
    split <;> exact congrArg (Except.bind · fun s => .ok s.labels) run
  · have bits : (List.range cir.mOutputs.length).mapM
        ((Garble enc cir seed).translateBit cir e.labels) =
        .ok ((List.range cir.mOutputs.length).map fun i =>
          (cir.evaluate x).getD (cir.mOutputs.getD i 0) false) := by
      refine Result.mapM_eq_map fun i listed => ?_
      have inside := List.mem_range.mp listed
      refine translateBit_ok enc seed inside (reached.active _ (wf.outputs _ ?_))
      rw [List.getD_eq_getElem _ _ inside]
      exact List.getElem_mem inside
    have length : (Garble enc cir seed).mTranslationTable.length = cir.mOutputs.length :=
      List.length_map _
    rw [translate, bits, map_range_outputs, length, Circuit.translate_eq wf]
    change Except.ok _ = _
    rw [List.takeD_eq_take _ (by simp), List.take_of_length_le (by simp)]

/-- An inverter, a gate that reads one wire twice and an exclusive-or of both. -/
def invertedCircuit : Circuit where
  mWireCount := 5
  mNonXorGateCount := 2
  mOutputCount := 2
  mInputs := (1, 1)
  mGates := [⟨1, 0, 2, .na⟩, ⟨2, 2, 3, .nand⟩, ⟨3, 0, 4, .xor⟩]
  mOutputs := [4, 3]

theorem garbled_evaluation_inverted :
    ∃ labels, (Garble (· ^^^ ·) invertedCircuit 9).evaluate (· ^^^ ·) invertedCircuit
          ((Garble (· ^^^ ·) invertedCircuit 9).activeLabels [true, false]) = .ok labels ∧
      (Garble (· ^^^ ·) invertedCircuit 9).translate invertedCircuit labels =
        .ok (invertedCircuit.translate (invertedCircuit.evaluate [true, false])) :=
  classic_evaluation_correct (fun key b => WordXor.xor_cancel_left key b)
    ⟨by decide, by decide, by decide, by decide, by decide⟩ 9 rfl

end ClassicGarbledCircuit

end BatchDualEx
