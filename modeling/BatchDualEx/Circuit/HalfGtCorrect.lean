import BatchDualEx.Circuit.HalfGt
import BatchDualEx.Lib.Lists

/- Evaluating a garbled circuit tracks the plain evaluation: every active label is the
   zero label shifted by the offset exactly when the wire carries a one. -/
namespace BatchDualEx

open WordXor Lists

namespace HalfGtGarbledCircuit

variable (aes : Block → Block → Block)

/-- The first `n` active labels are the zero labels moved by the value times the offset. -/
def WireSim (delta : Block) (n : Nat) (labels zero : List Block) (values : List Bool) : Prop :=
  ∀ w < n, labels.getD w zeroBlock =
    zero.getD w zeroBlock ^^^ select (values.getD w false) delta

theorem offset_odd (seed : Block) : permuteBit (globalOffset aes seed) = true := by
  simp [permuteBit, globalOffset]

theorem hash_select (label delta tweak : Block) (bit : Bool) :
    hashLabel aes (label ^^^ select bit delta) tweak =
      if bit then hashLabel aes (label ^^^ delta) tweak else hashLabel aes label tweak := by
  cases bit <;> simp

/-- The generator half: its table entry corrects the hash of the active first input. -/
theorem generator_half (h0 h1 delta : Block) (x p q : Bool) :
    (if x then h1 else h0) ^^^
        select (p ^^ x) (h0 ^^^ h1 ^^^ select q delta) =
      (if p then h1 else h0) ^^^ select ((p ^^ x) && q) delta := by
  have swap : h1 ^^^ (h0 ^^^ h1) = h0 := by rw [BitVec.xor_comm h0, xor_cancel_left]
  rw [select_words, select_select]
  cases x <;> cases p <;> simp only [Bool.false_eq_true, if_true, if_false, Bool.xor_false,
    Bool.xor_true, Bool.not_true, Bool.not_false, select_true, select_false, Bool.true_and,
    Bool.false_and, BitVec.zero_xor, ← BitVec.xor_assoc, BitVec.xor_self, BitVec.xor_zero]
  rw [BitVec.xor_assoc h1, swap]

/-- The evaluator half: its entry also carries the first zero label, which the active
    first label cancels up to the offset. -/
theorem evaluator_half (h0 h1 a delta : Block) (x y p q : Bool) :
    (if y then h1 else h0) ^^^
        select (p ^^ y) (h0 ^^^ h1 ^^^ a ^^^ select q delta ^^^ (a ^^^ select x delta)) =
      (if p then h1 else h0) ^^^ select ((p ^^ y) && (q ^^ x)) delta := by
  have folded : h0 ^^^ h1 ^^^ a ^^^ select q delta ^^^ (a ^^^ select x delta) =
      h0 ^^^ h1 ^^^ select (q ^^ x) delta := by
    rw [select_xor]
    simp only [BitVec.xor_assoc, xor_left_comm, xor_cancel_left]
  rw [folded, generator_half]

/-- Both halves together add the gate function to the constant of the output label. -/
theorem half_gate_bits (x y pa pb aAlpha bAlpha cAlpha : Bool) :
    (((pa ^^ x) && (bAlpha ^^ pb)) ^^ ((pb ^^ y) && (aAlpha ^^ x))) =
      ((((pa ^^ aAlpha) && (pb ^^ bAlpha)) ^^ cAlpha) ^^
        (((x ^^ aAlpha) && (y ^^ bAlpha)) ^^ cAlpha)) := by
  revert x y pa pb aAlpha bAlpha cAlpha
  decide

/-- One table gate: two hashes and two unmasked entries of the active labels give the zero
    label of the output, shifted by the gate function. -/
theorem half_gate {t : GateType} (supported : t.Garblable) (table : t.isXor = false)
    {delta : Block} (odd : permuteBit delta = true) (a b tweak0 tweak1 : Block) (x y : Bool) :
    let pa := permuteBit a
    let pb := permuteBit b
    let h0 := hashLabel aes a tweak0
    let h1 := hashLabel aes (a ^^^ delta) tweak0
    let h2 := hashLabel aes b tweak1
    let h3 := hashLabel aes (b ^^^ delta) tweak1
    let activeA := a ^^^ select x delta
    let activeB := b ^^^ select y delta
    hashLabel aes activeA tweak0 ^^^ hashLabel aes activeB tweak1 ^^^
        select (permuteBit activeA) (h0 ^^^ h1 ^^^ select (t.bAlpha ^^ pb) delta) ^^^
        select (permuteBit activeB) (h2 ^^^ h3 ^^^ a ^^^ select t.aAlpha delta ^^^ activeA) =
      (if pa then h1 else h0) ^^^ (if pb then h3 else h2) ^^^
        select (((pa ^^ t.aAlpha) && (pb ^^ t.bAlpha)) ^^ t.cAlpha) delta ^^^
        select (t.apply x y) delta := by
  intro pa pb h0 h1 h2 h3 activeA activeB
  have bitA : permuteBit activeA = (pa ^^ x) := by
    simp only [activeA, permuteBit_xor, permuteBit_select odd, pa]
  have bitB : permuteBit activeB = (pb ^^ y) := by
    simp only [activeB, permuteBit_xor, permuteBit_select odd, pb]
  have generator := generator_half h0 h1 delta x pa (t.bAlpha ^^ pb)
  have evaluator := evaluator_half h2 h3 a delta x y pb t.aAlpha
  have bits := half_gate_bits x y pa pb t.aAlpha t.bAlpha t.cAlpha
  rw [bitA, bitB, hash_select, hash_select, GateType.alpha_truth supported table]
  calc
    _ = ((if x then h1 else h0) ^^^
            select (pa ^^ x) (h0 ^^^ h1 ^^^ select (t.bAlpha ^^ pb) delta)) ^^^
          ((if y then h3 else h2) ^^^
            select (pb ^^ y) (h2 ^^^ h3 ^^^ a ^^^ select t.aAlpha delta ^^^ activeA)) := by
      simp only [BitVec.xor_assoc, xor_left_comm, h0, h1, h2, h3]
    _ = ((if pa then h1 else h0) ^^^ select ((pa ^^ x) && (t.bAlpha ^^ pb)) delta) ^^^
          ((if pb then h3 else h2) ^^^ select ((pb ^^ y) && (t.aAlpha ^^ x)) delta) := by
      rw [generator, evaluator]
    _ = (if pa then h1 else h0) ^^^ (if pb then h3 else h2) ^^^
          select (((pa ^^ x) && (t.bAlpha ^^ pb)) ^^ ((pb ^^ y) && (t.aAlpha ^^ x))) delta := by
      rw [select_xor]
      simp only [BitVec.xor_assoc, xor_left_comm]
    _ = _ := by
      rw [bits, select_xor]
      simp only [BitVec.xor_assoc]

theorem garbleGate_wires (delta : Block) (s : GarbleState) (gate : Gate) :
    ∃ label, (garbleGate aes delta s gate).mInputWires = s.mInputWires ++ [label] := by
  simp only [garbleGate]
  split <;> exact ⟨_, rfl⟩

theorem garbleGate_tables (delta : Block) (s : GarbleState) (gate : Gate) :
    ∃ tables, (garbleGate aes delta s gate).mGates = s.mGates ++ tables := by
  simp only [garbleGate]
  split
  · exact ⟨[], (List.append_nil _).symm⟩
  · exact ⟨_, rfl⟩

theorem garble_length (delta : Block) (gates : List Gate) (s : GarbleState) :
    (gates.foldl (garbleGate aes delta) s).mInputWires.length =
      s.mInputWires.length + gates.length := by
  induction gates generalizing s with
  | nil => rfl
  | cons gate gates ih =>
    obtain ⟨label, wires⟩ := garbleGate_wires aes delta s gate
    rw [List.foldl_cons, ih, wires, List.length_append, List.length_cons, List.length_cons,
      List.length_nil]
    omega

theorem garble_frame (delta : Block) (gates : List Gate) (s : GarbleState) {w : Nat}
    (early : w < s.mInputWires.length) :
    (gates.foldl (garbleGate aes delta) s).mInputWires.getD w zeroBlock =
      s.mInputWires.getD w zeroBlock := by
  induction gates generalizing s with
  | nil => rfl
  | cons gate gates ih =>
    obtain ⟨label, wires⟩ := garbleGate_wires aes delta s gate
    rw [List.foldl_cons, ih _ (by rw [wires, List.length_append]; omega), wires,
      List.getD_append _ _ _ _ early]

theorem garble_tables (delta : Block) (gates : List Gate) (s : GarbleState) :
    ∃ tables, (gates.foldl (garbleGate aes delta) s).mGates = s.mGates ++ tables := by
  induction gates generalizing s with
  | nil => exact ⟨[], (List.append_nil _).symm⟩
  | cons gate gates ih =>
    obtain ⟨first, now⟩ := garbleGate_tables aes delta s gate
    obtain ⟨rest, later⟩ := ih (garbleGate aes delta s gate)
    exact ⟨first ++ rest, by rw [List.foldl_cons, later, now, List.append_assoc]⟩

/-- The two loops stand at the same gate: same counters and masks, the evaluator holds the
    tables that are still to be produced, and the labels simulate the values. -/
structure InStep (delta : Block) (gates : List Gate) (n : Nat) (s : GarbleState)
    (e : EvaluateState) (values : List Bool) : Prop where
  tweaks : e.tweaks = s.tweaks
  masks : e.tableMasks = s.tableMasks
  tables : (gates.foldl (garbleGate aes delta) s).mGates = s.mGates ++ e.garbledGateIter
  wires : s.mInputWires.length = n
  room : n + gates.length ≤ e.labels.length
  sized : values.length = e.labels.length
  sim : WireSim delta n e.labels s.mInputWires values

theorem WireSim.extend {delta : Block} {n : Nat} {labels zero : List Block}
    {values : List Bool} (sim : WireSim delta n labels zero values)
    (wires : zero.length = n) (room : n < labels.length) (sized : values.length = labels.length)
    {label fresh : Block} {value : Bool} (next : label = fresh ^^^ select value delta) :
    WireSim delta (n + 1) (labels.set n label) (zero ++ [fresh]) (values.set n value) := by
  intro w below
  by_cases last : w = n
  · subst last
    simp [List.getD_eq_getElem?_getD, room, sized, wires, next]
  · have early : w < n := by omega
    rw [List.getD_append _ _ _ _ (by omega)]
    simp only [List.getD_eq_getElem?_getD, List.getElem?_set_ne (Ne.symm last)]
    simpa only [List.getD_eq_getElem?_getD] using sim w early

theorem step_xor {delta : Block} {gate : Gate} {gates : List Gate} {n : Nat} {s : GarbleState}
    {e : EvaluateState} {values : List Bool} (free : gate.mType.isXor = true)
    (ordered : Circuit.OrderedFrom n (gate :: gates))
    (inStep : InStep aes delta (gate :: gates) n s e values) :
    InStep aes delta gates (n + 1) (garbleGate aes delta s gate) (evaluateGate aes e gate)
      (Circuit.evaluateGate values gate) := by
  obtain ⟨out, lt0, lt1, _⟩ := ordered
  obtain ⟨tweaks, masks, tables, wires, room, sized, sim⟩ := inStep
  have garbled := tables
  rw [List.foldl_cons] at garbled
  rw [List.length_cons] at room
  rw [Circuit.evaluateGate_eq, GateType.xor_truth free, out]
  simp only [garbleGate, evaluateGate, free, if_true, out] at garbled ⊢
  refine ⟨tweaks, masks, garbled, by simp [wires], by simp; omega, by simp [sized], ?_⟩
  refine sim.extend wires (by omega) sized ?_
  rw [sim _ lt0, sim _ lt1, select_xor, select_xor]
  simp only [BitVec.xor_assoc, xor_left_comm, BitVec.xor_self, BitVec.zero_xor,
    BitVec.xor_comm]

/-- The label `evaluate` computes: masks cancel, and a permute bit selects its entry. -/
theorem unmasked_label (p q : Bool) (h m0 m1 t0 t1 a : Block) :
    (if q then (if p then h ^^^ (m0 ^^^ (t0 ^^^ m0)) else h) ^^^ (m1 ^^^ (t1 ^^^ m1)) ^^^ a
      else if p then h ^^^ (m0 ^^^ (t0 ^^^ m0)) else h) =
      h ^^^ select p t0 ^^^ select q (t1 ^^^ a) := by
  cases p <;> cases q <;> simp [BitVec.xor_assoc]

theorem step_table {delta : Block} (odd : permuteBit delta = true) {gate : Gate}
    {gates : List Gate} {n : Nat} {s : GarbleState} {e : EvaluateState} {values : List Bool}
    (supported : gate.mType.Garblable) (table : gate.mType.isXor = false)
    (ordered : Circuit.OrderedFrom n (gate :: gates))
    (inStep : InStep aes delta (gate :: gates) n s e values) :
    InStep aes delta gates (n + 1) (garbleGate aes delta s gate) (evaluateGate aes e gate)
      (Circuit.evaluateGate values gate) := by
  obtain ⟨out, lt0, lt1, _⟩ := ordered
  obtain ⟨tweaks, masks, tables, wires, room, sized, sim⟩ := inStep
  rw [List.foldl_cons] at tables
  rw [List.length_cons] at room
  obtain ⟨rest, later⟩ := garble_tables aes delta gates (garbleGate aes delta s gate)
  rw [later] at tables
  rw [Circuit.evaluateGate_eq, out]
  simp only [garbleGate, table, Bool.false_eq_true, if_false, List.append_assoc,
    List.append_cancel_left_eq, List.singleton_append] at tables
  simp only [garbleGate, table, Bool.false_eq_true, if_false] at later
  simp only [garbleGate, evaluateGate, table, Bool.false_eq_true, if_false, out, ← tables,
    nextGarbledGate, tweaks, masks]
  refine ⟨rfl, rfl, later, by simp [wires], by simp; omega, by simp [sized], ?_⟩
  refine sim.extend wires (by omega) sized ?_
  rw [sim _ lt0, sim _ lt1]
  have gateSpec := half_gate aes supported table odd (s.mInputWires.getD gate.mInput0 zeroBlock)
    (s.mInputWires.getD gate.mInput1 zeroBlock) s.tweaks.1 s.tweaks.2
    (values.getD gate.mInput0 false) (values.getD gate.mInput1 false)
  rw [← gateSpec, unmasked_label]

theorem evaluate_simulates {delta : Block} (odd : permuteBit delta = true) {gates : List Gate}
    {n : Nat} {s : GarbleState} {e : EvaluateState} {values : List Bool}
    (supported : ∀ gate ∈ gates, gate.mType.Garblable) (ordered : Circuit.OrderedFrom n gates)
    (inStep : InStep aes delta gates n s e values) :
    WireSim delta (n + gates.length) (gates.foldl (evaluateGate aes) e).labels
      (gates.foldl (garbleGate aes delta) s).mInputWires
      (gates.foldl Circuit.evaluateGate values) := by
  induction gates generalizing n s e values with
  | nil => exact inStep.sim
  | cons gate gates ih =>
    have here := supported gate List.mem_cons_self
    have later : ∀ g ∈ gates, g.mType.Garblable := fun g hg =>
      supported g (List.mem_cons_of_mem _ hg)
    have next : InStep aes delta gates (n + 1) (garbleGate aes delta s gate)
        (evaluateGate aes e gate) (Circuit.evaluateGate values gate) := by
      cases kind : gate.mType.isXor with
      | true => exact step_xor aes kind ordered inStep
      | false => exact step_table aes odd here kind ordered inStep
    have reached := ih later ordered.2.2.2 next
    rwa [List.length_cons, Nat.add_comm gates.length 1, ← Nat.add_assoc]

theorem evaluateGate_frame (s : EvaluateState) (gate : Gate) {w : Nat} (other : w ≠ gate.mOutput) :
    (evaluateGate aes s gate).labels.getD w zeroBlock = s.labels.getD w zeroBlock := by
  unfold evaluateGate
  by_cases free : gate.mType.isXor
  · simp only [free, if_true]
    exact getD_set_ne _ other.symm _ _
  · simp only [free]
    exact getD_set_ne _ other.symm _ _

theorem evaluate_frame {gates : List Gate} {n : Nat} (ordered : Circuit.OrderedFrom n gates)
    (s : EvaluateState) {w : Nat} (below : w < n) :
    (gates.foldl (evaluateGate aes) s).labels.getD w zeroBlock = s.labels.getD w zeroBlock := by
  induction gates generalizing n s with
  | nil => rfl
  | cons gate gates ih =>
    obtain ⟨output, _, _, rest⟩ := ordered
    rw [List.foldl_cons, ih rest _ (Nat.lt_succ_of_lt below)]
    exact evaluateGate_frame aes s gate (by omega)

/-- One table per gate that is not an exclusive-or: `mGates` and the masks that are read
    match `NonXorGateCount()`. -/
theorem garble_table_count (delta : Block) (gates : List Gate) (s : GarbleState) :
    (gates.foldl (garbleGate aes delta) s).mGates.length =
      s.mGates.length + gates.countP (fun g => !g.mType.isXor) := by
  induction gates generalizing s with
  | nil => rfl
  | cons gate gates ih =>
    rw [List.foldl_cons, ih, List.countP_cons]
    cases kind : gate.mType.isXor <;> simp [garbleGate, kind, Nat.add_assoc, Nat.add_comm]

theorem inputLabels_length {cd : Circuit} {indexArray : List Block} (seed : Block)
    (reach : cd.inputWireCount ≤ indexArray.length) :
    (inputLabels aes seed indexArray cd).length = cd.inputWireCount := by
  simp [inputLabels, reach]

theorem garble_inputs {cd : Circuit} {seed : Block} {indexArray : List Block}
    (tableMasks : List Block) (reach : cd.inputWireCount ≤ indexArray.length) {w : Nat}
    (input : w < cd.inputWireCount) :
    (Garble aes cd seed indexArray tableMasks).mInputWires.getD w zeroBlock =
      (inputLabels aes seed indexArray cd).getD w zeroBlock := by
  have start := inputLabels_length aes seed reach
  have sized := garble_length aes (globalOffset aes seed) cd.mGates
    ⟨inputLabels aes seed indexArray cd, [], firstTweaks cd, tableMasks⟩
  rw [← garble_frame aes (globalOffset aes seed) cd.mGates
    ⟨inputLabels aes seed indexArray cd, [], firstTweaks cd, tableMasks⟩
    (by rw [start]; exact input)]
  simp only [Garble, garbleLoop]
  rw [List.takeD_eq_take _ (by rw [sized]; simp only [start]; omega)]
  simp only [List.getD_eq_getElem?_getD, List.getElem?_take, input, if_true]

theorem translationTable_getD {cd : Circuit} (wf : cd.WellFormed) (wires : List Block)
    {i : Nat} (output : i < cd.mOutputCount) :
    (translationTable cd wires).getD i false =
      permuteBit (wires.getD (cd.mOutputs.getD i 0) zeroBlock) := by
  have bound : i < cd.mOutputs.length := by rw [← wf.outputCount]; exact output
  rw [translationTable, wf.outputCount, List.takeD_eq_take _ (by simp)]
  simp [List.getD_eq_getElem?_getD, bound]

theorem translationTable_length (cd : Circuit) (wires : List Block) :
    (translationTable cd wires).length = cd.mOutputCount := by
  simp [translationTable]

theorem translate_simulates {cd : Circuit} (wf : cd.WellFormed) {gc : HalfGtGarbledCircuit}
    {delta : Block} (odd : permuteBit delta = true) {labels zero : List Block}
    {values : List Bool} (table : gc.mTranslationTable = translationTable cd zero)
    (sim : WireSim delta cd.mWireCount labels zero values) :
    gc.translate cd labels = cd.translate values := by
  rw [Circuit.translate_eq wf, translate, table, translationTable_length,
    List.takeD_eq_take _ (by simp)]
  apply List.ext_getElem
  · simp [wf.outputCount]
  · intro i inLeft inRight
    have bound : i < cd.mOutputs.length := by simpa using inRight
    have output : i < cd.mOutputCount := by rw [wf.outputCount]; exact bound
    have wire := sim _ (wf.outputs _ (List.getElem_mem bound))
    simp only [List.getElem_take, List.getElem_map, List.getElem_range]
    rw [translationTable_getD wf zero output, List.getD_eq_getElem _ _ bound, wire,
      permuteBit_xor, permuteBit_select odd, ← Bool.xor_assoc, Bool.xor_self, Bool.false_xor]

theorem evaluate_labels {cd : Circuit} (wf : cd.WellFormed)
    (supported : ∀ gate ∈ cd.mGates, gate.mType.Garblable) (seed : Block)
    {indexArray : List Block} (reach : cd.inputWireCount ≤ indexArray.length)
    (tableMasks : List Block) (x : List Bool)
    {labels : List Block} (room : labels.length = cd.mWireCount)
    (given : ∀ i < cd.inputWireCount, labels.getD i zeroBlock =
      (Garble aes cd seed indexArray tableMasks).mInputWires.getD i zeroBlock ^^^
        select (x.getD i false) (Garble aes cd seed indexArray tableMasks).mGlobalOffset) :
    WireSim (globalOffset aes seed) cd.mWireCount
      ((Garble aes cd seed indexArray tableMasks).evaluate aes cd labels tableMasks)
      (garbleLoop aes cd seed indexArray tableMasks).mInputWires (cd.evaluate x) := by
  have odd := offset_odd aes seed
  have wires := wf.wires
  have inStep : InStep aes (globalOffset aes seed) cd.mGates cd.inputWireCount
      ⟨inputLabels aes seed indexArray cd, [], firstTweaks cd, tableMasks⟩
      ⟨labels, (Garble aes cd seed indexArray tableMasks).mGates, firstTweaks cd, tableMasks⟩
      (x.takeD cd.mWireCount false) := by
    refine ⟨rfl, rfl, by simp [Garble, garbleLoop], inputLabels_length aes seed reach,
      by simp only [room]; omega, by simp [room], ?_⟩
    intro w input
    rw [getD_takeD _ _ _ (by omega), given w input, garble_inputs aes tableMasks reach input]
    rfl
  have sim := evaluate_simulates aes odd supported wf.ordered inStep
  rw [← wires] at sim
  exact sim

/-- Garbling, evaluating on the labels of `x` and translating computes the plain circuit,
    and every wire carries its zero label moved by its value times the offset. -/
theorem garbled_evaluation_correct {cd : Circuit} (wf : cd.WellFormed)
    (supported : ∀ gate ∈ cd.mGates, gate.mType.Garblable) (seed : Block)
    {indexArray : List Block} (reach : cd.inputWireCount ≤ indexArray.length)
    (tableMasks : List Block) (x : List Bool)
    {labels : List Block} (room : labels.length = cd.mWireCount)
    (given : ∀ i < cd.inputWireCount, labels.getD i zeroBlock =
      (Garble aes cd seed indexArray tableMasks).mInputWires.getD i zeroBlock ^^^
        select (x.getD i false) (Garble aes cd seed indexArray tableMasks).mGlobalOffset) :
    let gc := Garble aes cd seed indexArray tableMasks
    let active := gc.evaluate aes cd labels tableMasks
    gc.translate cd active = cd.translate (cd.evaluate x) ∧
      ∀ w < cd.mWireCount, active.getD w zeroBlock =
        (garbleLoop aes cd seed indexArray tableMasks).mInputWires.getD w zeroBlock ^^^
          select ((cd.evaluate x).getD w false) gc.mGlobalOffset := by
  intro gc active
  have sim := evaluate_labels aes wf supported seed reach tableMasks x room given
  exact ⟨translate_simulates wf (offset_odd aes seed) rfl sim, sim⟩

def activeLabels (gc : HalfGtGarbledCircuit) (cd : Circuit) (x : List Bool) : List Block :=
  ((List.range cd.inputWireCount).map fun i =>
    gc.mInputWires.getD i zeroBlock ^^^ select (x.getD i false) gc.mGlobalOffset).takeD
      cd.mWireCount zeroBlock

/-- A table gate, a table gate with all three modifiers and a free gate. -/
def threeGates : Circuit where
  mWireCount := 5
  mNonXorGateCount := 2
  mOutputCount := 2
  mInputs := (1, 1)
  mGates := [⟨0, 1, 2, .and⟩, ⟨2, 0, 3, .or⟩, ⟨2, 3, 4, .nxor⟩]
  mOutputs := [3, 4]

theorem threeGates_wellFormed : threeGates.WellFormed := by
  constructor <;> decide

def rotatingAes (key b : Block) : Block := key ^^^ b.rotateLeft 3

theorem garbled_evaluation_three_gates :
    let gc := Garble rotatingAes threeGates 5 [0, 1] [1, 2, 3, 4]
    let labels := gc.activeLabels threeGates [true, false]
    let active := gc.evaluate rotatingAes threeGates labels [1, 2, 3, 4]
    gc.translate threeGates active = threeGates.translate (threeGates.evaluate [true, false]) ∧
      ∀ w < threeGates.mWireCount, active.getD w zeroBlock =
        (garbleLoop rotatingAes threeGates 5 [0, 1] [1, 2, 3, 4]).mInputWires.getD w zeroBlock ^^^
          select ((threeGates.evaluate [true, false]).getD w false) gc.mGlobalOffset :=
  garbled_evaluation_correct rotatingAes threeGates_wellFormed (by decide) 5 (by decide)
    [1, 2, 3, 4] [true, false] (by decide) (by decide +kernel)

end HalfGtGarbledCircuit

end BatchDualEx
