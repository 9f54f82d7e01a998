import BatchDualEx.Circuit.Circuit
import Mathlib.Data.List.GetD

/- `Circuit::xorShareInputs`: every input wire becomes the XOR of two new input wires, one of
   each party, and all old wires move up by twice the old number of inputs. -/
namespace BatchDualEx.Circuit

def shareGates (inIter1 outIter first count : Nat) : List Gate :=
  (List.range' first count).map fun i => ⟨i, inIter1 + i, outIter + i, .xor⟩

def shiftGate (offset : Nat) (g : Gate) : Gate :=
  ⟨g.mInput0 + offset, g.mInput1 + offset, g.mOutput + offset, g.mType⟩

def xorShareInputs (c : Circuit) : Circuit :=
  let wiresAdded := c.mInputs.1 + c.mInputs.2
  let mInputs0 := c.mInputs.1 + c.mInputs.2
  let mInputs1 := mInputs0
  let offset := 2 * wiresAdded
  { c with
    mInputs := (mInputs0, mInputs1)
    mWireCount := c.mWireCount + offset
    mGates := shareGates mInputs0 (mInputs0 + mInputs1) 0 c.mInputs.1 ++
      shareGates mInputs0 (mInputs0 + mInputs1) c.mInputs.1 c.mInputs.2 ++
      c.mGates.map (shiftGate offset)
    mOutputs := c.mOutputs.map (· + offset) }

structure Numbered (c : Circuit) : Prop where
  writes : ∀ k (_ : k < c.mGates.length), c.mGates[k].mOutput = c.inputWireCount + k
  wires : c.mWireCount = c.inputWireCount + c.mGates.length
  tables : c.mNonXorGateCount = c.mGates.countP fun g => !g.mType.isXor
  outputCount : c.mOutputCount = c.mOutputs.length

theorem OrderedFrom.writes {n : Nat} {gs : List Gate} (ordered : OrderedFrom n gs) (k : Nat)
    (inside : k < gs.length) : gs[k].mOutput = n + k := by
  induction gs generalizing n k with
  | nil => exact absurd inside (Nat.not_lt_zero k)
  | cons g gs ih =>
    obtain ⟨first, _, _, rest⟩ := ordered
    cases k with
    | zero => simpa using first
    | succ k =>
      have later := ih rest k (by simpa using inside)
      simp only [List.getElem_cons_succ, later]
      omega

theorem WellFormed.numbered {c : Circuit} (wf : c.WellFormed) : c.Numbered where
  writes := wf.ordered.writes
  wires := wf.wires
  tables := wf.tables
  outputCount := wf.outputCount

theorem orderedFrom_shift {n : Nat} {gs : List Gate} (offset : Nat) (ordered : OrderedFrom n gs) :
    OrderedFrom (n + offset) (gs.map (shiftGate offset)) := by
  induction gs generalizing n with
  | nil => trivial
  | cons g gs ih =>
    obtain ⟨writes, reads0, reads1, rest⟩ := ordered
    have later := ih rest
    rw [Nat.add_right_comm] at later
    simp only [List.map_cons, OrderedFrom, shiftGate]
    exact ⟨by omega, by omega, by omega, later⟩

theorem orderedFrom_shareGates {inIter1 outIter first count : Nat}
    (below : inIter1 + first + count ≤ outIter) :
    OrderedFrom (outIter + first) (shareGates inIter1 outIter first count) := by
  induction count generalizing first with
  | zero => trivial
  | succ count ih =>
    have later := @ih (first + 1) (by omega)
    rw [shareGates, List.range'_succ, List.map_cons]
    exact ⟨rfl, by dsimp only; omega, by dsimp only; omega, later⟩

theorem shareGates_append (inIter1 outIter n m : Nat) :
    shareGates inIter1 outIter 0 n ++ shareGates inIter1 outIter n m =
      shareGates inIter1 outIter 0 (n + m) := by
  rw [shareGates, shareGates, shareGates, ← List.map_append, ← List.range'_append]
  simp

theorem shareGates_length (inIter1 outIter first count : Nat) :
    (shareGates inIter1 outIter first count).length = count := by
  simp [shareGates]

theorem xorShareInputs_gates (c : Circuit) : c.xorShareInputs.mGates =
    shareGates c.inputWireCount (2 * c.inputWireCount) 0 c.inputWireCount ++
      c.mGates.map (shiftGate (2 * c.inputWireCount)) := by
  simp only [xorShareInputs, shareGates_append]
  rw [← Nat.two_mul]
  rfl

theorem xorShareInputs_numbered {c : Circuit} (numbered : c.Numbered) :
    c.xorShareInputs.Numbered where
  writes := by
    intro k inside
    have count : c.xorShareInputs.inputWireCount = 2 * c.inputWireCount := by
      rw [Nat.two_mul]; rfl
    simp only [xorShareInputs_gates, List.length_append, shareGates_length, List.length_map]
      at inside
    simp only [count, xorShareInputs_gates, List.getElem_append, shareGates_length]
    split
    · simp [shareGates]
    · rename_i late
      simp only [List.getElem_map, shiftGate]
      rw [numbered.writes _ (by omega)]
      omega
  wires := by
    rw [xorShareInputs_gates, List.length_append, shareGates_length, List.length_map]
    simp only [xorShareInputs, inputWireCount, numbered.wires]
    omega
  tables := by
    rw [xorShareInputs_gates, List.countP_append, List.countP_map]
    have shares : (shareGates c.inputWireCount (2 * c.inputWireCount) 0
        c.inputWireCount).countP (fun g => !g.mType.isXor) = 0 := by
      rw [List.countP_eq_zero]
      intro g listed
      obtain ⟨i, _, rfl⟩ := List.mem_map.mp listed
      simp [GateType.isXor]
    rw [shares, Nat.zero_add]
    exact numbered.tables
  outputCount := by
    rw [xorShareInputs, List.length_map]
    exact numbered.outputCount

theorem xorShareInputs_wellFormed {c : Circuit} (wf : c.WellFormed) :
    c.xorShareInputs.WellFormed := by
  have numbered := xorShareInputs_numbered wf.numbered
  refine ⟨?_, numbered.wires, numbered.tables, ?_, numbered.outputCount⟩
  · have count : c.xorShareInputs.inputWireCount = 2 * c.inputWireCount := by
      rw [Nat.two_mul]; rfl
    rw [xorShareInputs_gates, count, orderedFrom_append, shareGates_length]
    have shifted := orderedFrom_shift (2 * c.inputWireCount) wf.ordered
    rw [Nat.add_comm c.inputWireCount] at shifted
    have shares : OrderedFrom (2 * c.inputWireCount + 0) (shareGates c.inputWireCount
        (2 * c.inputWireCount) 0 c.inputWireCount) :=
      orderedFrom_shareGates (by omega)
    exact ⟨shares, shifted⟩
  · intro o listed
    obtain ⟨old, inside, rfl⟩ := List.mem_map.mp listed
    exact Nat.add_lt_add_right (wf.outputs old inside) _

theorem evaluateGate_shift (front labels : List Bool) (g : Gate) :
    evaluateGate (front ++ labels) (shiftGate front.length g) =
      front ++ evaluateGate labels g := by
  simp only [evaluateGate_eq, shiftGate]
  rw [List.getD_append_right _ _ _ _ (Nat.le_add_left _ _), Nat.add_sub_cancel,
    List.getD_append_right _ _ _ _ (Nat.le_add_left _ _), Nat.add_sub_cancel,
    List.set_append_right _ _ (Nat.le_add_left _ _), Nat.add_sub_cancel]

theorem foldl_evaluateGate_shift (front labels : List Bool) (gs : List Gate) :
    (gs.map (shiftGate front.length)).foldl evaluateGate (front ++ labels) =
      front ++ gs.foldl evaluateGate labels := by
  induction gs generalizing labels with
  | nil => rfl
  | cons g gs ih =>
    rw [List.map_cons, List.foldl_cons, evaluateGate_shift, List.foldl_cons]
    exact ih _

/-- After `k` of the new gates the first `k` old inputs hold their XOR. -/
theorem foldl_shareGates {s0 s1 : List Bool} {n : Nat} (sized0 : s0.length = n)
    (sized1 : s1.length = n) {room k : Nat} (fits : n ≤ room) (within : k ≤ n) :
    (shareGates n (2 * n) 0 k).foldl evaluateGate
        (s0 ++ s1 ++ List.replicate room false) =
      s0 ++ s1 ++ ((List.zipWith xor s0 s1).take k ++ List.replicate (room - k) false) := by
  induction k with
  | zero => simp [shareGates]
  | succ k ih =>
    have added : shareGates n (2 * n) 0 (k + 1) =
        shareGates n (2 * n) 0 k ++ [⟨k, n + k, 2 * n + k, .xor⟩] := by
      simp [shareGates, List.range'_concat]
    have inside : k < (List.zipWith xor s0 s1).length := by
      rw [List.length_zipWith]; omega
    obtain ⟨left, later⟩ : ∃ left, room - k = left + 1 := ⟨room - k - 1, by omega⟩
    have front : (s0 ++ s1).length = 2 * n := by rw [List.length_append]; omega
    have done : ((List.zipWith xor s0 s1).take k).length = k := by
      rw [List.length_take]; omega
    have rest : room - (k + 1) = left := by omega
    rw [added, List.foldl_append, ih (by omega), List.foldl_cons, List.foldl_nil, evaluateGate_eq,
      rest, later, List.replicate_succ]
    dsimp only
    have reads0 : (s0 ++ s1 ++ ((List.zipWith xor s0 s1).take k ++
        false :: List.replicate left false)).getD k false = s0[k] := by
      rw [List.append_assoc, List.getD_append _ _ _ _ (by omega),
        List.getD_eq_getElem _ _ (by omega)]
    have reads1 : (s0 ++ s1 ++ ((List.zipWith xor s0 s1).take k ++
        false :: List.replicate left false)).getD (n + k) false = s1[k] := by
      rw [List.append_assoc, List.getD_append_right _ _ _ _ (by omega),
        List.getD_append _ _ _ _ (by omega), List.getD_eq_getElem _ _ (by omega)]
      simp only [sized0, Nat.add_sub_cancel_left]
    rw [reads0, reads1, List.set_append_right _ _ (by omega), front, Nat.add_sub_cancel_left,
      List.set_append_right _ _ (by omega), done, Nat.sub_self, List.set_cons_zero,
      List.take_succ_eq_append_getElem inside, List.getElem_zipWith, List.append_assoc,
      List.append_assoc, List.append_assoc]
    cases s0[k] <;> cases s1[k] <;> rfl

theorem takeD_append_replicate (l : List Bool) (n : Nat) :
    l.takeD (l.length + n) false = l ++ List.replicate n false := by
  induction l with
  | nil => simp [List.takeD_nil]
  | cons b l ih =>
    rw [List.length_cons, Nat.add_right_comm, List.takeD_succ, List.head?_cons, List.tail_cons, ih]
    rfl

theorem evaluate_xorShareInputs {c : Circuit} (wires : c.inputWireCount ≤ c.mWireCount)
    {s0 s1 : List Bool} (sized0 : s0.length = c.inputWireCount)
    (sized1 : s1.length = c.inputWireCount) :
    c.xorShareInputs.evaluate (s0 ++ s1) = s0 ++ s1 ++ c.evaluate (List.zipWith xor s0 s1) := by
  have front : (s0 ++ s1).length = 2 * c.inputWireCount := by rw [List.length_append]; omega
  have sized : (List.zipWith xor s0 s1).length = c.inputWireCount := by
    rw [List.length_zipWith]; omega
  have start : (s0 ++ s1).takeD c.xorShareInputs.mWireCount false =
      s0 ++ s1 ++ List.replicate c.mWireCount false := by
    have count : c.xorShareInputs.mWireCount = (s0 ++ s1).length + c.mWireCount := by
      rw [front, Nat.add_comm]; rfl
    rw [count, takeD_append_replicate]
  have shared : (List.zipWith xor s0 s1).takeD c.mWireCount false =
      (List.zipWith xor s0 s1).take c.inputWireCount ++
        List.replicate (c.mWireCount - c.inputWireCount) false := by
    obtain ⟨more, count⟩ := Nat.exists_eq_add_of_le wires
    rw [List.take_of_length_le (by omega), count, ← sized, takeD_append_replicate,
      Nat.add_sub_cancel_left]
  rw [evaluate, start, xorShareInputs_gates, List.foldl_append,
    foldl_shareGates sized0 sized1 wires le_rfl, ← front, foldl_evaluateGate_shift, evaluate,
    shared]

theorem xorShareInputs_computes {c : Circuit} (numbered : c.Numbered) :
    c.xorShareInputs.Numbered ∧ (c.WellFormed → c.xorShareInputs.WellFormed) ∧
      c.xorShareInputs.mInputs = (c.inputWireCount, c.inputWireCount) ∧
      ∀ s0 s1 : List Bool, s0.length = c.inputWireCount → s1.length = c.inputWireCount →
        c.xorShareInputs.translate (c.xorShareInputs.evaluate (s0 ++ s1)) =
          c.translate (c.evaluate (List.zipWith xor s0 s1)) := by
  refine ⟨xorShareInputs_numbered numbered, xorShareInputs_wellFormed, rfl, ?_⟩
  intro s0 s1 sized0 sized1
  have wires : c.inputWireCount ≤ c.mWireCount := by rw [numbered.wires]; omega
  have front : (s0 ++ s1).length = 2 * c.inputWireCount := by rw [List.length_append]; omega
  have outputs : c.xorShareInputs.mOutputs = c.mOutputs.map (· + (s0 ++ s1).length) := by
    rw [front]; rfl
  rw [evaluate_xorShareInputs wires sized0 sized1, translate, translate, outputs, List.map_map]
  congr 1
  refine List.map_congr_left fun o _ => ?_
  rw [Function.comp_apply, List.getD_append_right _ _ _ _ (Nat.le_add_left _ _),
    Nat.add_sub_cancel]

def andCircuit : Circuit := ⟨3, 1, 1, (1, 1), [⟨0, 1, 2, .and⟩], [2]⟩

theorem andCircuit_wellFormed : andCircuit.WellFormed :=
  ⟨by decide, by decide, by decide, by decide, by decide⟩

theorem xorShareInputs_computes_and :
    andCircuit.Numbered ∧ andCircuit.xorShareInputs.translate
        (andCircuit.xorShareInputs.evaluate ([true, false] ++ [false, true])) =
      andCircuit.translate (andCircuit.evaluate [true, true]) :=
  ⟨andCircuit_wellFormed.numbered,
    (xorShareInputs_computes andCircuit_wellFormed.numbered).2.2.2 [true, false] [false, true]
      rfl rfl⟩

end BatchDualEx.Circuit
