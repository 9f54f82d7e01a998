import BatchDualEx.Circuit.BrisLoad
import BatchDualEx.Circuit.ReduceInvert

/- Bristol netlists and their meaning, the graph that is read from one, and when the circuit
   without INV gates has the outputs of the circuit with them. -/
namespace BatchDualEx

open Function Result

/-- XOR and AND have two inputs, INV has one, and every line has one output. -/
def BrisLine.WellKinded (l : BrisLine) : Prop :=
  l.fanOut = 1 ∧ ((l.gateType = "XOR" ∨ l.gateType = "AND") ∧ l.inputs.length = 2 ∨
    l.gateType = "INV" ∧ l.inputs.length = 1)

/-- The value of the output of a line. With `untold`, an AND that reads such a wire twice is a
    NAND. -/
def BrisLine.value (untold : Nat → Bool) (l : BrisLine) (v : Nat → Bool) : Bool :=
  let input0 := l.inputs.getD 0 0
  let input1 := l.inputs.getD 1 0
  if l.gateType = "XOR" then v input0 ^^ v input1
  else if l.gateType = "AND" then
    if input0 = input1 ∧ untold input0 then !(v input0 && v input1) else v input0 && v input1
  else !v input0

namespace BrisFile

variable (f : BrisFile)

/-- The lines drive every wire that is no input exactly once, and can be put into an order in
    which every line comes after the lines of its inputs. -/
structure WellFormed : Prop where
  inputs : f.inputWireCount ≤ f.mWireCount
  driven : (f.lines.map (·.output)).Perm
    (List.range' f.inputWireCount (f.mWireCount - f.inputWireCount))
  kinds : ∀ l ∈ f.lines, l.WellKinded
  acyclic : ∃ rank : Nat → Nat, ∀ l ∈ f.lines, ∀ i ∈ l.inputs,
    i < f.mWireCount ∧ rank i < rank l.output
  outputs : f.outputCount ≤ f.mWireCount
  u64 : f.mWireCount ≤ Circuit.noWire

def isOutput (w : Nat) : Prop := f.mWireCount - f.outputCount ≤ w ∧ w < f.mWireCount

instance (w : Nat) : Decidable (f.isOutput w) := inferInstanceAs (Decidable (_ ∧ _))

structure Solves (untold : Nat → Bool) (x : List Bool) (v : Nat → Bool) : Prop where
  inputs : ∀ i < f.inputWireCount, v i = x.getD i false
  lines : ∀ l ∈ f.lines, v l.output = l.value untold v

/-- The wire is read by an INV that drives an output. -/
def FeedsOutputInvert (w : Nat) : Prop :=
  ∃ l ∈ f.lines, l.gateType = "INV" ∧ f.isOutput l.output ∧ l.inputs = [w]

instance (w : Nat) : Decidable (f.FeedsOutputInvert w) :=
  inferInstanceAs (Decidable (∃ l ∈ f.lines, _))

def InvertsApart : Prop := ∀ w, f.isOutput w → ¬ f.FeedsOutputInvert w

/-- No output depends on whether the AND gates that read a wire before an INV of an output
    twice are NAND gates instead. -/
def DoublesUnseen : Prop := ∀ x v v', x.length = f.inputWireCount →
  f.Solves (fun _ => false) x v → f.Solves (fun w => decide (f.FeedsOutputInvert w)) x v' →
    ∀ w, f.isOutput w → v w = v' w

end BrisFile

namespace DagCircuit

section Read

variable {f : BrisFile}

/-- The graph after the lines `done` have been read. -/
structure ReadAs (f : BrisFile) (done : List BrisLine) (d : DagCircuit f.mWireCount) : Prop where
  inputCounts : d.mInputCounts = f.mInputCounts
  numGates : d.numGates = f.lines.length
  counted : d.mNonInvertGateCount ≤ done.length
  undriven : ∀ n : Fin f.mWireCount, (∀ l ∈ done, l.output ≠ n.val) →
    d.mParents n = [] ∧ d.mWireIdx n = if n.val < f.inputWireCount then n.val else 0
  driven : ∀ l ∈ done, ∃ n : Fin f.mWireCount, n.val = l.output ∧ d.mWireIdx n = n.val ∧
    (d.mParents n).map Fin.val = l.inputs ∧ ∃ k, parseType l.gateType = .ok (d.mType n, k)
  linked : d.Linked
  outputs : d.mOutputs.length = f.outputCount ∧
    ∀ k (n : Fin f.mWireCount), n.val = f.mWireCount - f.outputCount + k →
      k < f.outputCount → d.mOutputs[k]? = some
        (if ∃ l ∈ done, l.output = n.val then some n else none)

theorem output_range (wf : f.WellFormed) {l : BrisLine} (listed : l ∈ f.lines) :
    f.inputWireCount ≤ l.output ∧ l.output < f.mWireCount := by
  have driven := wf.driven.subset (List.mem_map_of_mem (f := (·.output)) listed)
  rw [List.mem_range'_1] at driven
  have := wf.inputs
  omega

/-- When no wire is driven twice, every line is the last one of its wire. -/
theorem Loaded.readAs (wf : f.WellFormed) {d : DagCircuit f.mWireCount}
    (loaded : Loaded f f.lines.reverse d) : ReadAs f f.lines.reverse d := by
  have distinct : (f.lines.map (·.output)).Nodup := wf.driven.nodup_iff.mpr List.nodup_range'
  refine ⟨loaded.inputCounts, loaded.numGates, ?_, loaded.undriven, ?_, ?_, loaded.outputs⟩
  · rw [loaded.counted]
    exact List.countP_le_length
  · intro l listed
    have inFile := List.mem_reverse.mp listed
    let n : Fin f.mWireCount := ⟨l.output, (output_range wf inFile).2⟩
    obtain ⟨l', listed', here, rest⟩ := loaded.driven n ⟨l, listed, rfl⟩
    obtain rfl := List.inj_on_of_nodup_map distinct (List.mem_reverse.mp listed') inFile here
    exact ⟨n, rfl, rest⟩
  · intro q n
    refine loaded.linked n ?_ q
    have once := List.nodup_iff_count_le_one.mp distinct n.val
    rw [List.countP_reverse]
    rwa [List.count_eq_countP, List.countP_map] at once

theorem readBris_ok {d : DagCircuit f.mWireCount} (wf : f.WellFormed)
    (run : readBris f = .ok d) : ReadAs f f.lines.reverse d :=
  (loaded_of_ok wf.outputs run).readAs wf

end Read

section Facts

variable {f : BrisFile} {d : DagCircuit f.mWireCount}

theorem ReadAs.isInput_iff {done : List BrisLine} (read : ReadAs f done d)
    (n : Fin f.mWireCount) : d.isInput n ↔ n.val < f.inputWireCount := by
  unfold isInput inputWireCount BrisFile.inputWireCount
  rw [read.inputCounts]

theorem ReadAs.line (wf : f.WellFormed) (read : ReadAs f f.lines.reverse d)
    {n : Fin f.mWireCount} (gate : ¬ d.isInput n) :
    ∃ l ∈ f.lines, l.output = n.val ∧ (d.mParents n).map Fin.val = l.inputs ∧
      d.mWireIdx n = n.val ∧ ∃ k, parseType l.gateType = .ok (d.mType n, k) := by
  rw [read.isInput_iff] at gate
  have driven : n.val ∈ f.lines.map (·.output) := by
    refine wf.driven.symm.subset (List.mem_range'_1.mpr ?_)
    have := n.isLt
    omega
  obtain ⟨l, listed, here⟩ := List.mem_map.mp driven
  obtain ⟨m, at_m, wire, inputs, parsed⟩ := read.driven l (List.mem_reverse.mpr listed)
  obtain rfl : m = n := Fin.ext (at_m.trans here)
  exact ⟨l, listed, here, inputs, wire, parsed⟩

theorem ReadAs.gate (wf : f.WellFormed) (read : ReadAs f f.lines.reverse d) {l : BrisLine}
    (listed : l ∈ f.lines) : ∃ n : Fin f.mWireCount, ¬ d.isInput n ∧ n.val = l.output ∧
      (d.mParents n).map Fin.val = l.inputs ∧
      ∃ k, parseType l.gateType = .ok (d.mType n, k) := by
  obtain ⟨n, at_n, _, inputs, parsed⟩ := read.driven l (List.mem_reverse.mpr listed)
  refine ⟨n, ?_, at_n, inputs, parsed⟩
  rw [read.isInput_iff, at_n, Nat.not_lt]
  exact (output_range wf listed).1

theorem ReadAs.input (wf : f.WellFormed) (read : ReadAs f f.lines.reverse d)
    {n : Fin f.mWireCount} (input : d.isInput n) : d.mParents n = [] ∧ d.mWireIdx n = n.val := by
  rw [read.isInput_iff] at input
  obtain ⟨none, wire⟩ := read.undriven n fun l listed here => by
    have := (output_range wf (List.mem_reverse.mp listed)).1
    omega
  rw [if_pos input] at wire
  exact ⟨none, wire⟩

theorem kind_of_line {l : BrisLine} (kinded : l.WellKinded) {parents : List (Fin f.mWireCount)}
    {t : GateType} {k : Nat} (inputs : parents.map Fin.val = l.inputs)
    (parsed : parseType l.gateType = .ok (t, k)) :
    (l.gateType = "INV" ∧ t = .na ∧ ∃ parent, parents = [parent]) ∨
      ∃ parent0 parent1, parents = [parent0, parent1] ∧
        (l.gateType = "XOR" ∧ t = .xor ∨ l.gateType = "AND" ∧ t = .and) := by
  have sized : parents.length = l.inputs.length := by rw [← inputs, List.length_map]
  rcases kinded.2 with ⟨isXor | isAnd, two⟩ | ⟨isInv, one⟩
  · rw [isXor] at parsed
    cases parsed
    obtain ⟨parent0, parent1, pair⟩ := List.length_eq_two.mp (sized.trans two)
    exact .inr ⟨parent0, parent1, pair, .inl ⟨isXor, rfl⟩⟩
  · rw [isAnd] at parsed
    cases parsed
    obtain ⟨parent0, parent1, pair⟩ := List.length_eq_two.mp (sized.trans two)
    exact .inr ⟨parent0, parent1, pair, .inr ⟨isAnd, rfl⟩⟩
  · rw [isInv] at parsed
    cases parsed
    exact .inl ⟨isInv, rfl, List.length_eq_one_iff.mp (sized.trans one)⟩

theorem ReadAs.shaped (wf : f.WellFormed) (read : ReadAs f f.lines.reverse d) : d.Shaped := by
  refine ⟨fun n => ?_, fun n input => (read.input wf input).1, fun n gate => ?_⟩
  · by_cases input : d.isInput n
    · exact (read.input wf input).2
    · obtain ⟨_, _, _, _, wire, _⟩ := read.line wf input
      exact wire
  · obtain ⟨l, listed, _, inputs, _, k, parsed⟩ := read.line wf gate
    rcases kind_of_line (wf.kinds l listed) inputs parsed with
      ⟨_, inverter, parent, one⟩ | ⟨parent0, parent1, two, ⟨_, type⟩ | ⟨_, type⟩⟩
    · exact .inl ⟨parent, one, .inl inverter⟩
    · exact .inr ⟨parent0, parent1, two, by rw [type]; trivial⟩
    · exact .inr ⟨parent0, parent1, two, by rw [type]; trivial⟩

theorem ReadAs.fresh (wf : f.WellFormed) (read : ReadAs f f.lines.reverse d) : d.Fresh := by
  intro n parent one
  have gate := (read.shaped wf).gate_of_parent (i := 0) (by rw [one]; rfl)
  obtain ⟨l, listed, _, inputs, _, k, parsed⟩ := read.line wf gate
  rcases kind_of_line (wf.kinds l listed) inputs parsed with
    ⟨_, inverter, _⟩ | ⟨parent0, parent1, two, _⟩
  · exact inverter
  · rw [one] at two
    cases two

theorem ReadAs.ranked (wf : f.WellFormed) (read : ReadAs f f.lines.reverse d) :
    ∃ rank, d.Ranked rank := by
  obtain ⟨rank, acyclic⟩ := wf.acyclic
  refine ⟨fun n => rank n.val, fun n parent reads => ?_⟩
  obtain ⟨i, here⟩ := List.mem_iff_getElem?.mp reads
  obtain ⟨l, listed, output, inputs, _⟩ :=
    read.line wf ((read.shaped wf).gate_of_parent here)
  change rank parent.val < rank n.val
  rw [← output]
  exact (acyclic l listed parent.val (inputs ▸ List.mem_map_of_mem reads)).2

theorem computes_iff {l : BrisLine} (kinded : l.WellKinded) {n : Fin f.mWireCount} {k : Nat}
    (inputs : (d.mParents n).map Fin.val = l.inputs)
    (parsed : parseType l.gateType = .ok (d.mType n, k)) (untold v : Nat → Bool) :
    (d.doubled fun n => untold n.val).Computes (fun n => v n.val) n ↔
      v n.val = l.value untold v := by
  rcases kind_of_line kinded inputs parsed with
    ⟨isInv, type, parent, one⟩ | ⟨parent0, parent1, two, ⟨isXor, type⟩ | ⟨isAnd, type⟩⟩
  · rw [one] at inputs
    simp only [Computes, doubled, one, type, BrisLine.value, isInv, ← inputs]
    have inverts : ∀ y other, GateType.na.apply y other = !y := by decide
    simp [inverts]
  · rw [two] at inputs
    simp only [Computes, doubled, two, type, BrisLine.value, isXor, ← inputs]
    have xors : ∀ y z, GateType.xor.apply y z = (y ^^ z) := by decide
    by_cases double : parent0 = parent1 ∧ untold parent0.val = true
    · rw [if_pos double, GateType.apply_flip, xors]
      simp
    · rw [if_neg double, xors]
      simp
  · rw [two] at inputs
    simp only [Computes, doubled, two, type, BrisLine.value, isAnd, ← inputs]
    have ands : ∀ y z, GateType.and.apply y z = (y && z) := by decide
    by_cases double : parent0 = parent1 ∧ untold parent0.val = true
    · rw [if_pos double, GateType.apply_flip, ands]
      simp [double.1, double.1 ▸ double.2]
    · rw [if_neg double, ands]
      have single : ¬ (parent0.val = parent1.val ∧ untold parent0.val = true) :=
        fun both => double ⟨Fin.ext both.1, both.2⟩
      simp [single]

theorem ReadAs.solves_iff (wf : f.WellFormed) (read : ReadAs f f.lines.reverse d)
    (untold : Nat → Bool) (x : List Bool) (v : Nat → Bool) :
    (d.doubled fun n => untold n.val).Solves x (fun n => v n.val) ↔ f.Solves untold x v := by
  constructor
  · intro solves
    refine ⟨fun i below => ?_, fun l listed => ?_⟩
    · have inside := lt_of_lt_of_le below wf.inputs
      exact solves.inputs ⟨i, inside⟩ ((read.isInput_iff ⟨i, inside⟩).mpr below)
    · obtain ⟨n, gate, at_n, inputs, k, parsed⟩ := read.gate wf listed
      rw [← at_n]
      exact (computes_iff (wf.kinds l listed) inputs parsed untold v).mp (solves.computes n gate)
  · intro solves
    refine ⟨fun n input => solves.inputs n.val ((read.isInput_iff n).mp input), fun n gate => ?_⟩
    obtain ⟨l, listed, output, inputs, _, k, parsed⟩ := read.line wf gate
    refine (computes_iff (wf.kinds l listed) inputs parsed untold v).mpr ?_
    rw [← output]
    exact solves.lines l listed

theorem doubled_none {W : Nat} (d : DagCircuit W) : d.doubled (fun _ => false) = d := by
  unfold doubled
  congr 1
  funext n
  split
  · exact if_neg fun both => Bool.noConfusion both.2
  · rfl

theorem Shaped.doubled {W : Nat} {d : DagCircuit W} (shaped : d.Shaped) (F : Fin W → Bool) :
    (d.doubled F).Shaped := by
  refine shaped.of_flips (fun n => ?_) d.mChildren
  split
  · split
    · exact ⟨_, _, _, rfl⟩
    · exact ⟨_, _, _, (GateType.flip_none _).symm⟩
  · exact ⟨_, _, _, (GateType.flip_none _).symm⟩

/-- Every input assignment has a valuation, also with the NAND gates. -/
theorem ReadAs.exists_solves (wf : f.WellFormed) (read : ReadAs f f.lines.reverse d)
    (untold : Nat → Bool) (x : List Bool) : ∃ v, f.Solves untold x v := by
  obtain ⟨rank, ranked⟩ := read.ranked wf
  obtain ⟨v, solves⟩ := DagCircuit.exists_solves ((read.shaped wf).doubled _) ranked x
  refine ⟨fun w => if inside : w < f.mWireCount then v ⟨w, inside⟩ else false, ?_⟩
  rw [← read.solves_iff wf]
  simpa using solves

theorem ReadAs.inverts (wf : f.WellFormed) (read : ReadAs f f.lines.reverse d)
    {untold : Nat → Bool} {x : List Bool} {v : Nat → Bool} (solves : f.Solves untold x v)
    {n q : Fin f.mWireCount} (one : d.mParents n = [q]) : v n.val = !v q.val := by
  have kept : (d.doubled fun n => untold n.val).isInvert n := by
    refine ⟨?_, by rw [DagCircuit.doubled, one]; rfl⟩
    rw [DagCircuit.doubled]
    simp only [one]
    exact read.fresh wf n q one
  exact ((read.solves_iff wf untold x v).mpr solves).inverter ((read.shaped wf).doubled _) one kept

theorem ReadAs.mem_outputs (wf : f.WellFormed) (read : ReadAs f f.lines.reverse d)
    {ns : List (Fin f.mWireCount)} (outputs : d.mOutputs = ns.map some) (n : Fin f.mWireCount) :
    n ∈ ns ↔ f.isOutput n.val := by
  have wide := wf.outputs
  obtain ⟨sized, slots⟩ := read.outputs
  rw [outputs, List.length_map] at sized
  rw [outputs] at slots
  simp only [List.getElem?_map] at slots
  constructor
  · intro listed
    obtain ⟨k, here⟩ := List.mem_iff_getElem?.mp listed
    have below := (List.getElem?_eq_some_iff.mp here).1
    have slot := slots k ⟨f.mWireCount - f.outputCount + k, by omega⟩ rfl (by omega)
    rw [here] at slot
    split at slot
    · cases slot
      exact ⟨Nat.le_add_right _ _, by simp only; omega⟩
    · cases slot
  · rintro ⟨above, below⟩
    have slot := slots (n.val - (f.mWireCount - f.outputCount)) n (by omega) (by omega)
    split at slot
    · obtain ⟨m, here, same⟩ := Option.map_eq_some_iff.mp slot
      cases same
      exact List.mem_iff_getElem?.mpr ⟨_, here⟩
    · obtain ⟨m, _, impossible⟩ := Option.map_eq_some_iff.mp slot
      cases impossible

theorem ReadAs.feeds_iff (wf : f.WellFormed) (read : ReadAs f f.lines.reverse d)
    {ns : List (Fin f.mWireCount)} (outputs : d.mOutputs = ns.map some) (q : Fin f.mWireCount) :
    f.FeedsOutputInvert q.val ↔ ∃ n ∈ ns, d.mParents n = [q] := by
  constructor
  · rintro ⟨l, listed, _, output, single⟩
    obtain ⟨n, _, at_n, inputs, _⟩ := read.gate wf listed
    refine ⟨n, (read.mem_outputs wf outputs n).mpr (at_n ▸ output), ?_⟩
    rw [single] at inputs
    obtain ⟨parent, one, same⟩ := List.map_eq_singleton_iff.mp inputs
    rw [one, Fin.ext same]
  · rintro ⟨n, listed, one⟩
    have gate := (read.shaped wf).gate_of_parent (i := 0) (by rw [one]; rfl)
    obtain ⟨l, inFile, output, inputs, _, k, parsed⟩ := read.line wf gate
    refine ⟨l, inFile, ?_, output ▸ (read.mem_outputs wf outputs n).mp listed, ?_⟩
    · rcases kind_of_line (wf.kinds l inFile) inputs parsed with
        ⟨isInv, _⟩ | ⟨parent0, parent1, two, _⟩
      · exact isInv
      · rw [one] at two
        cases two
    · rw [← inputs, one]
      rfl

end Facts

end DagCircuit

open DagCircuit

section Load

variable {f : BrisFile} {fuel : Nat} {c : Circuit}

def Circuit.outputBits (c : Circuit) (x : List Bool) : List Bool := c.translate (c.evaluate x)

theorem lines_length (wf : f.WellFormed) : f.inputWireCount + f.lines.length = f.mWireCount := by
  have sized := wf.driven.length_eq
  rw [List.length_map, List.length_range'] at sized
  have := wf.inputs
  omega

theorem DagCircuit.ReadAs.room (wf : f.WellFormed) {done : List BrisLine}
    {d : DagCircuit f.mWireCount}
    (read : ReadAs f done d) {gates : Nat} (few : gates ≤ f.lines.length) :
    d.inputWireCount + gates ≤ Circuit.noWire := by
  have inputs : d.inputWireCount = f.inputWireCount := by
    unfold inputWireCount BrisFile.inputWireCount
    rw [read.inputCounts]
  have := lines_length wf
  have := wf.u64
  omega

theorem toCircuit_outputs {W : Nat} {d : DagCircuit W} {kept : Fin W → Prop} (shaped : d.Shaped)
    (closed : d.Closed kept) (run : d.toCircuit fuel = .ok c)
    (room : d.inputWireCount + c.mGates.length ≤ Circuit.noWire) (solvable : ∃ x v, d.Solves x v) :
    ∃ ns : List (Fin W), d.mOutputs = ns.map some ∧ (∀ n ∈ ns, kept n) ∧
      ∀ x v, d.Solves x v → c.outputBits x = ns.map v := by
  obtain ⟨x₀, v₀, solves₀⟩ := solvable
  obtain ⟨ns, outputs, allKept, _⟩ := toCircuit_correct shaped solves₀ closed run room
  refine ⟨ns, outputs, allKept, fun x v solves => ?_⟩
  obtain ⟨ns', outputs', _, bits⟩ := toCircuit_correct shaped solves closed run room
  rw [outputs] at outputs'
  rw [List.map_injective_iff.mpr (Option.some_injective _) outputs']
  exact bits

/-- The circuit with the INV gates computes the outputs of the netlist. -/
theorem readBris_plain (wf : f.WellFormed) (run : Circuit.readBris f fuel false = .ok c) :
    ∃ (d : DagCircuit f.mWireCount) (ns : List (Fin f.mWireCount)),
      DagCircuit.readBris f = .ok d ∧ d.mOutputs = ns.map some ∧
        ∀ x v, f.Solves (fun _ => false) x v → c.outputBits x = ns.map fun n => v n.val := by
  obtain ⟨d, built, run⟩ := bind_ok run
  obtain ⟨c', translated, run⟩ := bind_ok run
  split at run
  case isFalse => cases run
  case isTrue all =>
    cases run
    have read := readBris_ok wf built
    have room := read.room wf (all.trans read.numGates).le
    have solves_iff := read.solves_iff wf fun _ => false
    rw [doubled_none] at solves_iff
    obtain ⟨v₀, solves₀⟩ := read.exists_solves wf (fun _ => false) []
    have closed : d.Closed fun _ => True :=
      ⟨fun _ _ => trivial, fun _ _ _ _ => trivial, fun _ _ _ _ => trivial⟩
    obtain ⟨ns, outputs, _, bits⟩ := toCircuit_outputs (read.shaped wf) closed translated room
      ⟨[], _, (solves_iff [] v₀).mpr solves₀⟩
    exact ⟨d, ns, built, outputs, fun x v solves => bits x _ ((solves_iff x v).mpr solves)⟩

/-- The other circuit computes, at the gates to which the first loop has moved the outputs, the
    valuations of the graph that this loop has left behind. -/
theorem readBris_reduced (wf : f.WellFormed) {d : DagCircuit f.mWireCount}
    (built : DagCircuit.readBris f = .ok d) (run : Circuit.readBris f fuel true = .ok c) :
    ∃ (d₁ : DagCircuit f.mWireCount) (ns' : List (Fin f.mWireCount)),
      removeOutputInverts d.mOutputs d = .ok (ns'.map some, d₁) ∧
      Dropped d.mOutputs (ns'.map some) d d₁ ∧ (∀ n ∈ ns', ¬ d₁.isInvert n) ∧
      (∀ x, ∃ v, d₁.Solves x v) ∧ ∀ x v, d₁.Solves x v → c.outputBits x = ns'.map v := by
  have read := readBris_ok wf built
  obtain ⟨rank, ranked⟩ := read.ranked wf
  obtain ⟨d', again, run⟩ := bind_ok run
  obtain rfl : d = d' := Except.ok.inj (built.symm.trans again)
  obtain ⟨d₂, removed, run⟩ := bind_ok run
  obtain ⟨⟨outputs', d₁⟩, dropping, removed⟩ := bind_ok removed
  obtain ⟨c', translated, run⟩ := bind_ok run
  split at run
  case isFalse => cases run
  case isTrue all =>
    cases run
    have dropped := removeOutputInverts_dropped (read.shaped wf) read.linked.once dropping
    have shaped : Shaped { d₁ with mOutputs := outputs' } :=
      ⟨dropped.shaped.wired, dropped.shaped.inputs, dropped.shaped.gates⟩
    obtain ⟨shaped₂, keeps, closed, types, parents, children, rfl⟩ :=
      reduceInverts_ok shaped (fun n q inverter here => dropped.listed read.linked inverter here)
        removed
    have ranked₁ : d₁.Ranked rank := fun n parent reads =>
      ranked n parent (by rw [← dropped.mParents_eq]; exact reads)
    have solves₂ : ∀ x v, d₁.Solves x v → Solves _ x v := fun x v solves =>
      keeps x v ⟨solves.inputs, solves.computes⟩
    have few : c.mGates.length ≤ f.lines.length := by
      have counted := read.counted
      rw [List.length_reverse] at counted
      refine le_trans (le_of_eq ?_) counted
      rw [all]
      obtain ⟨_, _, rfl⟩ := dropped.same
      rfl
    have room := read.room wf few
    have inputs : d₁.inputWireCount = d.inputWireCount := by
      obtain ⟨_, _, rfl⟩ := dropped.same
      rfl
    rw [← inputs] at room
    have solvable := exists_solves dropped.shaped ranked₁
    obtain ⟨v₀, solves₀⟩ := solvable []
    obtain ⟨ns', moved, noInverter, bits⟩ :=
      toCircuit_outputs shaped₂ closed translated room ⟨[], v₀, solves₂ [] v₀ solves₀⟩
    simp only at moved
    rw [moved] at dropping dropped
    exact ⟨d₁, ns', dropping, dropped, noInverter, solvable,
      fun x v solves => bits x v (solves₂ x v solves)⟩

theorem map_eq_of_forall₂ {α β γ : Type} {g : α → γ} {h : β → γ} {as : List α} {bs : List β}
    (agree : List.Forall₂ (fun a b => g a = h b) as bs) : as.map g = bs.map h := by
  rw [← List.forall₂_eq_eq_eq, List.forall₂_map_left_iff, List.forall₂_map_right_iff]
  exact agree

/-- When all outputs are right on one input, no output is read by an INV of an output: the two
    outputs have been moved to equal values. -/
theorem invertsApart_of_same (wf : f.WellFormed) {fuel₀ : Nat} {c₀ : Circuit} {x : List Bool}
    (plain : Circuit.readBris f fuel₀ false = .ok c₀)
    (reduced : Circuit.readBris f fuel true = .ok c)
    (same : c.outputBits x = c₀.outputBits x) : f.InvertsApart := by
  obtain ⟨d, ns, built, outputs, bits₀⟩ := readBris_plain wf plain
  have read := readBris_ok wf built
  obtain ⟨d₁, ns', _, dropped, noInverter, solvable, bits⟩ := readBris_reduced wf built reduced
  obtain ⟨v, solves⟩ := read.exists_solves wf (fun _ => false) x
  obtain ⟨v₁, solves₁⟩ := solvable x
  have values := dropped.values solves₁ fun n listed => by
    obtain ⟨m, inside, equal⟩ := List.mem_map.mp listed
    cases equal
    exact noInverter n inside
  rw [outputs, List.forall₂_map_left_iff, List.forall₂_map_right_iff] at values
  have moved : ns.map v₁ = ns'.map v₁ := by
    refine map_eq_of_forall₂ (values.imp ?_)
    rintro n m ⟨n', m', sameN, sameM, equal, _⟩
    cases sameN
    cases sameM
    exact equal.symm
  have copies : ∀ n ∈ ns, ∀ parent, d.mParents n = [parent] → v₁ n = v₁ parent := by
    have all : (∀ n ∈ ns, ∀ parent, d.mParents n = [parent] → v₁ n = v₁ parent) ∧
        List.Forall₂ (fun _ _ => True) ns ns' := by
      rw [← List.forall₂_and_left]
      refine values.imp ?_
      rintro n m ⟨n', m', sameN, _, _, copied⟩
      cases sameN
      exact ⟨copied, trivial⟩
    exact all.1
  have right : ∀ n ∈ ns, v₁ n = v n.val := by
    have equal : ns.map v₁ = ns.map fun n => v n.val := by
      rw [moved, ← bits x v₁ solves₁, same, bits₀ x v solves]
    exact List.map_inj_left.mp equal
  intro w output feeds
  obtain ⟨n, listed, one⟩ := (read.feeds_iff wf outputs ⟨w, output.2⟩).mp feeds
  have parentListed := (read.mem_outputs wf outputs ⟨w, output.2⟩).mpr output
  have inverted := read.inverts wf solves one
  rw [← right n listed, copies n listed _ one, right _ parentListed] at inverted
  simp at inverted

theorem marked_none {W : Nat} (d : DagCircuit W) : Marked d d fun _ => false := by
  have unchanged : d.markedType (fun _ => false) = d.mType := by
    funext n
    unfold markedType flips
    split
    · exact GateType.flip_none _
    · rw [ite_self]
      exact GateType.flip_none _
    · exact GateType.flip_none _
  refine ⟨⟨d.mChildren, ?_, fun _ _ => rfl⟩, fun _ none => Bool.noConfusion none⟩
  rw [unchanged]

/-- When no output is read by an INV of an output, the circuit computes the netlist in which
    the AND gates that are not told about a complement are NAND gates. -/
theorem readBris_reduced_bits (wf : f.WellFormed) {d : DagCircuit f.mWireCount}
    {ns : List (Fin f.mWireCount)} (built : DagCircuit.readBris f = .ok d)
    (outputs : d.mOutputs = ns.map some) (reduced : Circuit.readBris f fuel true = .ok c)
    (apart : f.InvertsApart) {x : List Bool} {v : Nat → Bool}
    (solves : f.Solves (fun w => decide (f.FeedsOutputInvert w)) x v) :
    c.outputBits x = ns.map fun n => v n.val := by
  have read := readBris_ok wf built
  have shaped := read.shaped wf
  obtain ⟨d₁, ns', dropping, _, _, _, bits⟩ := readBris_reduced wf built reduced
  rw [outputs] at dropping
  have listed : ∀ n, some n ∈ ns.map some ↔ n ∈ ns := fun n =>
    List.mem_map_of_injective (Option.some_injective _)
  obtain ⟨S, marked, _, within, covers, moved⟩ := removeOutputInverts_marked
    (F := fun q => decide (f.FeedsOutputInvert q.val)) shaped read.linked (read.fresh wf)
    (marked_none d) (fun _ none => Bool.noConfusion none)
    (fun n q output one =>
      decide_eq_true ((read.feeds_iff wf outputs q).mpr ⟨n, (listed n).mp output, one⟩))
    (fun n output =>
      decide_eq_false (apart n.val ((read.mem_outputs wf outputs n).mp ((listed n).mp output))))
    dropping
  -- the complemented gates are exactly those before an INV of an output
  obtain rfl : S = fun q : Fin f.mWireCount => decide (f.FeedsOutputInvert q.val) := by
    funext q
    refine Bool.eq_iff_iff.mpr ⟨within q, fun feeds => ?_⟩
    obtain ⟨n, output, one⟩ := (read.feeds_iff wf outputs q).mp (of_decide_eq_true feeds)
    exact covers n q ((listed n).mpr output) one
  have values := bits x _ (marked.solves shaped ((read.solves_iff wf _ x v).mpr solves))
  rw [List.forall₂_map_left_iff, List.forall₂_map_right_iff] at moved
  rw [values]
  have agree : List.Forall₂ (fun n m => n ∈ ns ∧ ∃ k, some n = some k ∧
      (some m = some k ∨ ∃ q, d.mParents k = [q] ∧ some m = some q)) ns ns' :=
    (List.forall₂_and_left _ _).mpr ⟨fun _ => id, moved⟩
  refine (map_eq_of_forall₂ (agree.imp ?_)).symm
  rintro n m ⟨output, k, same, own | ⟨q, one, moved⟩⟩
  · cases same
    cases own
    have unfed := apart n.val ((read.mem_outputs wf outputs n).mp output)
    simp only [unfed, decide_false, Bool.xor_false]
  · cases same
    cases moved
    have feeds := (read.feeds_iff wf outputs m).mpr ⟨n, output, one⟩
    simp only [feeds, decide_true, Bool.xor_true]
    exact read.inverts wf solves one

/-- The circuit without INV gates has the outputs of the circuit with them exactly when no
    output is read by an INV of an output, and no output depends on an AND gate that reads a
    complemented wire twice. -/
theorem readBris_reduce_iff (wf : f.WellFormed) {fuel₀ fuel₁ : Nat} {c₀ c₁ : Circuit}
    (plain : Circuit.readBris f fuel₀ false = .ok c₀)
    (reduced : Circuit.readBris f fuel₁ true = .ok c₁) :
    (∀ x, x.length = f.inputWireCount → c₁.outputBits x = c₀.outputBits x) ↔
      f.InvertsApart ∧ f.DoublesUnseen := by
  obtain ⟨d, ns, built, outputs, bits₀⟩ := readBris_plain wf plain
  have read := readBris_ok wf built
  have mem_outputs := read.mem_outputs wf outputs
  constructor
  · intro same
    have apart := invertsApart_of_same wf plain reduced
      (same (List.replicate f.inputWireCount false) List.length_replicate)
    refine ⟨apart, fun x v v' sized solves solves' w output => ?_⟩
    have bits₁ := readBris_reduced_bits wf built outputs reduced apart solves'
    rw [same x sized, bits₀ x v solves] at bits₁
    exact List.map_inj_left.mp bits₁ ⟨w, output.2⟩ ((mem_outputs _).mpr output)
  · rintro ⟨apart, unseen⟩ x sized
    obtain ⟨v, solves⟩ := read.exists_solves wf (fun _ => false) x
    obtain ⟨v', solves'⟩ :=
      read.exists_solves wf (fun w => decide (f.FeedsOutputInvert w)) x
    rw [bits₀ x v solves, readBris_reduced_bits wf built outputs reduced apart solves']
    exact List.map_inj_left.mpr fun n listed =>
      (unseen x v v' sized solves solves' n.val ((mem_outputs n).mp listed)).symm

end Load

section Nand

/-- `AND` and `INV` behind each other, with the last `outputCount` wires as outputs. -/
def nandFile (outputCount : Nat) : BrisFile :=
  ⟨4, (1, 1), outputCount, [⟨[0, 1], 1, 2, "AND"⟩, ⟨[2], 1, 3, "INV"⟩]⟩

def nandPlain (outputs : List Nat) : Circuit :=
  ⟨4, 2, outputs.length, (1, 1), [⟨0, 1, 2, .and⟩, ⟨2, 0, 3, .na⟩], outputs⟩

def nandReduced (outputs : List Nat) : Circuit :=
  ⟨3, 1, outputs.length, (1, 1), [⟨0, 1, 2, .nand⟩], outputs⟩

theorem nandFile_wellFormed {outputCount : Nat} (few : outputCount ≤ 4) :
    (nandFile outputCount).WellFormed where
  inputs := show 2 ≤ 4 by decide
  driven := List.Perm.refl [2, 3]
  kinds := show ∀ l ∈ (nandFile 0).lines, _ by unfold BrisLine.WellKinded; decide
  acyclic := ⟨id, show ∀ l ∈ (nandFile 0).lines, ∀ i ∈ l.inputs, i < 4 ∧ i < l.output by decide⟩
  outputs := few
  u64 := show 4 ≤ Circuit.noWire by decide

theorem nandFile_apart : (nandFile 1).InvertsApart := by
  intro w output
  obtain rfl : w = 3 := by
    have := output.1
    have := output.2
    simp only [nandFile] at *
    omega
  decide

theorem nandFile_unseen : (nandFile 1).DoublesUnseen := by
  intro x v v' _ solves solves' w output
  obtain rfl : w = 3 := by
    have := output.1
    have := output.2
    simp only [nandFile] at *
    omega
  have value : ∀ {untold : Nat → Bool} {u : Nat → Bool}, (nandFile 1).Solves untold x u →
      u 3 = !(x.getD 0 false && x.getD 1 false) := by
    intro untold u solvesU
    have gate : u 2 = (u 0 && u 1) := by
      simpa [BrisLine.value] using solvesU.lines ⟨[0, 1], 1, 2, "AND"⟩ (by simp [nandFile])
    have inverter : u 3 = !u 2 := by
      simpa [BrisLine.value] using solvesU.lines ⟨[2], 1, 3, "INV"⟩ (by simp [nandFile])
    rw [inverter, gate, solvesU.inputs 0 (by decide), solvesU.inputs 1 (by decide)]
  rw [value solves, value solves']

theorem readBris_reduce_iff_nand :
    Circuit.readBris (nandFile 1) 3 false = .ok (nandPlain [3]) ∧
    Circuit.readBris (nandFile 1) 3 true = .ok (nandReduced [2]) ∧
    ∀ x : List Bool, x.length = 2 →
      (nandReduced [2]).outputBits x = (nandPlain [3]).outputBits x := by
  have plain : Circuit.readBris (nandFile 1) 3 false = .ok (nandPlain [3]) := rfl
  have reduced : Circuit.readBris (nandFile 1) 3 true = .ok (nandReduced [2]) := rfl
  refine ⟨plain, reduced, ?_⟩
  exact (readBris_reduce_iff (nandFile_wellFormed (by decide)) plain reduced).mpr
    ⟨nandFile_apart, nandFile_unseen⟩

/-- With both wires as outputs the gate is complemented for the second one, and the first one
    is the complement of what it was. -/
theorem readBris_reduce_and_nand : (nandFile 2).WellFormed ∧
    Circuit.readBris (nandFile 2) 3 false = .ok (nandPlain [2, 3]) ∧
    Circuit.readBris (nandFile 2) 3 true = .ok (nandReduced [2, 2]) ∧
    (nandPlain [2, 3]).outputBits [true, true] = [true, false] ∧
    (nandReduced [2, 2]).outputBits [true, true] = [false, false] :=
  ⟨nandFile_wellFormed (by decide), rfl, rfl, rfl, rfl⟩

end Nand

end BatchDualEx
