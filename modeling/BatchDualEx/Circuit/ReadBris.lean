import BatchDualEx.Circuit.BrisNetlist
import BatchDualEx.Circuit.DagOrder

/- `Circuit::readBris` of a well-formed netlist, with its INV gates: it returns, the gates are
   the lines of the file in an order of their dependencies, and the outputs are the last wires. -/
namespace BatchDualEx

open Function Result DagCircuit

namespace BrisFile

variable (f : BrisFile)

def newWire (order : List BrisLine) (w : Nat) : Nat :=
  if w < f.inputWireCount then w else f.inputWireCount + (order.map (·.output)).idxOf w

/-- The gate of a line; the second input of an INV is not used. -/
def gateOf (order : List BrisLine) (l : BrisLine) : Gate where
  mInput0 := f.newWire order (l.inputs.getD 0 0)
  mInput1 := if l.gateType = "INV" then 0 else f.newWire order (l.inputs.getD 1 0)
  mOutput := f.newWire order l.output
  mType := if l.gateType = "XOR" then .xor else if l.gateType = "AND" then .and else .na

def outputWires : List Nat := List.range' (f.mWireCount - f.outputCount) f.outputCount

end BrisFile

theorem BrisLine.WellKinded.readable {l : BrisLine} (kinded : l.WellKinded) : l.Readable := by
  obtain ⟨fanOut, ⟨isXor | isAnd, two⟩ | ⟨isInv, one⟩⟩ := kinded
  · exact ⟨two.le, fanOut, .inl isXor⟩
  · exact ⟨two.le, fanOut, .inr (.inl isAnd)⟩
  · exact ⟨by omega, fanOut, .inr (.inr isInv)⟩

theorem BrisFile.WellFormed.inRange {f : BrisFile} (wf : f.WellFormed) : f.InRange where
  gates := lines_length wf
  outputs := fun _ listed => output_range wf listed
  inputs := by
    obtain ⟨rank, acyclic⟩ := wf.acyclic
    exact fun l listed i reads => (acyclic l listed i reads).1
  u64 := wf.u64

namespace DagCircuit

variable {f : BrisFile} {d : DagCircuit f.mWireCount}

theorem ReadAs.outputs_driven (wf : f.WellFormed) (read : ReadAs f f.lines.reverse d)
    (driven : f.inputWireCount + f.outputCount ≤ f.mWireCount) :
    ∃ ns : List (Fin f.mWireCount), d.mOutputs = ns.map some ∧ ns.map Fin.val = f.outputWires := by
  refine exists_outputs wf.outputs read.outputs fun k below => ?_
  have listed : f.mWireCount - f.outputCount + k ∈ f.lines.map (·.output) :=
    wf.driven.symm.subset (List.mem_range'_1.mpr (by omega))
  obtain ⟨l, inFile, here⟩ := List.mem_map.mp listed
  exact ⟨l, List.mem_reverse.mpr inFile, here⟩

theorem idxOf_map_val {W : Nat} (order : List (Fin W)) (n : Fin W) :
    (order.map Fin.val).idxOf n.val = order.idxOf n := by
  induction order with
  | nil => rfl
  | cons m order ih =>
    have same : (m.val == n.val) = (m == n) := Bool.eq_iff_iff.mpr (by simp [Fin.ext_iff])
    rw [List.map_cons, List.idxOf_cons, List.idxOf_cons, ih, same]

theorem gateOf_line {nodes : List (Fin f.mWireCount)} {order : List BrisLine} {l : BrisLine}
    (kinded : l.WellKinded) {n : Fin f.mWireCount} (output : l.output = n.val)
    (inputs : (d.mParents n).map Fin.val = l.inputs) {k : Nat}
    (parsed : parseType l.gateType = .ok (d.mType n, k))
    (places : ∀ m, d.place nodes m = f.newWire order m.val) :
    d.gateOf nodes n = f.gateOf order l := by
  unfold gateOf BrisFile.gateOf
  rcases kind_of_line kinded inputs parsed with
    ⟨isInv, type, parent, one⟩ | ⟨parent0, parent1, two, kind⟩
  · rw [one] at inputs
    simp only [one, places, type, isInv, output, ← inputs]
    rfl
  · rw [two] at inputs
    rcases kind with ⟨isXor, type⟩ | ⟨isAnd, type⟩
    · simp only [two, places, type, isXor, output, ← inputs]
      rfl
    · simp only [two, places, type, isAnd, output, ← inputs]
      rfl

/-- The nodes in the order in which they are added, as the lines that drive them. -/
theorem ReadAs.lines_of_order (wf : f.WellFormed) (read : ReadAs f f.lines.reverse d)
    {nodes : List (Fin f.mWireCount)} (ordered : d.Ordered nodes)
    (all : ∀ n, n ∈ nodes ↔ ¬ d.isInput n) :
    ∃ order : List BrisLine, order.Perm f.lines ∧
      (∀ n, d.place nodes n = f.newWire order n.val) ∧
      nodes.map (d.gateOf nodes) = order.map (f.gateOf order) := by
  have : Inhabited BrisLine := ⟨⟨[], 0, 0, ""⟩⟩
  choose! line listed output inputs _ counted parsed using
    fun n (gate : ¬ d.isInput n) => read.line wf gate
  have distinct : (f.lines.map (·.output)).Nodup := wf.driven.nodup_iff.mpr List.nodup_range'
  have outputs : (nodes.map line).map (·.output) = nodes.map Fin.val := by
    rw [List.map_map]
    exact List.map_congr_left fun n added => output n ((all n).mp added)
  have apart : ((nodes.map line).map (·.output)).Nodup :=
    outputs ▸ ordered.nodup.map Fin.val_injective
  have inFile (l : BrisLine) (added : l ∈ nodes.map line) : l ∈ f.lines := by
    obtain ⟨n, here, rfl⟩ := List.mem_map.mp added
    exact listed n ((all n).mp here)
  have perm : (nodes.map line).Perm f.lines := by
    refine (List.perm_ext_iff_of_nodup (.of_map _ apart) (.of_map _ distinct)).mpr fun l =>
      ⟨inFile l, fun here => ?_⟩
    obtain ⟨n, gate, at_n, _⟩ := read.gate wf here
    have same : line n = l := List.inj_on_of_nodup_map distinct (listed n gate) here
      ((output n gate).trans at_n)
    exact same ▸ List.mem_map_of_mem ((all n).mpr gate)
  have places (n : Fin f.mWireCount) : d.place nodes n = f.newWire (nodes.map line) n.val := by
    have count : d.inputWireCount = f.inputWireCount := by
      unfold inputWireCount BrisFile.inputWireCount
      rw [read.inputCounts]
    unfold place BrisFile.newWire
    rw [outputs, idxOf_map_val, count]
    by_cases input : d.isInput n
    · rw [if_pos input, if_pos ((read.isInput_iff n).mp input)]
    · rw [if_neg input, if_neg fun below => input ((read.isInput_iff n).mpr below)]
  refine ⟨nodes.map line, perm, places, ?_⟩
  rw [List.map_map]
  refine List.map_congr_left fun n added => ?_
  have gate := (all n).mp added
  exact gateOf_line (wf.kinds _ (listed n gate)) (output n gate) (inputs n gate) (parsed n gate)
    places

end DagCircuit

section Plain

variable {f : BrisFile} {fuel : Nat}

/-- The circuit that is read from a netlist computes its last wires, and its gates are the lines
    of the file, each once and after the lines of its inputs. -/
theorem readBris_computes (wf : f.WellFormed)
    (driven : f.inputWireCount + f.outputCount ≤ f.mWireCount) (enough : 2 * f.mWireCount < fuel) :
    ∃ (c : Circuit) (order : List BrisLine), Circuit.readBris f fuel false = .ok c ∧
      order.Perm f.lines ∧ c.mGates = order.map (f.gateOf order) ∧
      (∀ l ∈ order, ∀ i ∈ l.inputs, f.newWire order i < f.newWire order l.output) ∧
      ∀ x, (∃ v, f.Solves (fun _ => false) x v) ∧ ∀ v, f.Solves (fun _ => false) x v →
        c.translate (c.evaluate x) = f.outputWires.map v := by
  obtain ⟨d, built⟩ := readBris_total wf.inRange fun l listed => (wf.kinds l listed).readable
  have read := readBris_ok wf built
  have shaped := read.shaped wf
  obtain ⟨rank, ranked⟩ := read.ranked wf
  obtain ⟨ns, outputs, wires⟩ := read.outputs_driven wf driven
  obtain ⟨nodes, ordered, all, translated⟩ :=
    toCircuit_total shaped read.linked (read.fresh wf) ranked outputs enough
  obtain ⟨order, perm, places, gates⟩ := read.lines_of_order wf ordered all
  have count : (nodes.map (d.gateOf nodes)).length = d.numGates := by
    rw [gates, List.length_map, perm.length_eq, read.numGates]
  have run : Circuit.readBris f fuel false = .ok { d.circuitOf nodes with
      mOutputs := ns.map (d.place nodes)
      mOutputCount := ns.length } := by
    unfold Circuit.readBris
    rw [built]
    simp only [Bool.false_eq_true, if_false, bind, Except.bind, translated]
    exact if_pos count
  refine ⟨_, order, run, perm, gates, fun l listed i reads => ?_, fun x => ?_⟩
  · obtain ⟨n, gate, at_n, inputs, _⟩ := read.gate wf (perm.subset listed)
    rw [← inputs] at reads
    obtain ⟨parent, listed, rfl⟩ := List.mem_map.mp reads
    rw [← at_n, ← places, ← places]
    exact ordered.place_parent_lt n ((all n).mpr gate) parent listed
  · refine ⟨read.exists_solves wf _ x, fun v solves => ?_⟩
    obtain ⟨d', ns', built', outputs', bits⟩ := readBris_plain wf run
    obtain rfl : d = d' := Except.ok.inj (built.symm.trans built')
    rw [outputs] at outputs'
    obtain rfl := List.map_injective_iff.mpr (Option.some_injective _) outputs'
    refine (bits x v solves).trans ?_
    rw [← wires, List.map_map]
    rfl

theorem readBris_computes_nand : (nandFile 1).WellFormed ∧ ∃ (c : Circuit) (order : List BrisLine),
    Circuit.readBris (nandFile 1) 9 false = .ok c ∧ order.Perm (nandFile 1).lines ∧
    c.mGates = order.map ((nandFile 1).gateOf order) ∧
    (∀ l ∈ order, ∀ i ∈ l.inputs,
      (nandFile 1).newWire order i < (nandFile 1).newWire order l.output) ∧
    ∀ x, (∃ v, (nandFile 1).Solves (fun _ => false) x v) ∧
      ∀ v, (nandFile 1).Solves (fun _ => false) x v →
        c.translate (c.evaluate x) = [3].map v :=
  ⟨nandFile_wellFormed (by decide),
    readBris_computes (nandFile_wellFormed (by decide)) (by decide) (by decide)⟩

end Plain

end BatchDualEx
