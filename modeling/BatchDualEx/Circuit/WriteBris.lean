import BatchDualEx.Circuit.BrisNetlist
import BatchDualEx.Lib.Text

/- `DagCircuit::writeBris`, and the numbers and words that `readBris` takes from a text. What is
   written is read as the same graph. -/
namespace BatchDualEx

open Result Text

namespace BrisFile

def readU64 : Reader Nat := readUnsigned 64

def readLine : Reader BrisLine := fun s => do
  let (fanIn, s) ← readU64 s
  let (fanOut, s) ← readU64 s
  let (inputs, s) ← many readU64 fanIn s
  let (output, s) ← readU64 s
  let (gateType, s) ← readWord s
  return (⟨inputs, fanOut, output, String.ofList gateType⟩, s)

def read (s : List Char) : Option BrisFile := do
  let (numGates, s) ← readU64 s
  let (mWireCount, s) ← readU64 s
  let (inputs0, s) ← readU64 s
  let (inputs1, s) ← readU64 s
  let (outputCount, s) ← readU64 s
  let (lines, _) ← many readLine numGates s
  return ⟨mWireCount, (inputs0, inputs1), outputCount, lines⟩

/-- The lines drive every wire that is no input exactly once, also around a cycle. -/
structure DrivenOnce (f : BrisFile) : Prop where
  inputs : f.inputWireCount ≤ f.mWireCount
  driven : (f.lines.map (·.output)).Perm
    (List.range' f.inputWireCount (f.mWireCount - f.inputWireCount))
  kinds : ∀ l ∈ f.lines, l.WellKinded
  outputs : f.outputCount ≤ f.mWireCount
  u64 : f.mWireCount ≤ Circuit.noWire

end BrisFile

def BrisLine.print (l : BrisLine) : List Char :=
  decimal l.inputs.length ++ ' ' :: decimal l.fanOut ++ ' ' ::
    (l.inputs.flatMap fun input => decimal input ++ [' ']) ++ decimal l.output ++
    ' ' :: l.gateType.toList

namespace BrisFile

section Reads

variable {s s₁ s₂ s₃ s₄ s₅ : List Char}

theorem readLine_of {fanIn fanOut output : Nat} {inputs : List Nat} {gateType : List Char}
    (first : readU64 s = some (fanIn, s₁)) (second : readU64 s₁ = some (fanOut, s₂))
    (third : many readU64 fanIn s₂ = some (inputs, s₃)) (fourth : readU64 s₃ = some (output, s₄))
    (fifth : readWord s₄ = some (gateType, s₅)) :
    readLine s = some (⟨inputs, fanOut, output, String.ofList gateType⟩, s₅) := by
  simp [readLine, first, second, third, fourth, fifth]

theorem read_of {numGates mWireCount inputs0 inputs1 outputCount : Nat} {lines : List BrisLine}
    (first : readU64 s = some (numGates, s₁)) (second : readU64 s₁ = some (mWireCount, s₂))
    (third : readU64 s₂ = some (inputs0, s₃)) (fourth : readU64 s₃ = some (inputs1, s₄))
    (fifth : readU64 s₄ = some (outputCount, s₅))
    (last : (many readLine numGates s₅).map Prod.fst = some lines) :
    read s = some ⟨mWireCount, (inputs0, inputs1), outputCount, lines⟩ := by
  obtain ⟨⟨lines, rest⟩, all, rfl⟩ := Option.map_eq_some_iff.mp last
  simp [read, first, second, third, fourth, fifth, all]

theorem readLine_cons {c : Char} (blank : isSpace c) (s : List Char) :
    readLine (c :: s) = readLine s := by
  unfold readLine readU64
  rw [readUnsigned_cons blank]

structure Printable (l : BrisLine) : Prop where
  fanIn : l.inputs.length < 2 ^ 64
  fanOut : l.fanOut < 2 ^ 64
  inputs : ∀ i ∈ l.inputs, i < 2 ^ 64
  output : l.output < 2 ^ 64
  gateType : l.gateType.toList ≠ [] ∧ ∀ c ∈ l.gateType.toList, isSpace c = false

theorem reads_print {l : BrisLine} (printable : Printable l) :
    Reads readLine ('\n' :: l.print) l := by
  intro c rest blank
  have gap : isSpace ' ' = true := by decide
  have line : isSpace '\n' = true := by decide
  obtain ⟨inputs, isInputs⟩ : ∃ inputs, inputs =
    (l.inputs.map decimal).flatMap fun text => ' ' :: text := ⟨_, rfl⟩
  have text : '\n' :: l.print ++ c :: rest = '\n' :: decimal l.inputs.length ++
      ' ' :: (decimal l.fanOut ++ (inputs ++ ' ' :: (decimal l.output ++
        ' ' :: (l.gateType.toList ++ c :: rest)))) := by
    have rotated := blank_after ' ' (l.inputs.map decimal)
      (decimal l.output ++ ' ' :: (l.gateType.toList ++ c :: rest))
    rw [List.flatMap_map, ← isInputs] at rotated
    unfold BrisLine.print
    simp only [List.append_assoc, List.cons_append]
    rw [rotated]
  obtain ⟨d, more, follows, blank'⟩ := starts_blank gap (l.inputs.map decimal) gap
    (decimal l.output ++ ' ' :: (l.gateType.toList ++ c :: rest))
  have read := readLine_of
    (reads_unsigned line printable.fanIn ' ' _ gap)
    (follows ▸ reads_unsigned gap printable.fanOut d more blank')
    (reads_many gap (fun i listed => reads_unsigned gap (printable.inputs i listed)) ' ' _ gap)
    (reads_unsigned gap printable.output ' ' _ gap)
    (reads_word gap printable.gateType.1 printable.gateType.2 c rest blank)
  rw [text]
  simpa [isInputs] using read

def print (f : BrisFile) : List Char :=
  decimal f.lines.length ++ ' ' :: decimal f.mWireCount ++ '\n' :: decimal f.mInputCounts.1 ++
    ' ' :: decimal f.mInputCounts.2 ++ ' ' :: decimal f.outputCount ++ '\n' :: '\n' ::
    f.lines.flatMap fun l => l.print ++ ['\n']

theorem read_print {f : BrisFile} (lines : f.lines.length < 2 ^ 64) (wires : f.mWireCount < 2 ^ 64)
    (inputs0 : f.mInputCounts.1 < 2 ^ 64) (inputs1 : f.mInputCounts.2 < 2 ^ 64)
    (outputs : f.outputCount < 2 ^ 64) (printable : ∀ l ∈ f.lines, Printable l) :
    read f.print = some f := by
  have gap : isSpace ' ' = true := by decide
  have line : isSpace '\n' = true := by decide
  have body : '\n' :: (f.lines.flatMap fun l => l.print ++ ['\n']) =
      ((f.lines.map BrisLine.print).flatMap fun text => '\n' :: text) ++ ['\n'] := by
    have rotated := blank_after '\n' (f.lines.map BrisLine.print) []
    rwa [List.flatMap_map, List.append_nil] at rotated
  have all := reads_many line (fun l listed => reads_print (printable l listed)) '\n' [] line
  have last := many_skip (readLine_cons line) f.lines.length
    ('\n' :: f.lines.flatMap fun l => l.print ++ ['\n'])
  rw [body, all, Option.map_some] at last
  have first := reads_decimal lines ' ' (decimal f.mWireCount ++ '\n' ::
    (decimal f.mInputCounts.1 ++ ' ' :: (decimal f.mInputCounts.2 ++ ' ' ::
      (decimal f.outputCount ++ '\n' :: ((f.lines.map BrisLine.print).flatMap
        (fun text => '\n' :: text) ++ ['\n']))))) gap
  have parsed := read_of first (reads_unsigned gap wires '\n' _ line)
    (reads_unsigned line inputs0 ' ' _ gap) (reads_unsigned gap inputs1 ' ' _ gap)
    (reads_unsigned gap outputs '\n' _ line) last
  unfold print
  simp only [List.append_assoc, List.cons_append]
  rw [body]
  exact parsed

end Reads

end BrisFile

namespace DagCircuit

variable {W : Nat} (d : DagCircuit W)

def typeName (n : Fin W) : Except Fault String :=
  if d.mType n = .xor then .ok "XOR"
  else if d.mType n = .and then .ok "AND"
  else if d.isInvert n then .ok "INV"
  else .error (.thrown "")

def writeGate (n : Fin W) : Except Fault (List Char) := do
  let name ← d.typeName n
  return decimal (d.mParents n).length ++ ' ' :: decimal 1 ++ ' ' ::
    ((d.mParents n).flatMap fun parent => decimal (d.mWireIdx parent) ++ [' ']) ++
    decimal (d.mWireIdx n) ++ ' ' :: name.toList ++ ['\n']

/-- A gate of `mGates` that is no node has no type. -/
def writeBris : Except Fault (List Char) := do
  let lines ← d.gates.mapM d.writeGate
  if d.gates.length < d.numGates then throw (.thrown "")
  return decimal d.numGates ++ ' ' :: decimal W ++ '\n' :: decimal d.mInputCounts.1 ++
    ' ' :: decimal d.mInputCounts.2 ++ ' ' :: decimal d.mOutputs.length ++ '\n' :: '\n' ::
    lines.flatten

def gateLine (n : Fin W) : BrisLine :=
  ⟨(d.mParents n).map d.mWireIdx, 1, d.mWireIdx n, (d.typeName n).toOption.getD ""⟩

/-- The same graph, except for the order of the children and for the types of input nodes, which
have none. -/
structure Alike (d d' : DagCircuit W) : Prop where
  inputCounts : d'.mInputCounts = d.mInputCounts
  numGates : d'.numGates = d.numGates
  counted : d'.mNonInvertGateCount = d.mNonInvertGateCount
  wireIdx : d'.mWireIdx = d.mWireIdx
  parents : d'.mParents = d.mParents
  types : ∀ n, ¬ d.isInput n → d'.mType n = d.mType n
  children : ∀ n, (d'.mChildren n).Perm (d.mChildren n)
  outputs : d'.mOutputs = d.mOutputs

theorem Alike.solves {d d' : DagCircuit W} (alike : Alike d d') (x : List Bool) (v : Fin W → Bool) :
    d'.Solves x v ↔ d.Solves x v := by
  have inputs : ∀ n, d'.isInput n ↔ d.isInput n := fun n => by
    unfold isInput inputWireCount
    rw [alike.inputCounts]
  have gates : ∀ n, ¬ d.isInput n → (d'.Computes v n ↔ d.Computes v n) := fun n gate => by
    unfold Computes
    rw [alike.parents, alike.types n gate]
  constructor
  · intro solves
    exact ⟨fun n input => solves.inputs n ((inputs n).mpr input), fun n gate =>
      (gates n gate).mp (solves.computes n fun input => gate ((inputs n).mp input))⟩
  · intro solves
    exact ⟨fun n input => solves.inputs n ((inputs n).mp input), fun n gate =>
      have gate' := fun input => gate ((inputs n).mpr input)
      (gates n gate').mpr (solves.computes n gate')⟩

section Written

variable {f : BrisFile} {d : DagCircuit f.mWireCount}

theorem Loaded.isInput_iff {done : List BrisLine} (loaded : Loaded f done d)
    (n : Fin f.mWireCount) : d.isInput n ↔ n.val < f.inputWireCount := by
  unfold isInput DagCircuit.inputWireCount BrisFile.inputWireCount
  rw [loaded.inputCounts]

theorem Loaded.line (once : f.DrivenOnce) (loaded : Loaded f f.lines.reverse d)
    {n : Fin f.mWireCount} (gate : ¬ d.isInput n) :
    ∃ l ∈ f.lines, l.output = n.val ∧ d.mWireIdx n = n.val ∧
      (d.mParents n).map Fin.val = l.inputs ∧ ∃ k, parseType l.gateType = .ok (d.mType n, k) := by
  rw [loaded.isInput_iff] at gate
  have driven : n.val ∈ f.lines.map (·.output) := by
    refine once.driven.symm.subset (List.mem_range'_1.mpr ?_)
    have := n.isLt
    omega
  obtain ⟨l, listed, here⟩ := List.mem_map.mp driven
  obtain ⟨l', listed', rest⟩ := loaded.driven n ⟨l, List.mem_reverse.mpr listed, here⟩
  exact ⟨l', List.mem_reverse.mp listed', rest⟩

theorem Loaded.input (once : f.DrivenOnce) (loaded : Loaded f f.lines.reverse d)
    {n : Fin f.mWireCount} (input : d.isInput n) : d.mParents n = [] ∧ d.mWireIdx n = n.val := by
  rw [loaded.isInput_iff] at input
  obtain ⟨none, wire⟩ := loaded.undriven n fun l listed here => by
    have driven := once.driven.subset (List.mem_map_of_mem (f := (·.output))
      (List.mem_reverse.mp listed))
    rw [List.mem_range'_1] at driven
    omega
  rw [if_pos input] at wire
  exact ⟨none, wire⟩

theorem Loaded.wireIdx (once : f.DrivenOnce) (loaded : Loaded f f.lines.reverse d)
    (n : Fin f.mWireCount) : d.mWireIdx n = n.val := by
  by_cases input : d.isInput n
  · exact (loaded.input once input).2
  · obtain ⟨l, -, -, wire, -⟩ := loaded.line once input
    exact wire

theorem typeName_line {l : BrisLine} (kinded : l.WellKinded) {n : Fin f.mWireCount} {k : Nat}
    (inputs : (d.mParents n).map Fin.val = l.inputs)
    (parsed : parseType l.gateType = .ok (d.mType n, k)) : d.typeName n = .ok l.gateType := by
  unfold typeName
  rcases kind_of_line kinded inputs parsed with
    ⟨isInv, type, parent, one⟩ | ⟨parent0, parent1, two, ⟨isXor, type⟩ | ⟨isAnd, type⟩⟩
  · have inverter : d.isInvert n := ⟨type, by rw [one]; rfl⟩
    rw [type, if_neg (by decide), if_neg (by decide), if_pos inverter, isInv]
  · rw [type, if_pos rfl, isXor]
  · rw [type, if_neg (by decide), if_pos rfl, isAnd]

theorem Loaded.gateLine (once : f.DrivenOnce) (loaded : Loaded f f.lines.reverse d)
    {n : Fin f.mWireCount} (gate : ¬ d.isInput n) : d.gateLine n ∈ f.lines ∧
      (d.gateLine n).output = n.val ∧ (d.gateLine n).inputs = (d.mParents n).map Fin.val ∧
      d.writeGate n = .ok ((d.gateLine n).print ++ ['\n']) := by
  obtain ⟨l, listed, output, wire, inputs, k, parsed⟩ := loaded.line once gate
  have name := typeName_line (once.kinds l listed) inputs parsed
  have parents : (d.mParents n).map d.mWireIdx = (d.mParents n).map Fin.val :=
    List.map_congr_left fun parent _ => loaded.wireIdx once parent
  have same : d.gateLine n = l := by
    unfold DagCircuit.gateLine
    rw [name, parents, inputs, wire, ← output, ← (once.kinds l listed).1]
    rfl
  refine ⟨same ▸ listed, same ▸ output, ?_, ?_⟩
  · rw [same, inputs]
  · unfold writeGate
    rw [name]
    simp [DagCircuit.gateLine, BrisLine.print, name, List.flatMap_map, Except.toOption]

def written (d : DagCircuit f.mWireCount) : List BrisLine := d.gates.map d.gateLine

theorem isGate_of_mem {n : Fin f.mWireCount} (listed : n ∈ d.gates) : ¬ d.isInput n := by
  simpa [gates] using listed

theorem written_perm (once : f.DrivenOnce) (loaded : Loaded f f.lines.reverse d) :
    d.written.Perm f.lines := by
  have distinct : (f.lines.map (·.output)).Nodup := once.driven.nodup_iff.mpr List.nodup_range'
  have outputs : d.written.map (·.output) = d.gates.map Fin.val := by
    rw [written, List.map_map]
    exact List.map_congr_left fun n listed => (loaded.gateLine once (isGate_of_mem listed)).2.1
  have distinct' : (d.written.map (·.output)).Nodup := by
    rw [outputs]
    exact ((List.nodup_finRange _).filter _).map Fin.val_injective
  rw [List.perm_ext_iff_of_nodup (List.Nodup.of_map _ distinct') (List.Nodup.of_map _ distinct)]
  intro l
  constructor
  · intro listed
    obtain ⟨n, gate, rfl⟩ := List.mem_map.mp listed
    exact (loaded.gateLine once (isGate_of_mem gate)).1
  · intro listed
    have driven := once.driven.subset (List.mem_map_of_mem (f := (·.output)) listed)
    rw [List.mem_range'_1] at driven
    have wires := once.inputs
    have inside : l.output < f.mWireCount := by omega
    have gate : ¬ d.isInput ⟨l.output, inside⟩ := by
      rw [loaded.isInput_iff]
      exact Nat.not_lt.mpr driven.1
    obtain ⟨line, output, -⟩ := loaded.gateLine once gate
    rw [← List.inj_on_of_nodup_map distinct line listed output]
    exact List.mem_map_of_mem (mem_gates gate)

theorem DrivenOnce.perm {f : BrisFile} (once : f.DrivenOnce) {lines : List BrisLine}
    (perm : lines.Perm f.lines) : BrisFile.DrivenOnce { f with lines := lines } :=
  ⟨once.inputs, (perm.map _).trans once.driven, fun l listed =>
    once.kinds l (perm.mem_iff.mp listed), once.outputs, once.u64⟩

theorem Loaded.alike (once : f.DrivenOnce) {lines : List BrisLine} (perm : lines.Perm f.lines)
    {d' : DagCircuit f.mWireCount} (loaded : Loaded f f.lines.reverse d)
    (loaded' : Loaded { f with lines := lines } lines.reverse d') : Alike d d' := by
  have once' := DrivenOnce.perm once perm
  have distinct : (f.lines.map (·.output)).Nodup := once.driven.nodup_iff.mpr List.nodup_range'
  have isInput : ∀ n, d'.isInput n ↔ d.isInput n := fun n => by
    rw [loaded.isInput_iff]
    exact loaded'.isInput_iff n
  have gates : ∀ n, ¬ d.isInput n → d'.mParents n = d.mParents n ∧ d'.mType n = d.mType n := by
    intro n gate
    obtain ⟨l, listed, output, -, inputs, k, parsed⟩ := loaded.line once gate
    obtain ⟨l', listed', output', -, inputs', k', parsed'⟩ :=
      loaded'.line once' (mt (isInput n).mp gate)
    obtain rfl := List.inj_on_of_nodup_map distinct (perm.mem_iff.mp listed') listed
      (output'.trans output.symm)
    have types := Except.ok.inj (parsed'.symm.trans parsed)
    exact ⟨List.map_injective_iff.mpr Fin.val_injective (inputs'.trans inputs.symm),
      congrArg Prod.fst types⟩
  have parents : d'.mParents = d.mParents := by
    funext n
    by_cases input : d.isInput n
    · rw [(loaded.input once input).1]
      exact (loaded'.input once' ((isInput n).mpr input)).1
    · exact (gates n input).1
  have few : ∀ n, f.lines.reverse.countP (·.output = n) ≤ 1 := fun n => by
    have single := List.nodup_iff_count_le_one.mp distinct n
    rw [List.countP_reverse]
    rwa [List.count_eq_countP, List.countP_map] at single
  refine ⟨loaded'.inputCounts.trans loaded.inputCounts.symm, ?_, ?_, ?_, parents,
    fun n gate => (gates n gate).2, ?_, ?_⟩
  · exact (loaded'.numGates.trans perm.length_eq).trans loaded.numGates.symm
  · rw [loaded.counted, loaded'.counted, List.countP_reverse, List.countP_reverse]
    exact perm.countP_eq _
  · funext n
    exact (loaded'.wireIdx once' n).trans (loaded.wireIdx once n).symm
  · intro q
    rw [List.perm_iff_count]
    intro n
    have same : lines.reverse.countP (·.output = n.val) =
        f.lines.reverse.countP (·.output = n.val) := by
      rw [List.countP_reverse, List.countP_reverse]
      exact perm.countP_eq _
    rw [loaded.linked n (few n) q, ← parents]
    exact loaded'.linked n (same ▸ few n) q
  · obtain ⟨sized, slots⟩ := loaded.outputs
    obtain ⟨sized', slots'⟩ := loaded'.outputs
    have wide := once.outputs
    apply List.ext_getElem?
    intro k
    by_cases inside : k < f.outputCount
    · let n : Fin f.mWireCount := ⟨f.mWireCount - f.outputCount + k, by omega⟩
      rw [slots k n rfl inside]
      refine (slots' k n rfl inside).trans ?_
      simp only [List.mem_reverse, perm.mem_iff]
    · have beyond : d.mOutputs.length ≤ k := by omega
      have beyond' : d'.mOutputs.length ≤ k := sized'.trans_le (Nat.not_lt.mp inside)
      rw [List.getElem?_eq_none beyond, List.getElem?_eq_none beyond']

theorem gates_length (once : f.DrivenOnce) (loaded : Loaded f f.lines.reverse d) :
    d.gates.length = f.lines.length := by
  rw [← (written_perm once loaded).length_eq, written, List.length_map]

theorem wires_eq (once : f.DrivenOnce) : f.inputWireCount + f.lines.length = f.mWireCount := by
  have sized := once.driven.length_eq
  rw [List.length_map, List.length_range'] at sized
  have := once.inputs
  omega

theorem inputs_below (once : f.DrivenOnce) (loaded : Loaded f f.lines.reverse d) {l : BrisLine}
    (listed : l ∈ f.lines) {i : Nat} (reads : i ∈ l.inputs) : i < f.mWireCount := by
  obtain ⟨n, gate, rfl⟩ := List.mem_map.mp ((written_perm once loaded).mem_iff.mpr listed)
  rw [(loaded.gateLine once (isGate_of_mem gate)).2.2.1] at reads
  obtain ⟨parent, -, rfl⟩ := List.mem_map.mp reads
  exact parent.isLt

def rewritten (d : DagCircuit f.mWireCount) : BrisFile := { f with lines := d.written }

theorem writeBris_eq (once : f.DrivenOnce) (loaded : Loaded f f.lines.reverse d) :
    d.writeBris = .ok d.rewritten.print := by
  have lines : d.gates.mapM d.writeGate =
      .ok (d.gates.map fun n => (d.gateLine n).print ++ ['\n']) :=
    mapM_eq_map fun n listed => (loaded.gateLine once (isGate_of_mem listed)).2.2.2
  have sized := gates_length once loaded
  have all : ¬ d.gates.length < d.numGates := by
    rw [sized, loaded.numGates]
    exact lt_irrefl _
  unfold writeBris
  rw [lines, ok_bind, if_neg all, loaded.numGates, ← sized, loaded.inputCounts, loaded.outputs.1]
  simp [BrisFile.print, rewritten, written, List.flatMap_def, Function.comp_def]
  rfl

theorem read_rewritten (once : f.DrivenOnce) (loaded : Loaded f f.lines.reverse d) :
    BrisFile.read d.rewritten.print = some d.rewritten := by
  have perm := written_perm once loaded
  have wires := wires_eq once
  have u64 : f.mWireCount < 2 ^ 64 := by
    have := once.u64
    unfold Circuit.noWire at this
    omega
  have outputs := once.outputs
  have sized : d.written.length = f.lines.length := perm.length_eq
  unfold BrisFile.inputWireCount at wires
  refine BrisFile.read_print ?_ u64 ?_ ?_ ?_ ?_
  · change d.written.length < 2 ^ 64
    omega
  · change f.mInputCounts.1 < 2 ^ 64
    omega
  · change f.mInputCounts.2 < 2 ^ 64
    omega
  · change f.outputCount < 2 ^ 64
    omega
  · intro l listed
    have inFile := perm.mem_iff.mp listed
    have driven := once.driven.subset (List.mem_map_of_mem (f := (·.output)) inFile)
    rw [List.mem_range'_1] at driven
    have kinded := once.kinds l inFile
    refine ⟨?_, ?_, fun i reads => (inputs_below once loaded inFile reads).trans u64, by omega, ?_⟩
    · rcases kinded.2 with two | one
      · omega
      · omega
    · rw [kinded.1]
      decide
    · rcases kinded.2 with ⟨isXor | isAnd, -⟩ | ⟨isInv, -⟩
      · rw [isXor]
        simp [Text.isSpace]
      · rw [isAnd]
        simp [Text.isSpace]
      · rw [isInv]
        simp [Text.isSpace]

theorem readBris_rewritten (once : f.DrivenOnce) (loaded : Loaded f f.lines.reverse d) :
    ∃ d' : DagCircuit f.mWireCount, readBris d.rewritten = .ok d' ∧ Alike d d' := by
  have perm := written_perm once loaded
  have once' := DrivenOnce.perm once perm
  have inRange : d.rewritten.InRange := by
    refine ⟨wires_eq once', fun l listed => ?_, fun l listed i reads => ?_, once.u64⟩
    · have driven := once.driven.subset
        (List.mem_map_of_mem (f := (·.output)) (perm.mem_iff.mp listed))
      rw [List.mem_range'_1] at driven
      have := once.inputs
      exact ⟨driven.1, by change _ < f.mWireCount; omega⟩
    · exact inputs_below once loaded (perm.mem_iff.mp listed) reads
  have readable : ∀ l ∈ d.rewritten.lines, l.Readable := fun l listed => by
    have kinded := once'.kinds l listed
    refine ⟨?_, kinded.1, ?_⟩
    · rcases kinded.2 with two | one
      · omega
      · omega
    · rcases kinded.2 with ⟨isXor | isAnd, -⟩ | ⟨isInv, -⟩
      · exact .inl isXor
      · exact .inr (.inl isAnd)
      · exact .inr (.inr isInv)
  obtain ⟨d', run⟩ := readBris_total inRange readable
  exact ⟨d', run, loaded.alike once perm (loaded_of_ok once'.outputs run)⟩

theorem outputBits_rewritten (wf : f.WellFormed) {d' : DagCircuit f.mWireCount}
    (run : readBris f = .ok d) (run' : readBris d.rewritten = .ok d') (alike : Alike d d')
    {fuel fuel' : Nat} {c c' : Circuit} (built : Circuit.readBris f fuel false = .ok c)
    (built' : Circuit.readBris d.rewritten fuel' false = .ok c') (x : List Bool) :
    c.outputBits x = c'.outputBits x := by
  have once : f.DrivenOnce := ⟨wf.inputs, wf.driven, wf.kinds, wf.outputs, wf.u64⟩
  have perm := written_perm once (loaded_of_ok wf.outputs run)
  have once' := DrivenOnce.perm once perm
  have wf' : d.rewritten.WellFormed := by
    obtain ⟨rank, acyclic⟩ := wf.acyclic
    exact ⟨once'.inputs, once'.driven, once'.kinds,
      ⟨rank, fun l listed => acyclic l (perm.mem_iff.mp listed)⟩, once'.outputs, once'.u64⟩
  obtain ⟨v, solves⟩ := (readBris_ok wf run).exists_solves wf (fun _ => false) x
  have solves' : d.rewritten.Solves (fun _ => false) x v :=
    ⟨solves.inputs, fun l listed => solves.lines l (perm.mem_iff.mp listed)⟩
  obtain ⟨e, ns, loaded, outputs, bits⟩ := readBris_plain wf built
  obtain ⟨e', ns', loaded', outputs', bits'⟩ := readBris_plain wf' built'
  obtain rfl := Except.ok.inj (run.symm.trans loaded)
  obtain rfl := Except.ok.inj (run'.symm.trans loaded')
  rw [alike.outputs, outputs] at outputs'
  have same := List.map_injective_iff.mpr (Option.some_injective _) outputs'
  rw [bits x v solves, bits' x v solves', same]
  rfl

/-- What is written of a graph is read as the same graph, with the same circuit function. -/
theorem readBris_writeBris (once : f.DrivenOnce) (run : readBris f = .ok d) :
    ∃ text lines, d.writeBris = .ok text ∧ BrisFile.read text = some { f with lines := lines } ∧
      ∃ d' : DagCircuit f.mWireCount, readBris { f with lines := lines } = .ok d' ∧ Alike d d' ∧
        (∀ x v, d'.Solves x v ↔ d.Solves x v) ∧
        (f.WellFormed → ∀ fuel fuel' c c', Circuit.readBris f fuel false = .ok c →
          Circuit.readBris { f with lines := lines } fuel' false = .ok c' →
            ∀ x, c.outputBits x = c'.outputBits x) := by
  have loaded := loaded_of_ok once.outputs run
  obtain ⟨d', run', alike⟩ := readBris_rewritten once loaded
  exact ⟨d.rewritten.print, d.written, writeBris_eq once loaded, read_rewritten once loaded,
    d', run', alike, alike.solves, fun wf _ _ _ _ => outputBits_rewritten wf run run' alike⟩

end Written

/-- Every line stands before those whose outputs it reads. -/
def unsortedFile : BrisFile :=
  ⟨5, (1, 1), 1, [⟨[2, 3], 1, 4, "XOR"⟩, ⟨[0, 1], 1, 3, "AND"⟩, ⟨[0], 1, 2, "INV"⟩]⟩

theorem readBris_writeBris_unsorted : ∃ (d : DagCircuit 5) (text : List Char)
    (lines : List BrisLine), readBris unsortedFile = .ok d ∧ d.writeBris = .ok text ∧
      BrisFile.read text = some { unsortedFile with lines := lines } ∧
      ∃ d' : DagCircuit 5, readBris { unsortedFile with lines := lines } = .ok d' ∧ Alike d d' := by
  have once : unsortedFile.DrivenOnce :=
    ⟨by decide, by decide, by simp [unsortedFile, BrisLine.WellKinded], by decide, by decide⟩
  have passes : (readBris unsortedFile).toBool = true := by decide
  obtain ⟨d, run⟩ := ok_of_toBool passes
  obtain ⟨text, lines, written, reads, d', run', alike, -⟩ := readBris_writeBris once run
  exact ⟨d, text, lines, run, written, reads, d', run', alike⟩

end DagCircuit

end BatchDualEx
