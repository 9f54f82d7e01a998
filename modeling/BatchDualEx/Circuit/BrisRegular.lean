import BatchDualEx.Circuit.ReadBris
import BatchDualEx.Circuit.DropInverts
import BatchDualEx.Lib.Acyclic

/- What `Circuit::readBris` relies on in a netlist, and what it finds out from the number of the
   gates that it has added. -/
namespace BatchDualEx

/-- An INV has one input, XOR and AND have one or two. -/
def BrisLine.Connected (l : BrisLine) : Prop :=
  l.fanOut = 1 ∧ (l.gateType = "INV" ∧ l.inputs.length = 1 ∨
    (l.gateType = "XOR" ∨ l.gateType = "AND") ∧ (l.inputs.length = 1 ∨ l.inputs.length = 2))

instance (l : BrisLine) : Decidable l.Connected := inferInstanceAs (Decidable (_ ∧ _))

theorem BrisLine.Connected.readable {l : BrisLine} (connected : l.Connected) : l.Readable := by
  obtain ⟨fanOut, ⟨isInv, one⟩ | ⟨isXor | isAnd, sized⟩⟩ := connected
  · exact ⟨by omega, fanOut, .inr (.inr isInv)⟩
  · exact ⟨by omega, fanOut, .inl isXor⟩
  · exact ⟨by omega, fanOut, .inr (.inl isAnd)⟩

namespace BrisFile

variable (f : BrisFile)

def OutputsDriven : Prop :=
  ∀ k < f.outputCount, ∃ l ∈ f.lines, l.output + f.outputCount = f.mWireCount + k

/-- A netlist that has a meaning, on all of its outputs. -/
def Sound : Prop := f.WellFormed ∧ f.OutputsDriven

def Feeds (p n : Nat) : Prop := ∃ l ∈ f.lines, l.output = n ∧ p ∈ l.inputs

def ReadByGate (w : Nat) : Prop := ∃ l ∈ f.lines, l.gateType ≠ "INV" ∧ w ∈ l.inputs

instance (w : Nat) : Decidable (f.ReadByGate w) := inferInstanceAs (Decidable (∃ l ∈ f.lines, _))

def inverted (w : Nat) : Option Nat :=
  (f.lines.find? fun l => l.gateType = "INV" ∧ l.output = w).bind (·.inputs.head?)

def dropped : List Nat := dropInverts f.inverted f.outputWires []

/-- What is not checked of the INV lines when they are removed. -/
structure InvertsTrusted : Prop where
  once : ∀ l ∈ f.lines, l.gateType = "INV" → (f.lines.map (·.output)).count l.output = 1
  settled : ∀ w ∈ f.dropped, copied f.inverted f.dropped w = true
  -- no copy reads an INV line that is left and reads another gate, unless an output is moved to it
  short : ∀ l ∈ f.lines, l.gateType = "INV" → copied f.inverted f.dropped l.output = true →
    ∀ p ∈ l.inputs, ∀ q ∈ f.inverted p, f.inverted q = none →
      copied f.inverted f.dropped p = true ∨ 0 < readers f.inverted f.dropped p

/-- What is not checked at all. -/
structure Trusted (reduce : Bool) : Prop where
  lines : ∀ l ∈ f.lines, l.Connected
  outputs : f.OutputsDriven
  inverts : reduce = true → f.InvertsTrusted

/-- The INV lines whose wires are outputs or are read by XOR and AND lines can be removed. -/
structure Removable : Prop where
  single : ∀ w, f.isOutput w ∨ f.ReadByGate w → ∀ p ∈ f.inverted w, f.inverted p = none
  gates : ∀ w, f.isOutput w → ∀ p ∈ f.inverted w, f.inputWireCount ≤ p
  unread : ∀ w, f.isOutput w → (f.inverted w).isSome → ¬ f.ReadByGate w
  alone : ∀ w w', f.isOutput w → f.isOutput w' ∨ f.ReadByGate w' →
    ∀ p ∈ f.inverted w, p ∈ f.inverted w' → w = w'

/-- What a file keeps to when the circuit has as many gates as expected; with `reduce` nothing is
    known of INV lines that no other line and no output depends on. -/
structure Regular (reduce : Bool) : Prop where
  distinct : (f.lines.map (·.output)).Nodup
  acyclic : ∀ l ∈ f.lines, (l.gateType = "INV" → reduce = false) → Acc f.Feeds l.output
  inverts : reduce = true → f.Removable

variable {f}

theorem OutputsDriven.wide (driven : f.OutputsDriven) : f.outputCount ≤ f.mWireCount := by
  by_cases none : f.outputCount = 0
  · omega
  · obtain ⟨l, _, output⟩ := driven 0 (Nat.pos_of_ne_zero none)
    omega

theorem exists_rank (inRange : f.InRange) (acyclic : ∀ l ∈ f.lines, Acc f.Feeds l.output) :
    ∃ rank : Nat → Nat, ∀ l ∈ f.lines, ∀ i ∈ l.inputs, rank i < rank l.output := by
  have wf : WellFounded f.Feeds := by
    constructor
    intro n
    constructor
    rintro p ⟨l, listed, here, reads⟩
    exact (acyclic l listed).inv ⟨l, listed, rfl, reads⟩
  have below : WellFounded fun p n : Fin f.mWireCount => f.Feeds p.val n.val :=
    InvImage.wf Fin.val wf
  obtain ⟨rank, ranked⟩ := Acyclic.exists_rank below
  refine ⟨fun w => if inside : w < f.mWireCount then rank ⟨w, inside⟩ else 0, ?_⟩
  intro l listed i reads
  have output := (inRange.outputs l listed).2
  have input := inRange.inputs l listed i reads
  dsimp only
  rw [dif_pos input, dif_pos output]
  exact ranked ⟨i, input⟩ ⟨l.output, output⟩ ⟨l, listed, rfl, reads⟩

/-- Regular files are sound when the lines have the inputs of their types and no INV lines are in a
    cycle. -/
theorem Regular.sound {reduce : Bool} (regular : f.Regular reduce) (inRange : f.InRange)
    (trusted : f.Trusted reduce) (kinds : ∀ l ∈ f.lines, l.WellKinded)
    (acyclic : ∀ l ∈ f.lines, Acc f.Feeds l.output) : f.Sound := by
  refine ⟨?_, trusted.outputs⟩
  have gates := inRange.gates
  refine ⟨by omega, ?_, kinds, ?_, trusted.outputs.wide, inRange.u64⟩
  · refine (regular.distinct.subperm ?_).perm_of_length_le ?_
    · intro w listed
      obtain ⟨l, inFile, rfl⟩ := List.mem_map.mp listed
      have range := inRange.outputs l inFile
      rw [List.mem_range'_1]
      omega
    · rw [List.length_map, List.length_range']
      omega
  · obtain ⟨rank, below⟩ := exists_rank inRange acyclic
    exact ⟨rank, fun l listed i reads => ⟨inRange.inputs l listed i reads, below l listed i reads⟩⟩

end BrisFile

end BatchDualEx
