import BatchDualEx.Circuit.Circuit
import BatchDualEx.Common.BitVectorOps

/- `evaluate` and `translate` on a `BitVector`, against the same functions on a
   `std::vector<bool>`: bits that are not written yet are never read. -/
namespace BatchDualEx.Circuit

def evaluateGateBits (labels : BitVector) (g : Gate) : BitVector :=
  labels.set g.mOutput (g.eval
    ((if labels.get g.mInput0 then 1 else 0) ||| (if labels.get g.mInput1 then 2 else 0)))

def evaluateBits (c : Circuit) (labels : BitVector) : Except Fault BitVector := do
  let labels ← labels.resize c.mWireCount
  return c.mGates.foldl evaluateGateBits labels

def translateBits (c : Circuit) (labels output : BitVector) : BitVector :=
  (List.range c.mOutputs.length).foldl
    (fun output i => output.set i (labels.get (c.mOutputs.getD i 0)))
    (output.reset c.mOutputCount)

theorem evaluateGateBits_eq (labels : BitVector) (g : Gate) :
    evaluateGateBits labels g = labels.set g.mOutput
      (g.mType.apply (labels.get g.mInput0) (labels.get g.mInput1)) := by
  unfold evaluateGateBits
  rw [Gate.eval_apply]

/-- The gates from wire `n` on write what they write into a list, if the wires before `n` hold the
    same bits. -/
theorem evaluateBits_agree {n : Nat} {gs : List Gate} {v : BitVector} {labels : List Bool}
    (ordered : OrderedFrom n gs) (room : n + gs.length ≤ 8 * v.mData.length)
    (room' : n + gs.length ≤ labels.length)
    (agree : ∀ w < n, v.get w = labels.getD w false) :
    ∀ w < n + gs.length, (gs.foldl evaluateGateBits v).get w =
      (gs.foldl evaluateGate labels).getD w false := by
  induction gs generalizing n v labels with
  | nil => exact agree
  | cons g gs ih =>
    obtain ⟨output, first, second, rest⟩ := ordered
    rw [List.length_cons] at room room'
    intro w below
    rw [List.foldl_cons, List.foldl_cons]
    apply ih rest
    · rw [evaluateGateBits_eq]
      change _ ≤ 8 * (Bytes.setBit _ _ _).length
      rw [Bytes.setBit_length]
      omega
    · rw [evaluateGate_length]
      omega
    · intro k inside
      rw [evaluateGateBits_eq, evaluateGate_eq, BitVector.get_set (by omega), agree _ first,
        agree _ second]
      by_cases written : k = g.mOutput
      · rw [if_pos written, written, Lists.getD_set_self (by omega)]
      · rw [if_neg written, Lists.getD_set_ne _ (Ne.symm written)]
        exact agree k (by omega)
    · rw [List.length_cons] at below
      omega

theorem translateBits_bits {c : Circuit} (count : c.mOutputCount = c.mOutputs.length)
    (labels output : BitVector) :
    (c.translateBits labels output).bits = c.mOutputs.map labels.get := by
  have size := BitVector.reset_numBits output c.mOutputCount
  have room := BitVector.reset_data_length output c.mOutputCount
  obtain ⟨numBits, -, written⟩ := BitVector.get_setLoop (output.reset c.mOutputCount) 0
    (fun i => labels.get (c.mOutputs.getD i 0)) c.mOutputs.length (by omega)
  simp only [Nat.zero_add, Nat.zero_le, true_and, Nat.sub_zero] at numBits written
  rw [count] at size numBits written
  unfold BitVector.bits translateBits
  rw [count, numBits, size]
  apply List.ext_getElem
  · simp
  · intro i below below'
    rw [List.length_map] at below'
    rw [List.getElem_map, List.getElem_range, List.getElem_map, written i,
      if_pos below', List.getD_eq_getElem _ _ below']

/-- Both pairs of functions give the same outputs, which the inputs determine, exactly where
    `resize` can make room for the wires. -/
theorem evaluateBits_iff (c : Circuit) (wf : c.WellFormed) (labels output : BitVector)
    (enough : c.inputWireCount ≤ labels.size) :
    (∃ evaluated, c.evaluateBits labels = .ok evaluated ∧
        ∀ other : List Bool, c.inputWireCount ≤ other.length →
          (∀ i < c.inputWireCount, labels.get i = other.getD i false) →
          (c.translateBits evaluated output).bits = c.translate (c.evaluate other)) ↔
      labels.Resizes c.mWireCount := by
  rw [← BitVector.resize_ok_iff]
  unfold evaluateBits
  constructor
  · rintro ⟨evaluated, run, -⟩
    obtain ⟨resized, first, -⟩ := Result.bind_ok run
    exact ⟨resized, first⟩
  · rintro ⟨resized, run⟩
    obtain ⟨size, kept⟩ := BitVector.resize_ok run
    have fits := resized.fits
    have inUse : labels.size = labels.mNumBits := rfl
    refine ⟨_, by rw [run]; rfl, ?_⟩
    intro other _ same
    rw [translateBits_bits wf.outputCount, translate_eq wf]
    apply List.map_congr_left
    intro o listed
    have wires := wf.wires
    have below := wf.outputs o listed
    unfold evaluate
    apply evaluateBits_agree wf.ordered
    · omega
    · rw [List.takeD_length]
      omega
    · intro w input
      rw [Lists.getD_takeD _ _ _ (by omega), ← same w input]
      apply kept
      unfold BitVector.sizeBytes
      omega
    · omega

def oneAnd : Circuit where
  mWireCount := 3
  mNonXorGateCount := 1
  mOutputCount := 1
  mInputs := (1, 1)
  mGates := [⟨0, 1, 2, .and⟩]
  mOutputs := [2]

theorem oneAnd_wellFormed : oneAnd.WellFormed := by
  constructor <;> decide

/-- A container of five bits with other bits behind the inputs. -/
theorem evaluateBits_iff_oneAnd :
    (∃ evaluated, oneAnd.evaluateBits ⟨[0xff], 5, by decide⟩ = .ok evaluated ∧
        ∀ other : List Bool, 2 ≤ other.length →
          (∀ i < 2, BitVector.get ⟨[0xff], 5, by decide⟩ i = other.getD i false) →
          (oneAnd.translateBits evaluated .empty).bits = oneAnd.translate (oneAnd.evaluate other)) ↔
      BitVector.Resizes ⟨[0xff], 5, by decide⟩ 3 :=
  evaluateBits_iff oneAnd oneAnd_wellFormed ⟨[0xff], 5, by decide⟩ .empty (by decide)

def inputsOnly (n : Nat) : Circuit where
  mWireCount := n
  mNonXorGateCount := 0
  mOutputCount := 0
  mInputs := (n, 0)
  mGates := []
  mOutputs := []

/-- With `2 ^ 31` wires the number of bytes is negative. -/
theorem evaluateBits_fails : (inputsOnly (2 ^ 31)).WellFormed ∧
    (inputsOnly (2 ^ 31)).inputWireCount ≤ (BitVector.empty.reset (2 ^ 31)).size ∧
    ¬ ∃ evaluated, (inputsOnly (2 ^ 31)).evaluateBits (BitVector.empty.reset (2 ^ 31)) =
      .ok evaluated := by
  refine ⟨⟨trivial, rfl, rfl, fun _ none => absurd none List.not_mem_nil, rfl⟩, ?_, ?_⟩
  · exact (BitVector.reset_numBits .empty (2 ^ 31)).ge
  · rintro ⟨evaluated, run⟩
    obtain ⟨resized, first, -⟩ := Result.bind_ok run
    have sizes := (BitVector.resize_ok_iff _ _).mp ⟨resized, first⟩
    change 2 ^ 31 + 8 < 2 ^ 31 ∨ (2 ^ 31 + 14) % 2 ^ 32 < 2 ^ 31 + 6 ∧ _ at sizes
    omega

end BatchDualEx.Circuit
