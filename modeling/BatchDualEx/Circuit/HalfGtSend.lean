import BatchDualEx.Circuit.HalfGtCorrect

/- `HalfGtGarbledCircuit::GarbleSend`: the garbling loop over a wire buffer that is shared by
   many circuits, with the tables going to the channel instead of `mGates`. -/
namespace BatchDualEx.HalfGtGarbledCircuit

open WordXor Lists

variable (aes : Block → Block → Block)

structure SendState where
  wires : List Block
  buff : List GarbledGate
  tweaks : Block × Block
  tableMasks : List Block

def sendGate (mGlobalOffset : Block) (s : SendState) (gate : Gate) : SendState :=
  let a := s.wires.getD gate.mInput0 zeroBlock
  let b := s.wires.getD gate.mInput1 zeroBlock
  let gt := gate.mType
  if gt.isXor then
    { s with
      wires := s.wires.set gate.mOutput (a ^^^ b ^^^ select (gt.code.getLsbD 0) mGlobalOffset) }
  else
    let aPermuteBit := permuteBit a
    let bPermuteBit := permuteBit b
    let hash0 := hashLabel aes a s.tweaks.1
    let hash1 := hashLabel aes (a ^^^ mGlobalOffset) s.tweaks.1
    let hash2 := hashLabel aes b s.tweaks.2
    let hash3 := hashLabel aes (b ^^^ mGlobalOffset) s.tweaks.2
    let garbledTable0 := hash0 ^^^ hash1 ^^^ select (gt.bAlpha ^^ bPermuteBit) mGlobalOffset
    let garbledTable1 := hash2 ^^^ hash3 ^^^ a ^^^ select gt.aAlpha mGlobalOffset
    let c := (if aPermuteBit then hash1 else hash0) ^^^ (if bPermuteBit then hash3 else hash2) ^^^
      select (((aPermuteBit ^^ gt.aAlpha) && (bPermuteBit ^^ gt.bAlpha)) ^^ gt.cAlpha) mGlobalOffset
    let masks := nextMasks s.tableMasks
    { wires := s.wires.set gate.mOutput c
      buff := s.buff ++ [⟨garbledTable0 ^^^ masks.1.1, garbledTable1 ^^^ masks.1.2⟩]
      tweaks := nextTweaks s.tweaks
      tableMasks := masks.2 }

def sendLoop (cd : Circuit) (seed : Block) (wires indexArray tableMasks : List Block) :
    SendState :=
  let inputs := inputLabels aes seed indexArray cd
  cd.mGates.foldl (sendGate aes (globalOffset aes seed))
    ⟨inputs ++ wires.drop inputs.length, [], firstTweaks cd, tableMasks⟩

/-- The circuit that the garbler keeps, and the tables it has sent. -/
def GarbleSend (cd : Circuit) (seed : Block) (wires indexArray tableMasks : List Block) :
    HalfGtGarbledCircuit × List GarbledGate :=
  let s := sendLoop aes cd seed wires indexArray tableMasks
  ({ mGlobalOffset := globalOffset aes seed
     mInputWires := inputLabels aes seed indexArray cd
     mOutputWires := cd.mOutputs.map (s.wires.getD · zeroBlock)
     mGates := []
     mTranslationTable := translationTable cd s.wires }, s.buff)

variable (delta : Block)

/-- The buffer starts with the wires that `Garble` has appended so far, and `GarbleSend` may
    have more masks left. -/
structure Sends (left : Nat) (s : SendState) (g : GarbleState) : Prop where
  room : g.mInputWires.length + left ≤ s.wires.length
  wires : ∀ w < g.mInputWires.length, s.wires.getD w zeroBlock = g.mInputWires.getD w zeroBlock
  buff : s.buff = g.mGates
  tweaks : s.tweaks = g.tweaks
  masks : s.tableMasks = g.tableMasks

theorem set_next {n : Nat} {wires known : List Block} (length : known.length = n)
    (room : n < wires.length) (same : ∀ w < n, wires.getD w zeroBlock = known.getD w zeroBlock)
    (label : Block) {w : Nat} (below : w < n + 1) :
    (wires.set n label).getD w zeroBlock = (known ++ [label]).getD w zeroBlock := by
  by_cases last : w = n
  · rw [last, getD_set_self room, ← length, getD_append_last]
  · rw [getD_set_ne _ (Ne.symm last), List.getD_append _ _ _ _ (by omega)]
    exact same w (by omega)

theorem sendGate_sends {left : Nat} {s : SendState} {g : GarbleState}
    (sends : Sends (left + 1) s g) {gate : Gate} {gates : List Gate}
    (ordered : Circuit.OrderedFrom g.mInputWires.length (gate :: gates)) :
    Sends left (sendGate aes delta s gate) (garbleGate aes delta g gate) := by
  obtain ⟨output, input0, input1, _⟩ := ordered
  have room := sends.room
  have a := sends.wires _ input0
  have b := sends.wires _ input1
  unfold sendGate garbleGate
  rw [a, b, sends.tweaks, sends.masks, sends.buff, output]
  by_cases free : gate.mType.isXor = true
  · simp only [free, if_true]
    refine ⟨?_, fun w below => ?_, rfl, rfl, rfl⟩
    · simp only [List.length_append, List.length_singleton, List.length_set]
      omega
    · simp only [List.length_append, List.length_singleton] at below
      exact set_next rfl (by omega) sends.wires _ below
  · simp only [free, Bool.false_eq_true, if_false]
    refine ⟨?_, fun w below => ?_, rfl, rfl, rfl⟩
    · simp only [List.length_append, List.length_singleton, List.length_set]
      omega
    · simp only [List.length_append, List.length_singleton] at below
      exact set_next rfl (by omega) sends.wires _ below

theorem sendGates_sends {gates : List Gate} {s : SendState} {g : GarbleState}
    (sends : Sends gates.length s g)
    (ordered : Circuit.OrderedFrom g.mInputWires.length gates) :
    Sends 0 (gates.foldl (sendGate aes delta) s) (gates.foldl (garbleGate aes delta) g) := by
  induction gates generalizing s g with
  | nil => exact sends
  | cons gate gates ih =>
    obtain ⟨label, wires⟩ := garbleGate_wires aes delta g gate
    refine ih (sendGate_sends aes delta sends ordered) ?_
    rw [wires, List.length_append, List.length_singleton]
    exact ordered.2.2.2

theorem garble_inputWires {cd : Circuit} (seed : Block) {indexArray : List Block}
    (reach : cd.inputWireCount ≤ indexArray.length) (tableMasks : List Block) :
    (Garble aes cd seed indexArray tableMasks).mInputWires =
      inputLabels aes seed indexArray cd := by
  have count := inputLabels_length aes seed reach
  have sized : (Garble aes cd seed indexArray tableMasks).mInputWires.length =
      cd.inputWireCount := List.takeD_length _ _ _
  apply ext_getD zeroBlock (by rw [sized, count])
  intro w below
  exact garble_inputs aes tableMasks reach (sized ▸ below)

/-- In a buffer with room for every wire `GarbleSend` computes what `Garble` computes. -/
theorem GarbleSend_eq {cd : Circuit} (wf : cd.WellFormed) (seed : Block)
    {wires indexArray : List Block} (reach : cd.inputWireCount ≤ indexArray.length)
    (room : cd.mWireCount ≤ wires.length) (tableMasks : List Block) :
    GarbleSend aes cd seed wires indexArray tableMasks =
      ({ Garble aes cd seed indexArray tableMasks with mGates := [] },
        (Garble aes cd seed indexArray tableMasks).mGates) := by
  have count := inputLabels_length aes seed reach
  have all := wf.wires
  have start : Sends cd.mGates.length
      ⟨inputLabels aes seed indexArray cd ++ wires.drop (inputLabels aes seed indexArray cd).length,
        [], firstTweaks cd, tableMasks⟩
      ⟨inputLabels aes seed indexArray cd, [], firstTweaks cd, tableMasks⟩ := by
    refine ⟨?_, fun w below => List.getD_append _ _ _ _ below, rfl, rfl, rfl⟩
    simp only [List.length_append, List.length_drop]
    omega
  have sends := sendGates_sends aes (globalOffset aes seed) start
    (by rw [count]; exact wf.ordered)
  have length := garble_length aes (globalOffset aes seed) cd.mGates
    ⟨inputLabels aes seed indexArray cd, [], firstTweaks cd, tableMasks⟩
  have label : ∀ output ∈ cd.mOutputs,
      (sendLoop aes cd seed wires indexArray tableMasks).wires.getD output zeroBlock =
        (garbleLoop aes cd seed indexArray tableMasks).mInputWires.getD output zeroBlock := by
    intro output listed
    have below := wf.outputs output listed
    refine sends.wires output ?_
    rw [length]
    simp only
    omega
  have outputs := List.map_congr_left label
  have bits : translationTable cd (sendLoop aes cd seed wires indexArray tableMasks).wires =
      translationTable cd (garbleLoop aes cd seed indexArray tableMasks).mInputWires := by
    unfold translationTable
    rw [List.map_congr_left fun output listed => congrArg permuteBit (label output listed)]
  unfold GarbleSend
  simp only [outputs, bits, ← garble_inputWires aes seed reach tableMasks]
  exact Prod.ext rfl sends.buff

theorem garbleGate_masks (gate : Gate) (s : GarbleState) {n : Nat} {masks : List Block}
    (enough : masks.length = 2 * ([gate].countP (fun gate => !gate.mType.isXor) + n)) :
    ∃ (s' : GarbleState) (later : List Block), later.length = 2 * n ∧ ∀ rest,
      garbleGate aes delta { s with tableMasks := masks ++ rest } gate =
        { s' with tableMasks := later ++ rest } := by
  by_cases free : gate.mType.isXor = true
  · simp only [List.countP_singleton, free, Bool.not_true, Bool.false_eq_true, if_false,
      Nat.zero_add] at enough
    refine ⟨garbleGate aes delta s gate, masks, enough, fun rest => ?_⟩
    unfold garbleGate
    simp only [free, if_true]
  · simp only [List.countP_singleton, free, Bool.not_false, if_true] at enough
    obtain ⟨m0, m1, later, rfl⟩ : ∃ m0 m1 later, masks = m0 :: m1 :: later := by
      match masks, enough with
      | [], enough => simp at enough
      | [_], enough => simp at enough; omega
      | m0 :: m1 :: later, _ => exact ⟨m0, m1, later, rfl⟩
    simp only [List.length_cons] at enough
    refine ⟨garbleGate aes delta { s with tableMasks := [m0, m1] } gate, later, by omega,
      fun rest => ?_⟩
    unfold garbleGate
    simp only [free, Bool.false_eq_true, if_false, List.cons_append, nextMasks]

theorem garbleGates_masks (gates : List Gate) (s : GarbleState) {masks : List Block}
    (enough : masks.length = 2 * gates.countP fun gate => !gate.mType.isXor) :
    ∃ s' : GarbleState, ∀ rest,
      gates.foldl (garbleGate aes delta) { s with tableMasks := masks ++ rest } =
        { s' with tableMasks := rest } := by
  induction gates generalizing s masks with
  | nil =>
    obtain rfl := List.length_eq_zero_iff.mp enough
    exact ⟨s, fun _ => rfl⟩
  | cons gate gates ih =>
    rw [← List.singleton_append, List.countP_append] at enough
    obtain ⟨next, later, sized, step⟩ := garbleGate_masks aes delta gate s enough
    obtain ⟨s', run⟩ := ih next sized
    refine ⟨s', fun rest => ?_⟩
    rw [List.foldl_cons, step rest]
    exact run rest

theorem Garble_masks {cd : Circuit} (wf : cd.WellFormed) (seed : Block) (indexArray : List Block)
    {masks : List Block} (enough : masks.length = 2 * cd.mNonXorGateCount) (rest : List Block) :
    Garble aes cd seed indexArray (masks ++ rest) = Garble aes cd seed indexArray masks := by
  rw [wf.tables] at enough
  obtain ⟨s', run⟩ := garbleGates_masks aes (globalOffset aes seed) cd.mGates
    ⟨inputLabels aes seed indexArray cd, [], firstTweaks cd, []⟩ enough
  have all := run rest
  have none := run []
  rw [List.append_nil] at none
  unfold Garble garbleLoop
  rw [all, none]

end BatchDualEx.HalfGtGarbledCircuit
