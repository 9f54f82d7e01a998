import BatchDualEx.Circuit.HalfGtCorrect
import BatchDualEx.Lib.Result

/- `HalfGtGarbledCircuit::Validate`: the garbling loop once more, now comparing every table
   and every translation bit with those that were received. -/
namespace BatchDualEx.HalfGtGarbledCircuit

open WordXor Result

variable (aes : Block → Block → Block)

/-- The types that builds without `NDEBUG` refuse. -/
def constantOrUnary : GateType → Bool
  | .zero | .one | .na | .nb | .a | .b => true
  | _ => false

theorem not_constantOrUnary {t : GateType} (supported : t.Garblable) :
    constantOrUnary t = false := by
  cases t <;> first | rfl | exact supported.elim

structure ValidateState where
  mInputWires : List Block
  gateIter : List GarbledGate
  tweaks : Block × Block
  tableMasks : List Block

def validateGate (mGlobalOffset : Block) (s : ValidateState) (gate : Gate) :
    Except Fault ValidateState :=
  let a := s.mInputWires.getD gate.mInput0 zeroBlock
  let b := s.mInputWires.getD gate.mInput1 zeroBlock
  let gt := gate.mType
  if constantOrUnary gt then .error (.thrown "Constant/unary gates not supported")
  else if gt.isXor then
    .ok { s with mInputWires :=
      s.mInputWires ++ [a ^^^ b ^^^ select (gt.code.getLsbD 0) mGlobalOffset] }
  else
    let aPermuteBit := permuteBit a
    let bPermuteBit := permuteBit b
    let hash0 := hashLabel aes a s.tweaks.1
    let hash1 := hashLabel aes (a ^^^ mGlobalOffset) s.tweaks.1
    let hash2 := hashLabel aes b s.tweaks.2
    let hash3 := hashLabel aes (b ^^^ mGlobalOffset) s.tweaks.2
    let garbledTable0 := hash0 ^^^ hash1 ^^^ select (gt.bAlpha ^^ bPermuteBit) mGlobalOffset
    let garbledTable1 := hash2 ^^^ hash3 ^^^ a ^^^ select gt.aAlpha mGlobalOffset
    let c := (if aPermuteBit then hash1 else hash0) ^^^ (if bPermuteBit then hash3 else hash2) ^^^
      select (((aPermuteBit ^^ gt.aAlpha) && (bPermuteBit ^^ gt.bAlpha)) ^^ gt.cAlpha) mGlobalOffset
    let masks := nextMasks s.tableMasks
    match s.gateIter with
    | [] => .error .undefined
    | garbled :: gateIter =>
      if garbledTable0 ^^^ masks.1.1 ≠ garbled.mGarbledTable0 then
        .error (.thrown "GC check failed")
      else if garbledTable1 ^^^ masks.1.2 ≠ garbled.mGarbledTable1 then
        .error (.thrown "GC check failed")
      else .ok
        { mInputWires := s.mInputWires ++ [c]
          gateIter := gateIter
          tweaks := nextTweaks s.tweaks
          tableMasks := masks.2 }

def validateOutputs (wires : List Block) : List Nat → List Bool → Except Fault (List Block)
  | [], _ => .ok []
  | _ :: _, [] => .error .undefined
  | output :: outputs, bit :: mTranslationTable => do
    let wire := wires.getD output zeroBlock
    if bit ≠ permuteBit wire then throw (.thrown "GC check failed")
    let mOutputWires ← validateOutputs wires outputs mTranslationTable
    return wire :: mOutputWires

def Validate (gc : HalfGtGarbledCircuit) (cd : Circuit) (seed : Block)
    (indexArray tableMasks : List Block) : Except Fault (Bool × HalfGtGarbledCircuit) := do
  let s ← cd.mGates.foldlM (validateGate aes (globalOffset aes seed))
    ⟨inputLabels aes seed indexArray cd, gc.mGates, firstTweaks cd, tableMasks⟩
  let mOutputWires ← validateOutputs s.mInputWires cd.mOutputs gc.mTranslationTable
  return (true, { gc with
    mGlobalOffset := globalOffset aes seed
    mInputWires := s.mInputWires.takeD cd.inputWireCount zeroBlock
    mOutputWires := mOutputWires })

def Aligned (s : ValidateState) (g : GarbleState) : Prop :=
  s.mInputWires = g.mInputWires ∧ s.tweaks = g.tweaks ∧ s.tableMasks = g.tableMasks

variable {aes} {delta : Block}

/-- A gate is accepted exactly when the next table is the one that the garbler appends. -/
theorem validateGate_ok_iff {s s' : ValidateState} {g : GarbleState} (aligned : Aligned s g)
    {gate : Gate} (supported : gate.mType.Garblable) : validateGate aes delta s gate = .ok s' ↔
      Aligned s' (garbleGate aes delta g gate) ∧
        g.mGates ++ s.gateIter = (garbleGate aes delta g gate).mGates ++ s'.gateIter := by
  obtain ⟨wires, gateIter, tweaks, masks⟩ := s
  obtain ⟨wires', gateIter', tweaks', masks'⟩ := s'
  obtain ⟨rfl, rfl, rfl⟩ := aligned
  unfold validateGate garbleGate Aligned
  simp only [not_constantOrUnary supported, Bool.false_eq_true, if_false]
  by_cases free : gate.mType.isXor = true
  · simp only [free, if_true, Except.ok.injEq, ValidateState.mk.injEq, List.append_cancel_left_eq]
    constructor
    · rintro ⟨rfl, rfl, rfl, rfl⟩
      exact ⟨⟨rfl, rfl, rfl⟩, rfl⟩
    · rintro ⟨⟨rfl, rfl, rfl⟩, rfl⟩
      exact ⟨rfl, rfl, rfl, rfl⟩
  · simp only [free, Bool.false_eq_true, if_false, List.append_assoc, List.append_cancel_left_eq]
    cases gateIter with
    | nil => simp
    | cons garbled rest =>
      obtain ⟨table0, table1⟩ := garbled
      simp only [List.singleton_append, List.cons.injEq, GarbledGate.mk.injEq]
      split
      case isTrue wrong =>
        refine ⟨fun accepted => (by cases accepted), ?_⟩
        rintro ⟨_, ⟨same, _⟩, _⟩
        exact absurd same.symm wrong
      case isFalse first =>
        split
        case isTrue wrong =>
          refine ⟨fun accepted => (by cases accepted), ?_⟩
          rintro ⟨_, ⟨_, same⟩, _⟩
          exact absurd same.symm wrong
        case isFalse second =>
          simp only [Except.ok.injEq, ValidateState.mk.injEq, not_not.mp first, not_not.mp second,
            true_and]
          constructor
          · rintro ⟨rfl, rfl, rfl, rfl⟩
            exact ⟨⟨rfl, rfl, rfl⟩, rfl⟩
          · rintro ⟨⟨rfl, rfl, rfl⟩, rfl⟩
            exact ⟨rfl, rfl, rfl, rfl⟩

theorem validateGates_ok_iff {gates : List Gate} (supported : ∀ gate ∈ gates, gate.mType.Garblable)
    {s s' : ValidateState} {g : GarbleState} (aligned : Aligned s g) :
    gates.foldlM (validateGate aes delta) s = .ok s' ↔
      Aligned s' (gates.foldl (garbleGate aes delta) g) ∧
        g.mGates ++ s.gateIter = (gates.foldl (garbleGate aes delta) g).mGates ++ s'.gateIter := by
  induction gates generalizing s g with
  | nil =>
    obtain ⟨wires, gateIter, tweaks, masks⟩ := s
    obtain ⟨rfl, rfl, rfl⟩ := aligned
    constructor
    · intro run
      cases run
      exact ⟨⟨rfl, rfl, rfl⟩, rfl⟩
    · rintro ⟨⟨wires, tweaks, masks⟩, rest⟩
      obtain ⟨_, _, _, _⟩ := s'
      cases wires
      cases tweaks
      cases masks
      cases List.append_cancel_left rest
      rfl
  | cons gate gates ih =>
    have now := supported gate List.mem_cons_self
    replace ih := @ih fun gate later => supported gate (List.mem_cons_of_mem _ later)
    rw [List.foldlM_cons, List.foldl_cons]
    constructor
    · intro run
      obtain ⟨next, first, run⟩ := bind_ok run
      obtain ⟨alignedNext, read⟩ := (validateGate_ok_iff aligned now).mp first
      obtain ⟨alignedLast, rest⟩ := (ih alignedNext).mp run
      exact ⟨alignedLast, read.trans rest⟩
    · rintro ⟨alignedLast, rest⟩
      obtain ⟨more, tables⟩ := garble_tables aes delta gates (garbleGate aes delta g gate)
      have step : validateGate aes delta s gate = .ok ⟨(garbleGate aes delta g gate).mInputWires,
          more ++ s'.gateIter, (garbleGate aes delta g gate).tweaks,
          (garbleGate aes delta g gate).tableMasks⟩ := by
        refine (validateGate_ok_iff aligned now).mpr ⟨⟨rfl, rfl, rfl⟩, ?_⟩
        rw [rest, tables, List.append_assoc]
      rw [step]
      refine (ih ⟨rfl, rfl, rfl⟩).mpr ⟨alignedLast, ?_⟩
      rw [tables, List.append_assoc]

theorem validateOutputs_ok_iff (wires : List Block) {outputs : List Nat} {table : List Bool}
    (sized : table.length = outputs.length) (mOutputWires : List Block) :
    validateOutputs wires outputs table = .ok mOutputWires ↔
      table = (outputs.map fun output => permuteBit (wires.getD output zeroBlock)) ∧
        mOutputWires = outputs.map (wires.getD · zeroBlock) := by
  induction outputs generalizing table mOutputWires with
  | nil =>
    obtain rfl := List.length_eq_zero_iff.mp sized
    simp [validateOutputs, eq_comm]
  | cons output outputs ih =>
    cases table with
    | nil => cases sized
    | cons bit table =>
      have rest := ih (Nat.succ.inj sized)
      unfold validateOutputs
      by_cases right : bit = permuteBit (wires.getD output zeroBlock)
      · constructor
        · intro run
          simp only [right, ne_eq, not_true_eq_false, if_false] at run
          obtain ⟨later, checked, run⟩ := bind_ok run
          cases run
          obtain ⟨tail, labels⟩ := (rest later).mp checked
          rw [List.map_cons, List.map_cons, ← tail, ← labels, right]
          exact ⟨rfl, rfl⟩
        · rintro ⟨entries, rfl⟩
          have tail := (List.cons.inj entries).2
          simp only [right, ne_eq, not_true_eq_false, if_false]
          rw [(rest _).mpr ⟨tail, rfl⟩]
          rfl
      · constructor
        · intro run
          simp only [ne_eq, right, not_false_eq_true, if_true] at run
          cases run
        · rintro ⟨entries, _⟩
          exact absurd (List.cons.inj entries).1 right

theorem translationTable_eq {cd : Circuit} (wf : cd.WellFormed) (wires : List Block) :
    translationTable cd wires = cd.mOutputs.map fun o => permuteBit (wires.getD o zeroBlock) := by
  rw [translationTable, wf.outputCount, List.takeD_eq_take _ (by simp)]
  simp

/-- The check passes exactly for what the garbler computes, and returns what it stores. -/
theorem Validate_ok_iff {cd : Circuit} (wf : cd.WellFormed)
    (supported : ∀ gate ∈ cd.mGates, gate.mType.Garblable) {gc : HalfGtGarbledCircuit}
    (tables : gc.mGates.length = cd.mNonXorGateCount)
    (bits : gc.mTranslationTable.length = cd.mOutputCount) (seed : Block)
    (indexArray tableMasks : List Block) (result : Bool × HalfGtGarbledCircuit) :
    gc.Validate aes cd seed indexArray tableMasks = .ok result ↔
      (gc.mGates = (Garble aes cd seed indexArray tableMasks).mGates ∧
        gc.mTranslationTable = (Garble aes cd seed indexArray tableMasks).mTranslationTable) ∧
      result = (true, Garble aes cd seed indexArray tableMasks) := by
  have aligned : Aligned
      ⟨inputLabels aes seed indexArray cd, gc.mGates, firstTweaks cd, tableMasks⟩
      ⟨inputLabels aes seed indexArray cd, [], firstTweaks cd, tableMasks⟩ := ⟨rfl, rfl, rfl⟩
  have outputs : gc.mTranslationTable.length = cd.mOutputs.length := by
    rw [bits, wf.outputCount]
  unfold Validate
  constructor
  · intro run
    obtain ⟨s, gates, run⟩ := bind_ok run
    obtain ⟨mOutputWires, checked, run⟩ := bind_ok run
    cases run
    obtain ⟨⟨wires, _, _⟩, read⟩ := (validateGates_ok_iff supported aligned).mp gates
    obtain ⟨table, labels⟩ := (validateOutputs_ok_iff _ outputs _).mp checked
    have count := garble_table_count aes (globalOffset aes seed) cd.mGates
      ⟨inputLabels aes seed indexArray cd, [], firstTweaks cd, tableMasks⟩
    have none : s.gateIter = [] := by
      have sized := congrArg List.length read
      rw [List.length_append, List.length_append, count, tables, wf.tables] at sized
      exact List.length_eq_zero_iff.mp (by omega)
    rw [none, List.append_nil, List.nil_append] at read
    change gc.mGates = _ at read
    rw [wires] at table labels
    rw [← translationTable_eq wf] at table
    refine ⟨⟨read, table⟩, ?_⟩
    unfold Garble
    rw [labels, wires, read, table]
    rfl
  · rintro ⟨⟨read, table⟩, rfl⟩
    have gates : cd.mGates.foldlM (validateGate aes (globalOffset aes seed))
        ⟨inputLabels aes seed indexArray cd, gc.mGates, firstTweaks cd, tableMasks⟩ = .ok
          ⟨(garbleLoop aes cd seed indexArray tableMasks).mInputWires, [],
            (garbleLoop aes cd seed indexArray tableMasks).tweaks,
            (garbleLoop aes cd seed indexArray tableMasks).tableMasks⟩ := by
      refine (validateGates_ok_iff supported aligned).mpr ⟨⟨rfl, rfl, rfl⟩, ?_⟩
      rw [List.append_nil, List.nil_append]
      exact read
    have checked := (validateOutputs_ok_iff
      (garbleLoop aes cd seed indexArray tableMasks).mInputWires
      outputs _).mpr ⟨by rw [table, ← translationTable_eq wf]; rfl, rfl⟩
    rw [gates]
    change
      (validateOutputs (garbleLoop aes cd seed indexArray tableMasks).mInputWires _ _ >>= _) = _
    rw [checked, read, table]
    rfl

/-- `Validate` returns true without throwing exactly for the tables and the translation bits
    that `Garble` computes, and then also leaves its offset and its wires behind. -/
theorem validate_accepts_iff {cd : Circuit} (wf : cd.WellFormed)
    (supported : ∀ gate ∈ cd.mGates, gate.mType.Garblable) (seed : Block)
    (indexArray tableMasks : List Block) {gc : HalfGtGarbledCircuit}
    (tables : gc.mGates.length = cd.mNonXorGateCount)
    (bits : gc.mTranslationTable.length = cd.mOutputCount) :
    let garbled := Garble aes cd seed indexArray tableMasks
    ((∃ gc', gc.Validate aes cd seed indexArray tableMasks = .ok (true, gc')) ↔
      gc.mGates = garbled.mGates ∧ gc.mTranslationTable = garbled.mTranslationTable) ∧
    ∀ result gc', gc.Validate aes cd seed indexArray tableMasks = .ok (result, gc') →
      result = true ∧ gc'.mGlobalOffset = garbled.mGlobalOffset ∧
        gc'.mInputWires = garbled.mInputWires ∧ gc'.mOutputWires = garbled.mOutputWires := by
  intro garbled
  have exactly := @Validate_ok_iff aes cd wf supported gc tables bits seed indexArray tableMasks
  refine ⟨⟨?_, fun same => ⟨garbled, (exactly _).mpr ⟨same, rfl⟩⟩⟩, fun result gc' run => ?_⟩
  · rintro ⟨gc', run⟩
    exact ((exactly _).mp run).1
  · obtain ⟨rfl, rfl⟩ := Prod.mk.inj ((exactly _).mp run).2
    exact ⟨rfl, rfl, rfl, rfl⟩

theorem validate_accepts_three_gates :
    let garbled := Garble rotatingAes threeGates 5 [0, 1] [1, 2, 3, 4]
    ∃ gc', Validate rotatingAes { garbled with mInputWires := [], mOutputWires := [] } threeGates 5
      [0, 1] [1, 2, 3, 4] = .ok (true, gc') :=
  (validate_accepts_iff threeGates_wellFormed (by decide) 5 [0, 1] [1, 2, 3, 4] (by decide +kernel)
    (by decide +kernel)).1.mpr ⟨rfl, rfl⟩

end BatchDualEx.HalfGtGarbledCircuit
