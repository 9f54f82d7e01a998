import BatchDualEx.Circuit.HalfGtSend
import BatchDualEx.Network.Message

/- `GarbleSend` and `ReceiveFromGarbler` over a channel: the tables as the bytes of one message
   and the translation table as those of the next. -/
namespace BatchDualEx.HalfGtGarbledCircuit

open Bytes

def gateBytes (g : GarbledGate) : List Byte :=
  byteArray g.mGarbledTable0 ++ byteArray g.mGarbledTable1

def gatesBytes (gates : List GarbledGate) : List Byte := gates.flatMap gateBytes

def gatesOfBytes (data : List Byte) (n : Nat) : List GarbledGate :=
  (List.range n).map fun k =>
    ⟨blockOfBytes ((data.drop (32 * k)).take 16), blockOfBytes ((data.drop (32 * k + 16)).take 16)⟩

def writeTables (memory tables : List GarbledGate) : Except Fault (List GarbledGate) :=
  if memory.length < tables.length then .error .undefined
  else .ok (tables ++ memory.drop tables.length)

def writeTranslation (mTranslationTable : BitVector) (cd : Circuit) (bits : List Bool) :
    BitVector :=
  (List.range bits.length).foldl (fun v i => v.set (0 + i) (bits.getD i false))
    (mTranslationTable.reset cd.mOutputCount)

variable (aes : Block → Block → Block)

/-- The circuit that the garbler keeps and its two messages. `memory` is what the new stream
    holds before the tables are written. -/
def garbleAndSend (cd : Circuit) (seed : Block) (wires indexArray tableMasks : List Block)
    (memory : List GarbledGate) (mTranslationTable : BitVector) :
    Except Fault (HalfGtGarbledCircuit × List Byte × List Byte) := do
  let (kept, tables) := GarbleSend aes cd seed wires indexArray tableMasks
  let buff ← writeTables memory tables
  let first ← BtChannel.asyncSend (gatesBytes buff)
  let second ← BtChannel.asyncSend
    (writeTranslation mTranslationTable cd kept.mTranslationTable).bytes
  .ok (kept, first, second)

structure ReceivedCircuit where
  mGates : List GarbledGate
  mTranslationTable : BitVector

def ReceiveFromGarbler (cd : Circuit) (gc : ReceivedCircuit) (first second : List Byte) :
    Except Fault ReceivedCircuit := do
  let mGates := gc.mGates.takeD cd.mNonXorGateCount ⟨zeroBlock, zeroBlock⟩
  let tables ← BtChannel.recv (gatesBytes mGates) first
  let mTranslationTable := gc.mTranslationTable.reset cd.mOutputCount
  let bits ← BtChannel.recv mTranslationTable.bytes second
  .ok { mGates := gatesOfBytes tables cd.mNonXorGateCount
        mTranslationTable := mTranslationTable.overwrite 0 bits }

/-- The two sides end up with what `Garble` computes, in every wire buffer with room for all
    wires, every memory of the stream and every earlier use of the two objects. -/
def Transfers (cd : Circuit) : Prop :=
  ∀ (seed : Block) (wires indexArray tableMasks : List Block) (memory : List GarbledGate)
    (sent : BitVector) (gc : ReceivedCircuit),
    cd.inputWireCount ≤ indexArray.length → cd.mWireCount ≤ wires.length →
    memory.length = cd.mNonXorGateCount →
    ∃ kept first second received,
      garbleAndSend aes cd seed wires indexArray tableMasks memory sent =
        .ok (kept, first, second) ∧
      ReceiveFromGarbler cd gc first second = .ok received ∧
      received.mGates = (Garble aes cd seed indexArray tableMasks).mGates ∧
      received.mTranslationTable.bits =
        (Garble aes cd seed indexArray tableMasks).mTranslationTable ∧
      kept.mGlobalOffset = (Garble aes cd seed indexArray tableMasks).mGlobalOffset ∧
      kept.mInputWires = (Garble aes cd seed indexArray tableMasks).mInputWires ∧
      kept.mOutputWires = (Garble aes cd seed indexArray tableMasks).mOutputWires

theorem gateBytes_length (g : GarbledGate) : (gateBytes g).length = 32 := by
  simp [gateBytes]

theorem gatesBytes_length (gates : List GarbledGate) :
    (gatesBytes gates).length = 32 * gates.length := by
  induction gates with
  | nil => rfl
  | cons g gates ih =>
    rw [gatesBytes, List.flatMap_cons, List.length_append, gateBytes_length, List.length_cons]
    rw [gatesBytes] at ih
    omega

theorem gatesOfBytes_cons (g : GarbledGate) (rest : List Byte) (n : Nat) :
    gatesOfBytes (gateBytes g ++ rest) (n + 1) = g :: gatesOfBytes rest n := by
  have first : blockOfBytes (((gateBytes g ++ rest).drop 0).take 16) = g.mGarbledTable0 := by
    rw [List.drop_zero, gateBytes, List.append_assoc,
      List.take_left' (byteArray_length _), blockOfBytes_byteArray]
  have second : blockOfBytes (((gateBytes g ++ rest).drop 16).take 16) = g.mGarbledTable1 := by
    rw [gateBytes, List.append_assoc, List.drop_left' (byteArray_length _),
      List.take_left' (byteArray_length _), blockOfBytes_byteArray]
  have later : ∀ k, (gateBytes g ++ rest).drop (32 + k) = rest.drop k := by
    intro k
    rw [← List.drop_drop, List.drop_left' (gateBytes_length g)]
  rw [gatesOfBytes, List.range_succ_eq_map, List.map_cons, List.map_map, Nat.mul_zero, Nat.zero_add,
    first, second, gatesOfBytes]
  refine congrArg (g :: ·) (List.map_congr_left fun k _ => ?_)
  have at0 : 32 * (k + 1) = 32 + 32 * k := by omega
  simp only [Function.comp_apply, Nat.succ_eq_add_one, at0, Nat.add_assoc, later]

theorem gatesOfBytes_gatesBytes (gates : List GarbledGate) :
    gatesOfBytes (gatesBytes gates) gates.length = gates := by
  induction gates with
  | nil => rfl
  | cons g gates ih =>
    rw [gatesBytes, List.flatMap_cons, List.length_cons, gatesOfBytes_cons]
    exact congrArg (g :: ·) ih

theorem gatesOfBytes_drop {data data' : List Byte} {m n k : Nat}
    (same : data.drop m = data'.drop m) (late : m ≤ 32 * k) (inside : k < n) (d : GarbledGate) :
    (gatesOfBytes data n).getD k d = (gatesOfBytes data' n).getD k d := by
  have from0 : ∀ i, m ≤ i → data.drop i = data'.drop i := by
    intro i after
    obtain ⟨j, rfl⟩ := Nat.exists_eq_add_of_le after
    rw [← List.drop_drop, same, List.drop_drop]
  rw [gatesOfBytes, gatesOfBytes, Lists.map_range_getD _ _ inside, Lists.map_range_getD _ _ inside,
    from0 _ late, from0 _ (by omega)]

theorem writeTranslation_get (v : BitVector) {cd : Circuit} {bits : List Bool}
    (sized : bits.length = cd.mOutputCount) :
    (writeTranslation v cd bits).mNumBits = cd.mOutputCount ∧
      ∀ i < cd.mOutputCount, (writeTranslation v cd bits).get i = bits.getD i false := by
  have room := v.reset_data_length cd.mOutputCount
  obtain ⟨numBits, _, written⟩ := BitVector.get_setLoop (v.reset cd.mOutputCount) 0
    (fun i => bits.getD i false) bits.length (by omega)
  refine ⟨numBits.trans (v.reset_numBits _), fun i below => ?_⟩
  rw [writeTranslation, written i, if_pos (by omega), Nat.sub_zero]

theorem sizeBytes_of_numBits {v : BitVector} {n : Nat} (numBits : v.mNumBits = n) :
    v.sizeBytes = (n + 7) / 8 := by
  rw [BitVector.sizeBytes, numBits]

theorem received_bits (v : BitVector) {w : BitVector} {n : Nat} (numBits : w.mNumBits = n) :
    ((v.reset n).overwrite 0 w.bytes).bits = w.bits := by
  have sized := sizeBytes_of_numBits numBits
  have room := v.reset_data_length n
  have count : ((v.reset n).overwrite 0 w.bytes).mNumBits = n := v.reset_numBits n
  apply BitVector.bits_eq (count.trans numBits.symm)
  intro i below
  have inside : i < n := by omega
  change bit (memcpy (v.reset n).mData 0 w.bytes) i = _
  rw [bit_memcpy (by omega), if_pos (by rw [BitVector.bytes_length]; omega), Nat.mul_zero,
    Nat.sub_zero, BitVector.bit_bytes w (by omega)]

theorem tables_arrive {gates memory : List GarbledGate} (some : gates.length ≠ 0)
    (few : gates.length < 2 ^ 27) (sized : memory.length = gates.length) :
    BtChannel.asyncSend (gatesBytes gates) = .ok (gatesBytes gates) ∧
      BtChannel.recv (gatesBytes memory) (gatesBytes gates) = .ok (gatesBytes gates) := by
  have sent := gatesBytes_length gates
  have expected := gatesBytes_length memory
  have nonempty : gatesBytes gates ≠ [] := List.ne_nil_of_length_pos (by omega)
  exact ⟨BtChannel.asyncSend_small nonempty (by omega),
    BtChannel.recv_small nonempty (by omega) (by omega)⟩

theorem translation_arrives {v w : BitVector} {n : Nat} (expected : v.mNumBits = n)
    (sent : w.mNumBits = n) (some : n ≠ 0) (few : (n + 7) / 8 < 2 ^ 32) :
    BtChannel.asyncSend w.bytes = .ok w.bytes ∧
      BtChannel.recv v.bytes w.bytes = .ok w.bytes := by
  have size : w.bytes.length = (n + 7) / 8 := by
    rw [BitVector.bytes_length, BitVector.sizeBytes, sent]
  have room : v.bytes.length = (n + 7) / 8 := by
    rw [BitVector.bytes_length, BitVector.sizeBytes, expected]
  have nonempty : w.bytes ≠ [] := List.ne_nil_of_length_pos (by omega)
  exact ⟨BtChannel.asyncSend_small nonempty (by omega),
    BtChannel.recv_small nonempty (by omega) (by omega)⟩

theorem garble_gates_length {cd : Circuit} (wf : cd.WellFormed) (seed : Block)
    (indexArray tableMasks : List Block) :
    (Garble aes cd seed indexArray tableMasks).mGates.length = cd.mNonXorGateCount := by
  have count := garble_table_count aes (globalOffset aes seed) cd.mGates
    ⟨inputLabels aes seed indexArray cd, [], firstTweaks cd, tableMasks⟩
  rw [wf.tables]
  exact count.trans (Nat.zero_add _)

theorem garble_translation_length (cd : Circuit) (seed : Block)
    (indexArray tableMasks : List Block) :
    (Garble aes cd seed indexArray tableMasks).mTranslationTable.length = cd.mOutputCount :=
  List.takeD_length _ _ _

section
variable {cd : Circuit} (wf : cd.WellFormed)
include wf

theorem garbleAndSend_eq (seed : Block) {wires indexArray : List Block} (tableMasks : List Block)
    {memory : List GarbledGate} (sent : BitVector)
    (reach : cd.inputWireCount ≤ indexArray.length) (room : cd.mWireCount ≤ wires.length)
    (sized : memory.length = cd.mNonXorGateCount) :
    garbleAndSend aes cd seed wires indexArray tableMasks memory sent =
      (BtChannel.asyncSend (gatesBytes (Garble aes cd seed indexArray tableMasks).mGates)).bind
        fun first => (BtChannel.asyncSend (writeTranslation sent cd
            (Garble aes cd seed indexArray tableMasks).mTranslationTable).bytes).bind
          fun second => .ok ({ Garble aes cd seed indexArray tableMasks with mGates := [] },
            first, second) := by
  have count := garble_gates_length aes wf seed indexArray tableMasks
  have written : writeTables memory (Garble aes cd seed indexArray tableMasks).mGates =
      .ok (Garble aes cd seed indexArray tableMasks).mGates := by
    rw [writeTables, if_neg (by omega), List.drop_of_length_le (by omega), List.append_nil]
  rw [garbleAndSend, GarbleSend_eq aes wf seed reach room]
  simp only [written, bind, Except.bind]

theorem transfers_of_nonempty (gates : cd.mNonXorGateCount ≠ 0)
    (fewGates : cd.mNonXorGateCount < 2 ^ 27) (outputs : cd.mOutputCount ≠ 0)
    (fewOutputs : (cd.mOutputCount + 7) / 8 < 2 ^ 32) : Transfers aes cd := by
  intro seed wires indexArray tableMasks memory sent gc reach room sized
  have count := garble_gates_length aes wf seed indexArray tableMasks
  have bitCount := garble_translation_length aes cd seed indexArray tableMasks
  obtain ⟨numBits, bits⟩ := writeTranslation_get sent bitCount
  have resized : (gc.mGates.takeD cd.mNonXorGateCount ⟨zeroBlock, zeroBlock⟩).length =
      (Garble aes cd seed indexArray tableMasks).mGates.length := by
    rw [List.takeD_length, count]
  obtain ⟨first, tables⟩ := tables_arrive (by omega) (by omega) resized
  obtain ⟨second, translation⟩ := translation_arrives
    (gc.mTranslationTable.reset_numBits cd.mOutputCount) numBits outputs fewOutputs
  have sends : garbleAndSend aes cd seed wires indexArray tableMasks memory sent =
      .ok ({ Garble aes cd seed indexArray tableMasks with mGates := [] },
        gatesBytes (Garble aes cd seed indexArray tableMasks).mGates,
        (writeTranslation sent cd
          (Garble aes cd seed indexArray tableMasks).mTranslationTable).bytes) := by
    rw [garbleAndSend_eq aes wf seed tableMasks sent reach room sized, first, second]
    rfl
  refine ⟨_, _, _,
    ⟨gatesOfBytes (gatesBytes (Garble aes cd seed indexArray tableMasks).mGates)
        cd.mNonXorGateCount,
      (gc.mTranslationTable.reset cd.mOutputCount).overwrite 0 (writeTranslation sent cd
        (Garble aes cd seed indexArray tableMasks).mTranslationTable).bytes⟩,
    sends, ?_, ?_, ?_, rfl, rfl, rfl⟩
  · simp only [ReceiveFromGarbler, tables, translation, bind, Except.bind]
  · rw [← count]
    exact gatesOfBytes_gatesBytes _
  · rw [received_bits _ numBits]
    apply Lists.ext_getD false (by rw [BitVector.bits_length, numBits, bitCount])
    intro i below
    rw [BitVector.bits_length, numBits] at below
    rw [BitVector.bits, Lists.map_range_getD _ _ (by omega), bits i below]

theorem sent_nonempty {seed : Block} {wires indexArray tableMasks : List Block}
    {memory : List GarbledGate} {sent : BitVector} {kept : HalfGtGarbledCircuit}
    {first second : List Byte} (reach : cd.inputWireCount ≤ indexArray.length)
    (room : cd.mWireCount ≤ wires.length) (sized : memory.length = cd.mNonXorGateCount)
    (run : garbleAndSend aes cd seed wires indexArray tableMasks memory sent =
      .ok (kept, first, second)) :
    u32 (32 * cd.mNonXorGateCount) ≠ 0 ∧ u32 ((cd.mOutputCount + 7) / 8) ≠ 0 := by
  have count := garble_gates_length aes wf seed indexArray tableMasks
  obtain ⟨numBits, _⟩ := writeTranslation_get sent
    (garble_translation_length aes cd seed indexArray tableMasks)
  rw [garbleAndSend_eq aes wf seed tableMasks sent reach room sized] at run
  obtain ⟨tables, firstRun, run⟩ := Result.bind_ok run
  obtain ⟨bits, secondRun, _⟩ := Result.bind_ok run
  have tablesSent := (BtChannel.asyncSend_ok firstRun).1
  have bitsSent := (BtChannel.asyncSend_ok secondRun).1
  rw [gatesBytes_length, count] at tablesSent
  rw [BitVector.bytes_length, sizeBytes_of_numBits numBits] at bitsSent
  exact ⟨tablesSent, bitsSent⟩

end

/-- Where the header cannot hold the size of the tables, the last gate stays as it was. -/
theorem received_last_kept {cd : Circuit} {gc received : ReceivedCircuit} {first second : List Byte}
    (many : 2 ^ 27 ≤ cd.mNonXorGateCount) (sized : gc.mGates.length = cd.mNonXorGateCount)
    (run : ReceiveFromGarbler cd gc first second = .ok received) (d : GarbledGate) :
    received.mGates.getD (cd.mNonXorGateCount - 1) d =
      gc.mGates.getD (cd.mNonXorGateCount - 1) d := by
  have whole : gc.mGates.takeD cd.mNonXorGateCount ⟨zeroBlock, zeroBlock⟩ = gc.mGates := by
    rw [List.takeD_eq_take _ (by omega), List.take_of_length_le (by omega)]
  rw [ReceiveFromGarbler, whole] at run
  obtain ⟨tables, tablesRun, run⟩ := Result.bind_ok run
  obtain ⟨bits, _, run⟩ := Result.bind_ok run
  obtain ⟨short, kept⟩ := BtChannel.recv_drop tablesRun
  rw [gatesBytes_length, sized, u32] at short
  cases run
  have late : first.length ≤ 32 * (cd.mNonXorGateCount - 1) := by omega
  have inside : cd.mNonXorGateCount - 1 < cd.mNonXorGateCount := by omega
  have same := gatesOfBytes_drop kept late inside d
  have old := gatesOfBytes_gatesBytes gc.mGates
  rw [sized] at old
  rw [same, old]

theorem nonempty_of_transfers {cd : Circuit} (wf : cd.WellFormed)
    (transfers : Transfers aes cd) :
    cd.mNonXorGateCount ≠ 0 ∧ cd.mNonXorGateCount < 2 ^ 27 ∧ cd.mOutputCount ≠ 0 := by
  obtain ⟨indexArray, reach⟩ : ∃ l : List Block, cd.inputWireCount ≤ l.length :=
    ⟨List.replicate cd.inputWireCount 0, by simp⟩
  obtain ⟨wires, room⟩ : ∃ l : List Block, cd.mWireCount ≤ l.length :=
    ⟨List.replicate cd.mWireCount 0, by simp⟩
  -- The evaluator's object holds gates that differ from the last table.
  let last := (Garble aes cd 0 indexArray []).mGates.getD (cd.mNonXorGateCount - 1)
    ⟨zeroBlock, zeroBlock⟩
  let other : GarbledGate := ⟨last.mGarbledTable0 ^^^ 1, last.mGarbledTable1⟩
  obtain ⟨kept, first, second, received, sends, receives, gates, _⟩ :=
    transfers 0 wires indexArray [] (List.replicate cd.mNonXorGateCount other) .empty
    ⟨List.replicate cd.mNonXorGateCount other, .empty⟩ reach room (List.length_replicate ..)
  obtain ⟨tables, bits⟩ := sent_nonempty aes wf reach room (List.length_replicate ..) sends
  refine ⟨?_, ?_, ?_⟩
  · intro none
    exact tables (by rw [none]; rfl)
  · by_contra many
    have same := received_last_kept (by omega) (List.length_replicate ..) receives
      ⟨zeroBlock, zeroBlock⟩
    rw [gates, List.getD_replicate _ (by omega)] at same
    have table : last.mGarbledTable0 = last.mGarbledTable0 ^^^ 1 := congrArg (·.mGarbledTable0) same
    have bit := congrArg permuteBit table
    rw [permuteBit_xor] at bit
    revert bit
    cases permuteBit last.mGarbledTable0 <;> decide
  · intro none
    exact bits (by rw [none]; rfl)

/-- `dispatch` refuses an empty message, and the header holds the size of a message modulo
    `2^32`. -/
theorem transfers_iff {cd : Circuit} (wf : cd.WellFormed)
    (fewOutputs : (cd.mOutputCount + 7) / 8 < 2 ^ 32) :
    Transfers aes cd ↔
      cd.mNonXorGateCount ≠ 0 ∧ cd.mNonXorGateCount < 2 ^ 27 ∧ cd.mOutputCount ≠ 0 := by
  constructor
  · exact nonempty_of_transfers aes wf
  · rintro ⟨gates, fewGates, outputs⟩
    exact transfers_of_nonempty aes wf gates fewGates outputs fewOutputs

theorem transfers_iff_three_gates : Transfers rotatingAes threeGates ↔
    threeGates.mNonXorGateCount ≠ 0 ∧ threeGates.mNonXorGateCount < 2 ^ 27 ∧
      threeGates.mOutputCount ≠ 0 :=
  transfers_iff rotatingAes threeGates_wellFormed (by decide)

def xorCircuit : Circuit := ⟨3, 0, 1, (1, 1), [⟨0, 1, 2, .xor⟩], [2]⟩

/-- The message of a circuit without tables is refused. -/
theorem xorCircuit_not_sent :
    xorCircuit.WellFormed ∧
      garbleAndSend rotatingAes xorCircuit 5 [0, 0, 0] [0, 1] [] [] .empty =
        .error (.thrown "rt error") ∧
      ¬ Transfers rotatingAes xorCircuit := by
  have wf : xorCircuit.WellFormed :=
    ⟨by decide, by decide, by decide, by decide, by decide⟩
  refine ⟨wf, ?_, ?_⟩
  · rw [garbleAndSend_eq rotatingAes wf 5 [] .empty (by decide) (by decide) (by decide)]
    rfl
  · intro transfers
    exact (nonempty_of_transfers rotatingAes wf transfers).1 rfl

end BatchDualEx.HalfGtGarbledCircuit
