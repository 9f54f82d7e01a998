import BatchDualEx.OT.OTExt

/- What the loops over the blocks leave behind on both sides: row `i` of the transposed columns
   is at index `i`, and the rows of the sender are those of the receiver moved by a multiple of
   `delta`. -/
namespace BatchDualEx

open Bytes Buffer WordXor

namespace PRNG

/-- The generator after `k` blocks, and the block that comes then. -/
def skip (g : PRNG) (k : Nat) : PRNG := (fun g => g.getBlock.2)^[k] g
def nthBlock (g : PRNG) (k : Nat) : Block := (g.skip k).getBlock.1

theorem skip_succ (g : PRNG) (k : Nat) : g.skip (k + 1) = (g.skip k).getBlock.2 :=
  Function.iterate_succ_apply' _ k g

end PRNG

theorem BitVector.getLsbD_blockView (v : BitVector) (i : Nat) {c : Nat} (inside : c < 128) :
    (v.blockView i).getLsbD c = v.get (128 * i + c) := by
  unfold blockView get
  rw [getLsbD_blockOfBytes _ inside, bit_take, bit_drop, decide_eq_true (show c / 8 < 16 by omega),
    Bool.true_and, show 8 * (16 * i) + c = 128 * i + c by omega]

/-- The base OTs of the receiver are those of the sender at its choices. -/
structure BaseOTsAgree (baseOTs : List (Block × Block)) (baseMessages : List Block)
    (baseChoiceBits : BitVector) : Prop where
  inputs : baseOTs.length = 128
  outputs : baseMessages.length = 128
  choices : baseChoiceBits.size = 128
  chosen : ∀ i < 128, baseMessages.getD i zeroBlock =
    if baseChoiceBits.get i then (baseOTs.getD i (zeroBlock, zeroBlock)).2
    else (baseOTs.getD i (zeroBlock, zeroBlock)).1

structure ExtendInputs where
  setSeed : Block → PRNG
  SHA1 : Block → BitVec 160
  baseOTs : List (Block × Block)
  baseMessages : List Block
  baseChoiceBits : BitVector
  choices : BitVector
  otCount : Nat

namespace ExtendInputs

variable (e : ExtendInputs)

def columnsAt (k : Nat) : List Block :=
  e.baseOTs.map fun base => (e.setSeed base.1).nthBlock k

def sentAt (k : Nat) : List Block :=
  e.baseOTs.map fun base => (e.setSeed base.2).nthBlock k ^^^
    ((e.setSeed base.1).nthBlock k ^^^ e.choices.blockView k)

def rowAt (i : Nat) : Block :=
  (eklundhTranspose128 (e.columnsAt (i / 128))).getD (i % 128) zeroBlock

def delta : Block := e.baseChoiceBits.blockView 0

def senderRowAt (i : Nat) : Block := e.rowAt i ^^^ select (e.choices.get i) e.delta

def senderGens (k : Nat) : List PRNG := e.baseMessages.map fun m => (e.setSeed m).skip k

variable {e}

theorem columnsAt_length (inputs : e.baseOTs.length = 128) (k : Nat) :
    (e.columnsAt k).length = 128 := by
  unfold columnsAt
  rw [List.length_map, inputs]

variable (agree : BaseOTsAgree e.baseOTs e.baseMessages e.baseChoiceBits)
include agree

/-- A column of the sender is that of the receiver, or its sum with the choices where the bit of
    `delta` is set. -/
theorem columns_getD (k : Nat) {c : Nat} (column : c < 128) :
    (OTExtSender.columns e.baseChoiceBits (e.senderGens k) (e.sentAt k)).getD c zeroBlock =
      (e.columnsAt k).getD c zeroBlock ^^^
        select (e.baseChoiceBits.get c) (e.choices.blockView k) := by
  have inside : c < e.baseOTs.length := by rw [agree.inputs]; exact column
  have inside' : c < e.baseMessages.length := by rw [agree.outputs]; exact column
  have base := agree.chosen c column
  rw [List.getD_eq_getElem _ _ inside', List.getD_eq_getElem _ _ inside] at base
  unfold OTExtSender.columns senderGens sentAt columnsAt
  rw [List.getD_eq_getElem _ _ (by simpa using inside'), List.getElem_mapIdx, List.getElem_map,
    base, List.getD_eq_getElem _ _ (by simpa using inside), List.getElem_map,
    List.getD_eq_getElem _ _ (by simpa using inside), List.getElem_map]
  cases e.baseChoiceBits.get c
  · simp [PRNG.nthBlock]
  · simp [PRNG.nthBlock]

theorem columns_length (k : Nat) :
    (OTExtSender.columns e.baseChoiceBits (e.senderGens k) (e.sentAt k)).length = 128 := by
  unfold OTExtSender.columns senderGens
  rw [List.length_mapIdx, List.length_map, agree.outputs]

/-- The row of the sender: transposed, the choices stand at the set bits of `delta`. -/
theorem transposed_columns (k : Nat) {r : Nat} (row : r < 128) :
    (eklundhTranspose128 (OTExtSender.columns e.baseChoiceBits (e.senderGens k)
      (e.sentAt k))).getD r zeroBlock = e.senderRowAt (128 * k + r) := by
  apply BitVec.eq_of_getLsbD_eq
  intro c column
  have left := entry_eklundhTranspose128 (columns_length agree k) row column
  have right := entry_eklundhTranspose128 (columnsAt_length agree.inputs k) row column
  unfold entry at left right
  unfold senderRowAt rowAt delta
  rw [left, columns_getD agree k column, BitVec.getLsbD_xor, BitVec.getLsbD_xor,
    show (128 * k + r) / 128 = k by omega, show (128 * k + r) % 128 = r by omega, right]
  have choice := e.choices.getLsbD_blockView k row
  have bit := e.baseChoiceBits.getLsbD_blockView 0 column
  rw [Nat.mul_zero, Nat.zero_add] at bit
  cases set : e.choices.get (128 * k + r) <;> cases setDelta : e.baseChoiceBits.get c <;>
    simp [choice, bit, set, setDelta]

end ExtendInputs

namespace OTExtReceiver

section
variable (e : ExtendInputs)

structure At (k i : Nat) (s : Loop) : Prop where
  gens : s.gens = e.baseOTs.map fun base =>
    ((e.setSeed base.1).skip k, (e.setSeed base.2).skip k)
  sent : s.sent = (List.range k).map e.sentAt
  rows : s.correlatedMessages.length = numOTExt e.otCount
  stored : Filled e.rowAt zeroBlock i s.correlatedMessages
  sized : s.mMessages.length = e.otCount
  hashed : Filled (fun i => hashBlock e.SHA1 (e.rowAt i)) zeroBlock (min i e.otCount) s.mMessages
  index : s.dIdx = i

variable {e} {k i r : Nat} {s : Loop} {t0 : List Block}

theorem messageRow_at (here : At e k i s) (room : i < numOTExt e.otCount) (message : i < e.otCount)
    (read : Buffer.readAt Fault.undefined t0 r = .ok (e.rowAt i)) :
    ∃ s', messageRow e.SHA1 t0 s r = .ok s' ∧ At e k (i + 1) s' := by
  have hashed := here.hashed
  rw [Nat.min_eq_left (Nat.le_of_lt message)] at hashed
  obtain ⟨rows, storing, length, stored⟩ :=
    here.stored.writeAt Fault.undefined (show i < s.correlatedMessages.length from here.rows ▸ room)
  obtain ⟨messages, hashing, length', hashed'⟩ :=
    hashed.writeAt Fault.undefined (show i < s.mMessages.length from here.sized ▸ message)
  unfold messageRow
  simp only [read, here.index, storing, hashing, bind, Except.bind]
  refine ⟨_, rfl, { here with
    rows := length.trans here.rows, stored := stored, sized := length'.trans here.sized,
    hashed := ?_, index := rfl }⟩
  rwa [Nat.min_eq_left (show i + 1 ≤ e.otCount from message)]

theorem extraRow_at (here : At e k i s) (room : i < numOTExt e.otCount) (extra : e.otCount ≤ i)
    (read : Buffer.readAt Fault.undefined t0 r = .ok (e.rowAt i)) :
    ∃ s', extraRow t0 s r = .ok s' ∧ At e k (i + 1) s' := by
  obtain ⟨rows, storing, length, stored⟩ :=
    here.stored.writeAt Fault.undefined (show i < s.correlatedMessages.length from here.rows ▸ room)
  have hashed := here.hashed
  rw [Nat.min_eq_right extra] at hashed
  unfold extraRow
  simp only [read, here.index, storing, bind, Except.bind]
  refine ⟨_, rfl, { here with
    rows := length.trans here.rows, stored := stored, hashed := ?_, index := rfl }⟩
  rwa [Nat.min_eq_right (show e.otCount ≤ i + 1 by omega)]

theorem readRow (inputs : e.baseOTs.length = 128) (k : Nat) (row : r < 128) :
    Buffer.readAt Fault.undefined (eklundhTranspose128 (e.columnsAt k)) r =
      .ok (e.rowAt (128 * k + r)) := by
  have length := eklundhTranspose128_length (ExtendInputs.columnsAt_length inputs k)
  rw [readAt_ok (show r < (eklundhTranspose128 (e.columnsAt k)).length by omega) zeroBlock]
  unfold ExtendInputs.rowAt
  rw [show (128 * k + r) / 128 = k by omega, show (128 * k + r) % 128 = r by omega]

theorem rows_at (agree : BaseOTsAgree e.baseOTs e.baseMessages e.baseChoiceBits)
    (here : At e k (128 * i) s) (room : 128 * (i + 1) ≤ numOTExt e.otCount) {stopIdx : Nat}
    (stop : stopIdx = min 128 (e.otCount - min (128 * i) e.otCount)) :
    ∃ middle s', (List.range' 0 stopIdx).foldlM
        (messageRow e.SHA1 (eklundhTranspose128 (e.columnsAt i))) s = .ok middle ∧
      (List.range' stopIdx (128 - stopIdx)).foldlM
        (extraRow (eklundhTranspose128 (e.columnsAt i))) middle = .ok s' ∧
      At e k (128 * (i + 1)) s' := by
  have message : ∀ row, 0 ≤ row → row < 0 + stopIdx → ∀ b, At e k (128 * i + row) b →
      ∃ c, messageRow e.SHA1 (eklundhTranspose128 (e.columnsAt i)) b row = .ok c ∧
        At e k (128 * i + (row + 1)) c := by
    intro row _ below b reached
    have stored : 128 * i + row < numOTExt e.otCount := by omega
    have isMessage : 128 * i + row < e.otCount := by omega
    exact messageRow_at reached stored isMessage (readRow agree.inputs i (by omega))
  have extra : ∀ row, stopIdx ≤ row → row < stopIdx + (128 - stopIdx) →
      ∀ b, At e k (128 * i + row) b →
      ∃ c, extraRow (eklundhTranspose128 (e.columnsAt i)) b row = .ok c ∧
        At e k (128 * i + (row + 1)) c := by
    intro row after below b reached
    have stored : 128 * i + row < numOTExt e.otCount := by omega
    have isExtra : e.otCount ≤ 128 * i + row := by omega
    exact extraRow_at reached stored isExtra (readRow agree.inputs i (by omega))
  obtain ⟨middle, first, between⟩ :=
    foldlM_range'_total (fun row => At e k (128 * i + row)) message here
  rw [Nat.zero_add] at between
  obtain ⟨s', second, last⟩ :=
    foldlM_range'_total (fun row => At e k (128 * i + row)) extra between
  rw [show 128 * i + (stopIdx + (128 - stopIdx)) = 128 * (i + 1) by omega] at last
  exact ⟨middle, s', first, second, last⟩

theorem block_at (agree : BaseOTsAgree e.baseOTs e.baseMessages e.baseChoiceBits)
    (small : e.otCount < 2 ^ 59) (here : At e k (128 * k) s)
    (done : s.atomicDoneIdx = min (128 * k) e.otCount)
    (room : 128 * (k + 1) ≤ numOTExt e.otCount) : ∃ s', block e.SHA1 e.choices s k = .ok s' ∧
      At e (k + 1) (128 * (k + 1)) s' ∧ s'.atomicDoneIdx = min (128 * (k + 1)) e.otCount := by
  have drawn : At e (k + 1) (128 * k) { s with
      gens := e.baseOTs.map fun base =>
        ((e.setSeed base.1).skip (k + 1), (e.setSeed base.2).skip (k + 1))
      sent := s.sent ++ [e.sentAt k] } := by
    refine { here with gens := rfl, sent := ?_ }
    rw [here.sent, List.range_succ, List.map_append]
    rfl
  obtain ⟨middle, s', first, second, last⟩ := rows_at agree drawn room rfl
  refine ⟨{ s' with atomicDoneIdx := min s'.dIdx s'.mMessages.length }, ?_, { last with }, ?_⟩
  · have advanced : (fun base : Block × Block => ((e.setSeed base.1).skip (k + 1),
        (e.setSeed base.2).skip (k + 1))) = fun base =>
          (((e.setSeed base.1).skip k).getBlock.2, ((e.setSeed base.2).skip k).getBlock.2) := by
      funext base
      rw [PRNG.skip_succ, PRNG.skip_succ]
    rw [advanced, done] at first
    unfold ExtendInputs.sentAt at first
    unfold ExtendInputs.columnsAt PRNG.nthBlock at first second
    have stop : stopIdx s.mMessages.length s.atomicDoneIdx =
        min 128 (e.otCount - min (128 * k) e.otCount) := by
      rw [here.sized, done, stopIdx_eq small (Nat.min_le_right _ _)]
    unfold block BASE_OT_COUNT
    rw [stop]
    simp only [here.gens, List.map_map, Function.comp_def, done, bind, Except.bind, first, second]
    rfl
  · rw [last.index, last.sized]

theorem blocks_at (agree : BaseOTsAgree e.baseOTs e.baseMessages e.baseChoiceBits)
    (small : e.otCount < 2 ^ 59) (start : At e 0 0 s) (done : s.atomicDoneIdx = 0) : ∃ s',
      (List.range' 0 (numOTExt e.otCount / 128)).foldlM (block e.SHA1 e.choices) s = .ok s' ∧
        At e (numOTExt e.otCount / 128) (numOTExt e.otCount) s' := by
  have size : 128 * (numOTExt e.otCount / 128) = numOTExt e.otCount := by
    unfold numOTExt
    omega
  have each : ∀ k, 0 ≤ k → k < 0 + numOTExt e.otCount / 128 → ∀ b,
      At e k (128 * k) b ∧ b.atomicDoneIdx = min (128 * k) e.otCount →
      ∃ c, block e.SHA1 e.choices b k = .ok c ∧
        At e (k + 1) (128 * (k + 1)) c ∧ c.atomicDoneIdx = min (128 * (k + 1)) e.otCount := by
    intro k _ below b reached
    exact block_at agree small reached.1 reached.2 (by omega)
  obtain ⟨s', run, last, _⟩ := foldlM_range'_total
    (fun k b => At e k (128 * k) b ∧ b.atomicDoneIdx = min (128 * k) e.otCount) each
    (b := s) ⟨start, by rw [done, Nat.mul_zero, Nat.zero_min]⟩
  rw [Nat.zero_add, size] at last
  exact ⟨s', run, last⟩

end

end OTExtReceiver

namespace OTExtSender

section Rows

structure Stored (SHA1 : Block → BitVec 160) (delta : Block) (row : Nat → Block) (otCount i : Nat)
    (s : Loop) : Prop where
  rows : s.correlatedMessages.length = numOTExt otCount
  stored : Filled row zeroBlock i s.correlatedMessages
  iter : s.correlatedMessagesIter = i
  sized0 : s.mMessages.1.length = otCount
  sized1 : s.mMessages.2.length = otCount
  hashed0 : Filled (fun i => hashBlock SHA1 (row i)) zeroBlock (min i otCount) s.mMessages.1
  hashed1 : Filled (fun i => hashBlock SHA1 (row i ^^^ delta)) zeroBlock (min i otCount)
    s.mMessages.2
  index : s.dIdx = min i otCount

variable {SHA1 : Block → BitVec 160} {delta : Block} {row : Nat → Block} {otCount i r : Nat}
  {s : Loop} {q : List Block}

theorem messageRow_stored (here : Stored SHA1 delta row otCount i s) (room : i < numOTExt otCount)
    (message : i < otCount) (read : Buffer.readAt Fault.undefined q r = .ok (row i)) :
    ∃ s', messageRow SHA1 delta q s r = .ok s' ∧ Stored SHA1 delta row otCount (i + 1) s' ∧
      s'.gens = s.gens ∧ s'.atomicDoneIdx = s.atomicDoneIdx := by
  have before : min i otCount = i := Nat.min_eq_left (Nat.le_of_lt message)
  have after : min (i + 1) otCount = i + 1 := Nat.min_eq_left message
  have hashed0 := here.hashed0
  have hashed1 := here.hashed1
  rw [before] at hashed0 hashed1
  have index : s.dIdx = i := here.index.trans before
  have inside : i < s.correlatedMessages.length := by rwa [here.rows]
  obtain ⟨rows, storing, length, stored⟩ := here.stored.writeAt Fault.undefined inside
  have back : Buffer.readAt Fault.undefined rows i = .ok (row i) := by
    rw [readAt_ok (show i < rows.length by rwa [length]) zeroBlock, stored i (Nat.lt_succ_self i)]
  obtain ⟨messages0, hashing0, length0, filled0⟩ :=
    hashed0.writeAt Fault.undefined (show i < s.mMessages.1.length from here.sized0 ▸ message)
  obtain ⟨messages1, hashing1, length1, filled1⟩ :=
    hashed1.writeAt Fault.undefined (show i < s.mMessages.2.length from here.sized1 ▸ message)
  unfold messageRow
  simp only [read, here.iter, index, storing, back, hashing0, hashing1, bind, Except.bind]
  refine ⟨_, rfl, ?_, rfl, rfl⟩
  exact {
    rows := length.trans here.rows, stored := stored, iter := rfl,
    sized0 := length0.trans here.sized0, sized1 := length1.trans here.sized1,
    hashed0 := by rw [after]; exact filled0, hashed1 := by rw [after]; exact filled1,
    index := after.symm }

theorem extraRow_stored (here : Stored SHA1 delta row otCount i s) (room : i < numOTExt otCount)
    (extra : otCount ≤ i) (read : Buffer.readAt Fault.undefined q r = .ok (row i)) :
    ∃ s', extraRow q s r = .ok s' ∧ Stored SHA1 delta row otCount (i + 1) s' ∧
      s'.gens = s.gens ∧ s'.atomicDoneIdx = s.atomicDoneIdx := by
  have before : min i otCount = otCount := Nat.min_eq_right extra
  have after : min (i + 1) otCount = otCount := Nat.min_eq_right (Nat.le_succ_of_le extra)
  have inside : i < s.correlatedMessages.length := by rwa [here.rows]
  obtain ⟨rows, storing, length, stored⟩ := here.stored.writeAt Fault.undefined inside
  have hashed0 := here.hashed0
  have hashed1 := here.hashed1
  have index := here.index
  rw [before] at hashed0 hashed1 index
  unfold extraRow
  simp only [read, here.iter, storing, bind, Except.bind]
  refine ⟨_, rfl, ?_, rfl, rfl⟩
  exact {
    here with
    rows := length.trans here.rows, stored := stored, iter := rfl,
    hashed0 := by rw [after]; exact hashed0, hashed1 := by rw [after]; exact hashed1,
    index := index.trans after.symm }

end Rows

section
variable (e : ExtendInputs)

structure At (k i : Nat) (s : Loop) : Prop where
  gens : s.gens = e.senderGens k
  rows : s.correlatedMessages.length = numOTExt e.otCount
  stored : Filled e.senderRowAt zeroBlock i s.correlatedMessages
  iter : s.correlatedMessagesIter = i
  sized0 : s.mMessages.1.length = e.otCount
  sized1 : s.mMessages.2.length = e.otCount
  hashed0 : Filled (fun i => hashBlock e.SHA1 (e.senderRowAt i)) zeroBlock (min i e.otCount)
    s.mMessages.1
  hashed1 : Filled (fun i => hashBlock e.SHA1 (e.senderRowAt i ^^^ e.delta)) zeroBlock
    (min i e.otCount) s.mMessages.2
  index : s.dIdx = min i e.otCount

variable {e} {k i r : Nat} {s : Loop} {q : List Block}

theorem at_iff : At e k i s ↔
    s.gens = e.senderGens k ∧ Stored e.SHA1 e.delta e.senderRowAt e.otCount i s := by
  constructor
  · intro here
    exact ⟨here.gens, { here with }⟩
  · intro here
    exact { here.2 with gens := here.1 }

theorem messageRow_at (here : At e k i s) (room : i < numOTExt e.otCount) (message : i < e.otCount)
    (read : Buffer.readAt Fault.undefined q r = .ok (e.senderRowAt i)) :
    ∃ s', messageRow e.SHA1 e.delta q s r = .ok s' ∧ At e k (i + 1) s' := by
  obtain ⟨gens, stored⟩ := at_iff.mp here
  obtain ⟨s', run, next, kept, -⟩ := messageRow_stored stored room message read
  exact ⟨s', run, at_iff.mpr ⟨kept.trans gens, next⟩⟩

theorem extraRow_at (here : At e k i s) (room : i < numOTExt e.otCount) (extra : e.otCount ≤ i)
    (read : Buffer.readAt Fault.undefined q r = .ok (e.senderRowAt i)) :
    ∃ s', extraRow q s r = .ok s' ∧ At e k (i + 1) s' ∧ s'.atomicDoneIdx = s.atomicDoneIdx := by
  obtain ⟨gens, stored⟩ := at_iff.mp here
  obtain ⟨s', run, next, kept, done⟩ := extraRow_stored stored room extra read
  exact ⟨s', run, at_iff.mpr ⟨kept.trans gens, next⟩, done⟩

def rowsAt (e : ExtendInputs) (k : Nat) : List Block :=
  eklundhTranspose128 (columns e.baseChoiceBits (e.senderGens k) (e.sentAt k))

variable (agree : BaseOTsAgree e.baseOTs e.baseMessages e.baseChoiceBits)
include agree

theorem readRow (k : Nat) (row : r < 128) :
    Buffer.readAt Fault.undefined (rowsAt e k) r = .ok (e.senderRowAt (128 * k + r)) := by
  have length : (rowsAt e k).length = 128 :=
    eklundhTranspose128_length (ExtendInputs.columns_length agree k)
  rw [readAt_ok (show r < (rowsAt e k).length by omega) zeroBlock]
  exact congrArg Except.ok (ExtendInputs.transposed_columns agree k row)

/-- The two loops over the rows of one block; the index is published between them. -/
theorem rows_at (here : At e k (128 * i) s) (room : 128 * (i + 1) ≤ numOTExt e.otCount)
    {stopIdx : Nat} (stop : stopIdx = min 128 (e.otCount - min (128 * i) e.otCount)) :
    ∃ middle s', (List.range' 0 stopIdx).foldlM (messageRow e.SHA1 e.delta (rowsAt e i)) s =
        .ok middle ∧
      (List.range' stopIdx (128 - stopIdx)).foldlM (extraRow (rowsAt e i))
        { middle with atomicDoneIdx := middle.dIdx } = .ok s' ∧ At e k (128 * (i + 1)) s' ∧
      s'.atomicDoneIdx = min (128 * (i + 1)) e.otCount := by
  have message : ∀ row, 0 ≤ row → row < 0 + stopIdx → ∀ b, At e k (128 * i + row) b →
      ∃ c, messageRow e.SHA1 e.delta (rowsAt e i) b row = .ok c ∧
        At e k (128 * i + (row + 1)) c := by
    intro row _ below b reached
    have stored : 128 * i + row < numOTExt e.otCount := by omega
    have isMessage : 128 * i + row < e.otCount := by omega
    exact messageRow_at reached stored isMessage (readRow agree i (by omega))
  have extra : ∀ row, stopIdx ≤ row → row < stopIdx + (128 - stopIdx) → ∀ b,
      At e k (128 * i + row) b ∧ b.atomicDoneIdx = min (128 * (i + 1)) e.otCount →
      ∃ c, extraRow (rowsAt e i) b row = .ok c ∧ At e k (128 * i + (row + 1)) c ∧
        c.atomicDoneIdx = min (128 * (i + 1)) e.otCount := by
    intro row after below b reached
    have stored : 128 * i + row < numOTExt e.otCount := by omega
    have isExtra : e.otCount ≤ 128 * i + row := by omega
    obtain ⟨c, run, next, done⟩ := extraRow_at reached.1 stored isExtra (readRow agree i (by omega))
    exact ⟨c, run, next, done.trans reached.2⟩
  obtain ⟨middle, first, between⟩ :=
    foldlM_range'_total (fun row => At e k (128 * i + row)) message here
  rw [Nat.zero_add] at between
  have published : middle.dIdx = min (128 * (i + 1)) e.otCount := by
    rw [between.index]
    omega
  obtain ⟨s', second, last, done⟩ := foldlM_range'_total
    (fun row b => At e k (128 * i + row) b ∧ b.atomicDoneIdx = min (128 * (i + 1)) e.otCount)
    extra (b := { middle with atomicDoneIdx := middle.dIdx }) ⟨{ between with }, published⟩
  rw [show 128 * i + (stopIdx + (128 - stopIdx)) = 128 * (i + 1) by omega] at last
  exact ⟨middle, s', first, second, last, done⟩

theorem block_at (small : e.otCount < 2 ^ 59) (here : At e k (128 * k) s)
    (done : s.atomicDoneIdx = min (128 * k) e.otCount) (room : 128 * (k + 1) ≤ numOTExt e.otCount)
    {u : List (List Block)}
    (received : u.getD k [] = e.sentAt k) : ∃ s',
      block e.SHA1 e.baseChoiceBits e.delta e.otCount u s k = .ok s' ∧
        At e (k + 1) (128 * (k + 1)) s' ∧
        s'.atomicDoneIdx = min (128 * (k + 1)) e.otCount := by
  have advanced : s.gens.map (fun gen => gen.getBlock.2) = e.senderGens (k + 1) := by
    rw [here.gens]
    unfold ExtendInputs.senderGens
    rw [List.map_map]
    simp only [PRNG.skip_succ]
    rfl
  have drawn : At e (k + 1) (128 * k) { s with gens := s.gens.map fun gen => gen.getBlock.2 } :=
    { here with gens := advanced }
  obtain ⟨middle, s', first, second, last, published⟩ := rows_at agree drawn room rfl
  have length : (e.sentAt k).length = 128 := by
    unfold ExtendInputs.sentAt
    rw [List.length_map, agree.inputs]
  refine ⟨s', ?_, last, published⟩
  unfold block BASE_OT_COUNT
  rw [done, stopIdx_eq small (Nat.min_le_right _ _)]
  simp only [received, length, here.gens, ne_eq, not_true_eq_false, if_false]
  simp only [here.gens, done] at first
  change (List.foldlM (messageRow e.SHA1 e.delta (rowsAt e k)) _ _ >>= _) = _
  rw [first]
  exact second

theorem blocks_at (small : e.otCount < 2 ^ 59) (start : At e 0 0 s) (done : s.atomicDoneIdx = 0) :
    ∃ s',
    (List.range' 0 (numOTExt e.otCount / 128)).foldlM
      (block e.SHA1 e.baseChoiceBits e.delta e.otCount
        ((List.range (numOTExt e.otCount / 128)).map e.sentAt)) s = .ok s' ∧
      At e (numOTExt e.otCount / 128) (numOTExt e.otCount) s' := by
  have size : 128 * (numOTExt e.otCount / 128) = numOTExt e.otCount := by
    unfold numOTExt
    omega
  have each : ∀ k, 0 ≤ k → k < 0 + numOTExt e.otCount / 128 → ∀ b,
      At e k (128 * k) b ∧ b.atomicDoneIdx = min (128 * k) e.otCount →
      ∃ c, block e.SHA1 e.baseChoiceBits e.delta e.otCount
          ((List.range (numOTExt e.otCount / 128)).map e.sentAt) b k = .ok c ∧
        At e (k + 1) (128 * (k + 1)) c ∧ c.atomicDoneIdx = min (128 * (k + 1)) e.otCount := by
    intro k _ below b reached
    rw [Nat.zero_add] at below
    exact block_at agree small reached.1 reached.2 (by omega) (Lists.map_range_getD _ _ below)
  obtain ⟨s', run, last, _⟩ := foldlM_range'_total
    (fun k b => At e k (128 * k) b ∧ b.atomicDoneIdx = min (128 * k) e.otCount) each
    (b := s) ⟨start, by rw [done, Nat.mul_zero, Nat.zero_min]⟩
  rw [Nat.zero_add, size] at last
  exact ⟨s', run, last⟩

end

end OTExtSender

end BatchDualEx
