import BatchDualEx.OT.OTExtSteps

/- The loops of `OTExtSender::Extend` step by step. The index is published between the two loops
   over the rows of a block, whatever the receiver has sent. -/
namespace BatchDualEx

open Buffer Publish Result

namespace OTExtSender

structure Running where
  loop : Loop
  blkIdx : Nat
  blkRowIdx : Nat
  stopIdx : Nat
  q : List Block
  phase : Phase

section Step

variable (SHA1 : Block → BitVec 160) (baseChoiceBits : BitVector) (delta : Block) (otCount : Nat)
  (u : List (List Block))

def step (s : Running) : Except Fault Running :=
  match s.phase with
  | .blocks =>
    let buff := u.getD s.blkIdx []
    if buff.length ≠ BASE_OT_COUNT then .error .undefined
    else .ok { s with
      loop := { s.loop with gens := s.loop.gens.map fun gen => gen.getBlock.2 }
      blkRowIdx := 0
      stopIdx := BatchDualEx.stopIdx otCount s.loop.atomicDoneIdx
      q := eklundhTranspose128 (columns baseChoiceBits s.loop.gens buff)
      phase := .messages }
  | .messages =>
    if s.blkRowIdx < s.stopIdx then do
      let loop ← messageRow SHA1 delta s.q s.loop s.blkRowIdx
      return { s with loop := loop, blkRowIdx := s.blkRowIdx + 1 }
    else .ok { s with
      loop := { s.loop with atomicDoneIdx := s.loop.dIdx }
      phase := .extras }
  | .extras =>
    if s.blkRowIdx < BASE_OT_COUNT then do
      let loop ← extraRow s.q s.loop s.blkRowIdx
      return { s with loop := loop, blkRowIdx := s.blkRowIdx + 1 }
    else .ok { s with blkIdx := s.blkIdx + 1, phase := .blocks }

def messages (numBlocks : Nat) : Writer Running Fault (Block × Block) where
  finished s := s.phase = .blocks ∧ numBlocks ≤ s.blkIdx
  step := step SHA1 baseChoiceBits delta otCount u
  done s := s.loop.atomicDoneIdx
  slot s i := (s.loop.mMessages.1.getD i zeroBlock, s.loop.mMessages.2.getD i zeroBlock)
  writes s i := s.phase = .messages ∧ s.blkRowIdx < s.stopIdx ∧ i = s.loop.dIdx

def rows (numBlocks : Nat) : Writer Running Fault Block where
  finished s := s.phase = .blocks ∧ numBlocks ≤ s.blkIdx
  step := step SHA1 baseChoiceBits delta otCount u
  done s := s.loop.correlatedMessagesIter
  slot s i := s.loop.correlatedMessages.getD i zeroBlock
  writes s i := (s.phase = .messages ∧ s.blkRowIdx < s.stopIdx ∨
    s.phase = .extras ∧ s.blkRowIdx < BASE_OT_COUNT) ∧ i = s.loop.correlatedMessagesIter

end Step

def started (setSeed : Block → PRNG) (s : OTExtSender) (baseMessages : List Block)
    (baseChoiceBits : BitVector) (otCount : Nat) : Except Fault (Block × Running) :=
  if 2 ^ 59 ≤ otCount then .error (.thrown "vector::_M_default_append")
  else do
    let delta ← baseChoiceBits.ToBlock
    if 2 ^ 59 ≤ numOTExt otCount then
      throw (.thrown "cannot create std::vector larger than max_size()")
    return (delta, {
      loop := {
        gens := baseMessages.map setSeed
        mMessages := (s.mMessages.1.takeD otCount zeroBlock, s.mMessages.2.takeD otCount zeroBlock)
        correlatedMessages := List.replicate (numOTExt otCount) zeroBlock
        correlatedMessagesIter := 0
        dIdx := 0
        atomicDoneIdx := 0 }
      blkIdx := 0
      blkRowIdx := 0
      stopIdx := 0
      q := []
      phase := .blocks })

/-- What one side of the loops runs on: the generators at their start and the buffers `u`. -/
structure Inputs where
  SHA1 : Block → BitVec 160
  gens : List PRNG
  baseChoiceBits : BitVector
  delta : Block
  otCount : Nat
  u : List (List Block)

namespace Inputs

variable (e : Inputs)

def gensAt (k : Nat) : List PRNG := e.gens.map (PRNG.skip · k)

def columnsAt (k : Nat) : List Block := columns e.baseChoiceBits (e.gensAt k) (e.u.getD k [])

def rowAt (i : Nat) : Block :=
  (eklundhTranspose128 (e.columnsAt (i / 128))).getD (i % 128) zeroBlock

structure Sized : Prop where
  gens : e.gens.length = 128
  received : ∀ k < numOTExt e.otCount / 128, (e.u.getD k []).length = 128

end Inputs

section Frame

variable {SHA1 : Block → BitVec 160} {baseChoiceBits : BitVector} {delta : Block} {otCount : Nat}
  {u : List (List Block)} {q : List Block} {r : Nat} {s s' : Loop}

theorem messageRow_ok (run : messageRow SHA1 delta q s r = .ok s') : ∃ row message0 message1,
    s'.correlatedMessages = s.correlatedMessages.set s.correlatedMessagesIter row ∧
      s'.mMessages = (s.mMessages.1.set s.dIdx message0, s.mMessages.2.set s.dIdx message1) ∧
      s'.correlatedMessagesIter = s.correlatedMessagesIter + 1 := by
  obtain ⟨row, -, run⟩ := bind_ok run
  obtain ⟨correlatedMessages, storing, run⟩ := bind_ok run
  obtain ⟨msg0, -, run⟩ := bind_ok run
  obtain ⟨mMessages0, hashing0, run⟩ := bind_ok run
  obtain ⟨mMessages1, hashing1, run⟩ := bind_ok run
  cases run
  exact ⟨row, _, _, writeAt_eq storing, Prod.ext (writeAt_eq hashing0) (writeAt_eq hashing1), rfl⟩

theorem extraRow_ok (run : extraRow q s r = .ok s') : ∃ row,
    s'.correlatedMessages = s.correlatedMessages.set s.correlatedMessagesIter row ∧
      s'.mMessages = s.mMessages ∧ s'.correlatedMessagesIter = s.correlatedMessagesIter + 1 := by
  obtain ⟨row, -, run⟩ := bind_ok run
  obtain ⟨correlatedMessages, storing, run⟩ := bind_ok run
  cases run
  exact ⟨row, writeAt_eq storing, rfl, rfl⟩

theorem step_cases {s t : Running} (run : step SHA1 baseChoiceBits delta otCount u s = .ok t) :
    (s.phase = .blocks ∧ t = { s with
      loop := { s.loop with gens := s.loop.gens.map fun gen => gen.getBlock.2 }
      blkRowIdx := 0
      stopIdx := BatchDualEx.stopIdx otCount s.loop.atomicDoneIdx
      q := eklundhTranspose128 (columns baseChoiceBits s.loop.gens (u.getD s.blkIdx []))
      phase := .messages }) ∨
    (s.phase = .messages ∧ s.blkRowIdx < s.stopIdx ∧ ∃ loop,
      messageRow SHA1 delta s.q s.loop s.blkRowIdx = .ok loop ∧
      t = { s with loop := loop, blkRowIdx := s.blkRowIdx + 1 }) ∨
    (s.phase = .messages ∧ s.stopIdx ≤ s.blkRowIdx ∧ t = { s with
      loop := { s.loop with atomicDoneIdx := s.loop.dIdx }
      phase := .extras }) ∨
    (s.phase = .extras ∧ s.blkRowIdx < BASE_OT_COUNT ∧ ∃ loop,
      extraRow s.q s.loop s.blkRowIdx = .ok loop ∧
      t = { s with loop := loop, blkRowIdx := s.blkRowIdx + 1 }) ∨
    (s.phase = .extras ∧ BASE_OT_COUNT ≤ s.blkRowIdx ∧
      t = { s with blkIdx := s.blkIdx + 1, phase := .blocks }) := by
  unfold step at run
  cases at_phase : s.phase with
  | blocks =>
    rw [at_phase] at run
    by_cases short : (u.getD s.blkIdx []).length ≠ BASE_OT_COUNT
    · simp only [if_pos short] at run
      cases run
    · simp only [if_neg short] at run
      exact .inl ⟨rfl, (Except.ok.inj run).symm⟩
  | messages =>
    rw [at_phase] at run
    by_cases more : s.blkRowIdx < s.stopIdx
    · simp only [if_pos more] at run
      obtain ⟨loop, row, run⟩ := bind_ok run
      exact .inr (.inl ⟨rfl, more, loop, row, (Except.ok.inj run).symm⟩)
    · simp only [if_neg more] at run
      exact .inr (.inr (.inl ⟨rfl, Nat.not_lt.mp more, (Except.ok.inj run).symm⟩))
  | extras =>
    rw [at_phase] at run
    by_cases more : s.blkRowIdx < BASE_OT_COUNT
    · simp only [if_pos more] at run
      obtain ⟨loop, row, run⟩ := bind_ok run
      exact .inr (.inr (.inr (.inl ⟨rfl, more, loop, row, (Except.ok.inj run).symm⟩)))
    · simp only [if_neg more] at run
      exact .inr (.inr (.inr (.inr ⟨rfl, Nat.not_lt.mp more, (Except.ok.inj run).symm⟩)))

end Frame

section Invariant

variable (e : Inputs)

structure InRows (s : Running) : Prop where
  inside : s.blkIdx < numOTExt e.otCount / 128
  gens : s.loop.gens = e.gensAt (s.blkIdx + 1)
  stored : Stored e.SHA1 e.delta e.rowAt e.otCount (128 * s.blkIdx + s.blkRowIdx) s.loop
  stop : s.stopIdx = min 128 (e.otCount - min (128 * s.blkIdx) e.otCount)
  q : s.q = eklundhTranspose128 (e.columnsAt s.blkIdx)
  row : s.blkRowIdx ≤ 128

/-- The published index is that of the last block whose messages are made. -/
structure Inv (s : Running) : Prop where
  inside : s.blkIdx ≤ numOTExt e.otCount / 128
  done : s.loop.atomicDoneIdx =
    min (128 * (s.blkIdx + if s.phase = .extras then 1 else 0)) e.otCount
  blocks : s.phase = .blocks → s.loop.gens = e.gensAt s.blkIdx ∧
    Stored e.SHA1 e.delta e.rowAt e.otCount (128 * s.blkIdx) s.loop
  rows : s.phase ≠ .blocks → InRows e s
  messages : s.phase = .messages → s.blkRowIdx ≤ s.stopIdx
  extras : s.phase = .extras → s.stopIdx ≤ s.blkRowIdx

variable {e} {s t : Running}

theorem InRows.read (gens : e.gens.length = 128) (here : InRows e s) (below : s.blkRowIdx < 128) :
    Buffer.readAt Fault.undefined s.q s.blkRowIdx =
      .ok (e.rowAt (128 * s.blkIdx + s.blkRowIdx)) := by
  have columns : (e.columnsAt s.blkIdx).length = 128 := by
    unfold Inputs.columnsAt Inputs.gensAt OTExtSender.columns
    rw [List.length_mapIdx, List.length_map, gens]
  have length := eklundhTranspose128_length columns
  rw [here.q, readAt_ok (by omega) zeroBlock]
  unfold Inputs.rowAt
  rw [show (128 * s.blkIdx + s.blkRowIdx) / 128 = s.blkIdx by omega,
    show (128 * s.blkIdx + s.blkRowIdx) % 128 = s.blkRowIdx by omega]

theorem step_blocks (sized : e.Sized) (small : e.otCount < 2 ^ 59) (inv : Inv e s)
    (head : s.phase = .blocks) (more : s.blkIdx < numOTExt e.otCount / 128) :
    ∃ t, step e.SHA1 e.baseChoiceBits e.delta e.otCount e.u s = .ok t ∧ Inv e t := by
  obtain ⟨gens, stored⟩ := inv.blocks head
  have whole : ¬ (e.u.getD s.blkIdx []).length ≠ BASE_OT_COUNT :=
    not_not.mpr (sized.received s.blkIdx more)
  have advanced : s.loop.gens.map (fun gen => gen.getBlock.2) = e.gensAt (s.blkIdx + 1) := by
    rw [gens]
    unfold Inputs.gensAt
    rw [List.map_map]
    simp only [PRNG.skip_succ]
    rfl
  have done : s.loop.atomicDoneIdx = min (128 * s.blkIdx) e.otCount := by
    rw [inv.done, head, if_neg (by decide), Nat.add_zero]
  have kept : s.loop.atomicDoneIdx =
      min (128 * (s.blkIdx + if Phase.messages = .extras then 1 else 0)) e.otCount := by
    rw [done, if_neg (by decide), Nat.add_zero]
  have stop : BatchDualEx.stopIdx e.otCount s.loop.atomicDoneIdx =
      min 128 (e.otCount - min (128 * s.blkIdx) e.otCount) := by
    rw [done, stopIdx_eq small (Nat.min_le_right _ _)]
  have run : step e.SHA1 e.baseChoiceBits e.delta e.otCount e.u s = .ok { s with
      loop := { s.loop with gens := s.loop.gens.map fun gen => gen.getBlock.2 }
      blkRowIdx := 0
      stopIdx := BatchDualEx.stopIdx e.otCount s.loop.atomicDoneIdx
      q := eklundhTranspose128 (columns e.baseChoiceBits s.loop.gens (e.u.getD s.blkIdx []))
      phase := .messages } := by
    unfold step
    rw [head]
    exact if_neg whole
  refine ⟨_, run, inv.inside, kept, fun impossible => Phase.noConfusion impossible, fun _ => ?_,
    fun _ => Nat.zero_le _, fun impossible => Phase.noConfusion impossible⟩
  have columns : columns e.baseChoiceBits s.loop.gens (e.u.getD s.blkIdx []) =
      e.columnsAt s.blkIdx := by
    rw [gens]
    rfl
  exact ⟨more, advanced, { stored with }, stop, by rw [columns], Nat.zero_le _⟩

theorem step_messages (sized : e.Sized) (inv : Inv e s) (phase : s.phase = .messages) :
    ∃ t, step e.SHA1 e.baseChoiceBits e.delta e.otCount e.u s = .ok t ∧ Inv e t := by
  have here := inv.rows (by rw [phase]; decide)
  have bound := inv.messages phase
  have done := inv.done
  have inside := here.inside
  have stop := here.stop
  have size := numOTExt_dvd e.otCount
  rw [phase] at done
  unfold step
  rw [phase]
  by_cases more : s.blkRowIdx < s.stopIdx
  · obtain ⟨loop, run, next, gens, kept⟩ := messageRow_stored here.stored (by omega) (by omega)
      (here.read sized.gens (by omega))
    simp only [if_pos more, run]
    refine ⟨_, rfl, inv.inside, kept.trans done, fun impossible => Phase.noConfusion impossible,
      fun _ => ?_, fun _ => more, fun impossible => Phase.noConfusion impossible⟩
    exact ⟨inside, gens.trans here.gens, next, stop, here.q, by
      change s.blkRowIdx + 1 ≤ 128; omega⟩
  · have index := here.stored.index
    simp only [if_neg more]
    refine ⟨_, rfl, inv.inside, ?_, fun impossible => Phase.noConfusion impossible, fun _ => ?_,
      fun impossible => Phase.noConfusion impossible, fun _ => Nat.not_lt.mp more⟩
    · change s.loop.dIdx = min (128 * (s.blkIdx + 1)) e.otCount
      omega
    · exact { here with stored := { here.stored with } }

theorem step_extras (sized : e.Sized) (inv : Inv e s) (phase : s.phase = .extras) :
    ∃ t, step e.SHA1 e.baseChoiceBits e.delta e.otCount e.u s = .ok t ∧ Inv e t := by
  have here := inv.rows (by rw [phase]; decide)
  have bound := inv.extras phase
  have done := inv.done
  have inside := here.inside
  have stop := here.stop
  have row := here.row
  have size := numOTExt_dvd e.otCount
  rw [phase] at done
  unfold step
  rw [phase]
  by_cases more : s.blkRowIdx < BASE_OT_COUNT
  · have more' : s.blkRowIdx < 128 := more
    obtain ⟨loop, run, next, gens, kept⟩ := extraRow_stored here.stored (by omega) (by omega)
      (here.read sized.gens more')
    simp only [if_pos more, run]
    refine ⟨_, rfl, inv.inside, kept.trans done, fun impossible => Phase.noConfusion impossible,
      fun _ => ?_, fun impossible => Phase.noConfusion impossible,
      fun _ => Nat.le_succ_of_le bound⟩
    exact ⟨inside, gens.trans here.gens, next, stop, here.q, more'⟩
  · have last : s.blkRowIdx = 128 := Nat.le_antisymm row (Nat.not_lt.mp more)
    have stored := here.stored
    rw [last, show 128 * s.blkIdx + 128 = 128 * (s.blkIdx + 1) by omega] at stored
    simp only [if_neg more]
    exact ⟨_, rfl, inside, done, fun _ => ⟨here.gens, stored⟩,
      fun impossible => absurd rfl impossible, fun impossible => Phase.noConfusion impossible,
      fun impossible => Phase.noConfusion impossible⟩

theorem step_inv (sized : e.Sized) (small : e.otCount < 2 ^ 59) (inv : Inv e s)
    (more : ¬ (s.phase = .blocks ∧ numOTExt e.otCount / 128 ≤ s.blkIdx)) :
    ∃ t, step e.SHA1 e.baseChoiceBits e.delta e.otCount e.u s = .ok t ∧ Inv e t := by
  cases phase : s.phase with
  | blocks => exact step_blocks sized small inv phase (by simpa [phase] using more)
  | messages => exact step_messages sized inv phase
  | extras => exact step_extras sized inv phase

theorem Inv.stored (inv : Inv e s) : ∃ i, Stored e.SHA1 e.delta e.rowAt e.otCount i s.loop ∧
    s.loop.atomicDoneIdx ≤ min i e.otCount ∧ i ≤ numOTExt e.otCount ∧
    (s.phase = .messages → s.loop.atomicDoneIdx ≤ 128 * s.blkIdx) := by
  have size := numOTExt_dvd e.otCount
  have inside := inv.inside
  have done := inv.done
  cases phase : s.phase with
  | blocks =>
    rw [phase, if_neg (by decide), Nat.add_zero] at done
    exact ⟨_, (inv.blocks phase).2, by omega, by omega, fun impossible =>
      Phase.noConfusion impossible⟩
  | messages =>
    have here := inv.rows (by rw [phase]; decide)
    have bound := inv.messages phase
    have stop := here.stop
    have inside' := here.inside
    have row := here.row
    rw [phase, if_neg (by decide), Nat.add_zero] at done
    exact ⟨_, here.stored, by omega, by omega, fun _ => by omega⟩
  | extras =>
    have here := inv.rows (by rw [phase]; decide)
    have bound := inv.extras phase
    have stop := here.stop
    have inside' := here.inside
    have row := here.row
    rw [phase, if_pos rfl] at done
    exact ⟨_, here.stored, by omega, by omega, fun impossible => Phase.noConfusion impossible⟩

theorem step_later (inv : Inv e s) (inv' : Inv e t)
    (run : step e.SHA1 e.baseChoiceBits e.delta e.otCount e.u s = .ok t) :
    s.loop.atomicDoneIdx ≤ t.loop.atomicDoneIdx ∧
      s.loop.correlatedMessagesIter ≤ t.loop.correlatedMessagesIter := by
  have done := inv.done
  have done' := inv'.done
  rcases step_cases run with ⟨phase, rfl⟩ | ⟨phase, -, loop, row, rfl⟩ | ⟨phase, -, rfl⟩ |
    ⟨phase, -, loop, row, rfl⟩ | ⟨phase, -, rfl⟩
  · exact ⟨le_rfl, le_rfl⟩
  · obtain ⟨block, message0, message1, -, -, next⟩ := messageRow_ok row
    refine ⟨Nat.le_of_eq (done.trans done'.symm), ?_⟩
    change s.loop.correlatedMessagesIter ≤ loop.correlatedMessagesIter
    omega
  · refine ⟨?_, le_rfl⟩
    rw [phase, if_neg (by decide)] at done
    rw [done, done', if_pos rfl]
    change min (128 * (s.blkIdx + 0)) e.otCount ≤ min (128 * (s.blkIdx + 1)) e.otCount
    omega
  · obtain ⟨block, -, -, next⟩ := extraRow_ok row
    refine ⟨Nat.le_of_eq (done.trans done'.symm), ?_⟩
    change s.loop.correlatedMessagesIter ≤ loop.correlatedMessagesIter
    omega
  · exact ⟨le_rfl, le_rfl⟩

theorem step_lowers (inv : Inv e s)
    (run : step e.SHA1 e.baseChoiceBits e.delta e.otCount e.u s = .ok t)
    (more : ¬ (s.phase = .blocks ∧ numOTExt e.otCount / 128 ≤ s.blkIdx)) :
    stepsLeft (numOTExt e.otCount / 128) t.blkIdx t.blkRowIdx t.phase <
      stepsLeft (numOTExt e.otCount / 128) s.blkIdx s.blkRowIdx s.phase := by
  have inRows : s.phase ≠ .blocks → s.blkIdx < numOTExt e.otCount / 128 ∧ s.blkRowIdx ≤ 128 :=
    fun phase => ⟨(inv.rows phase).inside, (inv.rows phase).row⟩
  rcases step_cases run with ⟨phase, rfl⟩ | ⟨phase, -, loop, -, rfl⟩ | ⟨phase, -, rfl⟩ |
    ⟨phase, below, loop, -, rfl⟩ | ⟨phase, last, rfl⟩
  · have inside : s.blkIdx < numOTExt e.otCount / 128 := by simpa [phase] using more
    simp only [phase, stepsLeft]
    omega
  all_goals
    have bounds := inRows (by rw [phase]; decide)
    simp only [phase, stepsLeft]
    omega

theorem messages_frame (numBlocks i : Nat)
    (run : step e.SHA1 e.baseChoiceBits e.delta e.otCount e.u s = .ok t)
    (other : ¬ (messages e.SHA1 e.baseChoiceBits e.delta e.otCount e.u numBlocks).writes s i) :
    (t.loop.mMessages.1.getD i zeroBlock, t.loop.mMessages.2.getD i zeroBlock) =
      (s.loop.mMessages.1.getD i zeroBlock, s.loop.mMessages.2.getD i zeroBlock) := by
  rcases step_cases run with ⟨-, rfl⟩ | ⟨phase, below, loop, row, rfl⟩ | ⟨-, -, rfl⟩ |
    ⟨-, -, loop, row, rfl⟩ | ⟨-, -, rfl⟩
  · rfl
  · obtain ⟨block, message0, message1, -, written, -⟩ := messageRow_ok row
    have apart : s.loop.dIdx ≠ i := fun same => other ⟨phase, below, same.symm⟩
    change (loop.mMessages.1.getD i zeroBlock, loop.mMessages.2.getD i zeroBlock) = _
    rw [written, Lists.getD_set_ne _ apart, Lists.getD_set_ne _ apart]
  · rfl
  · obtain ⟨block, -, kept, -⟩ := extraRow_ok row
    change (loop.mMessages.1.getD i zeroBlock, loop.mMessages.2.getD i zeroBlock) = _
    rw [kept]
  · rfl

theorem rows_frame (numBlocks i : Nat)
    (run : step e.SHA1 e.baseChoiceBits e.delta e.otCount e.u s = .ok t)
    (other : ¬ (rows e.SHA1 e.baseChoiceBits e.delta e.otCount e.u numBlocks).writes s i) :
    t.loop.correlatedMessages.getD i zeroBlock = s.loop.correlatedMessages.getD i zeroBlock := by
  rcases step_cases run with ⟨-, rfl⟩ | ⟨phase, below, loop, row, rfl⟩ | ⟨-, -, rfl⟩ |
    ⟨phase, below, loop, row, rfl⟩ | ⟨-, -, rfl⟩
  · rfl
  · obtain ⟨block, message0, message1, written, -, -⟩ := messageRow_ok row
    have apart : s.loop.correlatedMessagesIter ≠ i :=
      fun same => other ⟨.inl ⟨phase, below⟩, same.symm⟩
    change loop.correlatedMessages.getD i zeroBlock = _
    rw [written, Lists.getD_set_ne _ apart]
  · rfl
  · obtain ⟨block, written, -, -⟩ := extraRow_ok row
    have apart : s.loop.correlatedMessagesIter ≠ i :=
      fun same => other ⟨.inr ⟨phase, below⟩, same.symm⟩
    change loop.correlatedMessages.getD i zeroBlock = _
    rw [written, Lists.getD_set_ne _ apart]
  · rfl

variable (sized : e.Sized) (small : e.otCount < 2 ^ 59)
include sized small

theorem messages_keeps : (messages e.SHA1 e.baseChoiceBits e.delta e.otCount e.u
    (numOTExt e.otCount / 128)).Keeps (Inv e) := by
  refine ⟨fun s inv more => ?_, fun s t i run => messages_frame _ i run, fun s i inv writes => ?_⟩
  · obtain ⟨t, run, inv'⟩ := step_inv sized small inv more
    exact ⟨t, run, inv', (step_later inv inv' run).1⟩
  · obtain ⟨phase, below, at_index⟩ := writes
    have here := inv.rows (by rw [phase]; decide)
    have index := here.stored.index
    have stop := here.stop
    obtain ⟨c, -, -, -, before⟩ := inv.stored
    have bound := before phase
    change s.loop.atomicDoneIdx ≤ i
    omega

theorem rows_keeps : (rows e.SHA1 e.baseChoiceBits e.delta e.otCount e.u
    (numOTExt e.otCount / 128)).Keeps (Inv e) := by
  refine ⟨fun s inv more => ?_, fun s t i run => rows_frame _ i run, fun s i _ writes => ?_⟩
  · obtain ⟨t, run, inv'⟩ := step_inv sized small inv more
    exact ⟨t, run, inv', (step_later inv inv' run).2⟩
  · exact Nat.le_of_eq writes.2.symm

/-- Both messages of the OTs below the published index are final, and in the end all are
published. -/
theorem messages_publishes (inv : Inv e s) :
    (messages e.SHA1 e.baseChoiceBits e.delta e.otCount e.u (numOTExt e.otCount / 128)).Publishes s
      e.otCount fun i =>
        (hashBlock e.SHA1 (e.rowAt i), hashBlock e.SHA1 (e.rowAt i ^^^ e.delta)) := by
  have size := numOTExt_dvd e.otCount
  have more := otCount_le e.otCount
  refine (messages_keeps sized small).publishes
    (fun s t inv next => step_lowers inv next.2 next.1) (fun s inv => ?_)
    (fun s inv ended => ?_) inv
  · obtain ⟨c, here, done, -, -⟩ := inv.stored
    have published : (messages e.SHA1 e.baseChoiceBits e.delta e.otCount e.u
      (numOTExt e.otCount / 128)).done s = s.loop.atomicDoneIdx := rfl
    exact ⟨by omega, fun i below =>
      Prod.ext (here.hashed0 i (by omega)) (here.hashed1 i (by omega))⟩
  · have last : s.blkIdx = numOTExt e.otCount / 128 := Nat.le_antisymm inv.inside ended.2
    refine inv.done.trans ?_
    rw [ended.1, if_neg (by decide), last]
    omega

theorem rows_publishes (inv : Inv e s) :
    (rows e.SHA1 e.baseChoiceBits e.delta e.otCount e.u (numOTExt e.otCount / 128)).Publishes s
      (numOTExt e.otCount) e.rowAt := by
  have size := numOTExt_dvd e.otCount
  refine (rows_keeps sized small).publishes
    (fun s t inv next => step_lowers inv next.2 next.1) (fun s inv => ?_)
    (fun s inv ended => ?_) inv
  · obtain ⟨c, here, -, inside, -⟩ := inv.stored
    have done : (rows e.SHA1 e.baseChoiceBits e.delta e.otCount e.u
      (numOTExt e.otCount / 128)).done s = c := here.iter
    rw [done]
    exact ⟨inside, here.stored⟩
  · have last : s.blkIdx = numOTExt e.otCount / 128 := Nat.le_antisymm inv.inside ended.2
    refine (inv.blocks ended.1).2.iter.trans ?_
    rw [last, size]

end Invariant

end OTExtSender

end BatchDualEx
