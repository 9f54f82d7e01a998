import BatchDualEx.Common.BitVectorOps
import BatchDualEx.Lib.Publish
import BatchDualEx.OT.OTExtLoops

/- The loops of both sides of `Extend` step by step, as the threads see them that use the first OTs
   while the others are made: what a published index promises at every step. -/
namespace BatchDualEx

open Buffer Publish Result

/-- At the head of the loop over the blocks, or in one of the two loops over the rows. -/
inductive Phase where
  | blocks
  | messages
  | extras
  deriving DecidableEq

def BitVector.blockViews (v : BitVector) : List Block :=
  (List.range (v.sizeBytes / 16)).map v.blockView

theorem BitVector.readAt_blockViews (v : BitVector) {k : Nat} (inside : k < v.sizeBytes / 16) :
    Buffer.readAt Fault.undefined v.blockViews k = .ok (v.blockView k) := by
  unfold blockViews
  rw [readAt_ok (by simpa using inside) zeroBlock, Lists.map_range_getD _ _ inside]

def stepsLeft (numBlocks blkIdx blkRowIdx : Nat) : Phase → Nat
  | .blocks => 400 * (numBlocks - blkIdx)
  | .messages => 400 * (numBlocks - blkIdx) - (1 + blkRowIdx)
  | .extras => 400 * (numBlocks - blkIdx) - (200 + blkRowIdx)

theorem numOTExt_dvd (otCount : Nat) : 128 * (numOTExt otCount / 128) = numOTExt otCount := by
  unfold numOTExt
  omega

theorem otCount_le (otCount : Nat) : otCount + 128 ≤ numOTExt otCount := by
  unfold numOTExt
  omega

theorem writeAt_eq {α : Type} {xs ys : List α} {i : Nat} {x : α}
    (run : Buffer.writeAt Fault.undefined xs i x = .ok ys) : ys = xs.set i x := by
  unfold Buffer.writeAt at run
  split at run
  case isTrue => exact (Except.ok.inj run).symm
  case isFalse => cases run

namespace OTExtReceiver

structure Running where
  loop : Loop
  blkIdx : Nat
  blkRowIdx : Nat
  stopIdx : Nat
  t0 : List Block
  phase : Phase

section Step

variable (SHA1 : Block → BitVec 160) (mChoiceBits : BitVector)

/-- The columns of the next block are drawn and sent, or one row is stored, or the index is
published. -/
def step (s : Running) : Except Fault Running :=
  match s.phase with
  | .blocks => do
    let choiceBlock ← Buffer.readAt .undefined mChoiceBits.blockViews s.blkIdx
    let t0 := s.loop.gens.map fun gens => gens.1.getBlock.1
    let u := s.loop.gens.map fun gens =>
      gens.2.getBlock.1 ^^^ (gens.1.getBlock.1 ^^^ choiceBlock)
    return { s with
      loop := { s.loop with
        gens := s.loop.gens.map fun gens => (gens.1.getBlock.2, gens.2.getBlock.2)
        sent := s.loop.sent ++ [u] }
      blkRowIdx := 0
      stopIdx := BatchDualEx.stopIdx s.loop.mMessages.length s.loop.atomicDoneIdx
      t0 := eklundhTranspose128 t0
      phase := .messages }
  | .messages =>
    if s.blkRowIdx < s.stopIdx then do
      let loop ← messageRow SHA1 s.t0 s.loop s.blkRowIdx
      return { s with loop := loop, blkRowIdx := s.blkRowIdx + 1 }
    else .ok { s with phase := .extras }
  | .extras =>
    if s.blkRowIdx < BASE_OT_COUNT then do
      let loop ← extraRow s.t0 s.loop s.blkRowIdx
      return { s with loop := loop, blkRowIdx := s.blkRowIdx + 1 }
    else .ok { s with
      loop := { s.loop with atomicDoneIdx := min s.loop.dIdx s.loop.mMessages.length }
      blkIdx := s.blkIdx + 1
      phase := .blocks }

def messages (numBlocks : Nat) : Writer Running Fault Block where
  finished s := s.phase = .blocks ∧ numBlocks ≤ s.blkIdx
  step := step SHA1 mChoiceBits
  done s := s.loop.atomicDoneIdx
  slot s i := s.loop.mMessages.getD i zeroBlock
  writes s i := s.phase = .messages ∧ s.blkRowIdx < s.stopIdx ∧ i = s.loop.dIdx

def rows (numBlocks : Nat) : Writer Running Fault Block where
  finished s := s.phase = .blocks ∧ numBlocks ≤ s.blkIdx
  step := step SHA1 mChoiceBits
  done s := s.loop.dIdx
  slot s i := s.loop.correlatedMessages.getD i zeroBlock
  writes s i := (s.phase = .messages ∧ s.blkRowIdx < s.stopIdx ∨
    s.phase = .extras ∧ s.blkRowIdx < BASE_OT_COUNT) ∧ i = s.loop.dIdx

end Step

/-- `Extend` up to the loops: a vector is not made of `2^59` blocks. -/
def started (setSeed : Block → PRNG) (r : OTExtReceiver) (baseOTs : List (Block × Block))
    (otCount : Nat) (prng : PRNG) : Except Fault (BitVector × Running) :=
  if 2 ^ 59 ≤ otCount then .error (.thrown "cannot create std::vector larger than max_size()")
  else do
    let mChoiceBits ← r.mChoiceBits.resize (numOTExt otCount)
    let mChoiceBits := (mChoiceBits.randomize prng).1
    if 2 ^ 59 ≤ mChoiceBits.size then
      throw (.thrown "cannot create std::vector larger than max_size()")
    return (mChoiceBits, {
      loop := {
        gens := baseOTs.map fun base => (setSeed base.1, setSeed base.2)
        mMessages := List.replicate otCount zeroBlock
        correlatedMessages := List.replicate mChoiceBits.size zeroBlock
        dIdx := 0
        atomicDoneIdx := 0
        sent := [] }
      blkIdx := 0
      blkRowIdx := 0
      stopIdx := 0
      t0 := []
      phase := .blocks })

section Frame

variable {SHA1 : Block → BitVec 160} {mChoiceBits : BitVector} {t0 : List Block} {r : Nat}
  {s s' : Loop}

theorem messageRow_ok (run : messageRow SHA1 t0 s r = .ok s') : ∃ row,
    s'.correlatedMessages = s.correlatedMessages.set s.dIdx row ∧
      s'.mMessages = s.mMessages.set s.dIdx (hashBlock SHA1 row) ∧
      s'.dIdx = s.dIdx + 1 ∧ s'.atomicDoneIdx = s.atomicDoneIdx := by
  obtain ⟨row, -, run⟩ := bind_ok run
  obtain ⟨correlatedMessages, storing, run⟩ := bind_ok run
  obtain ⟨mMessages, hashing, run⟩ := bind_ok run
  cases run
  exact ⟨row, writeAt_eq storing, writeAt_eq hashing, rfl, rfl⟩

theorem extraRow_ok (run : extraRow t0 s r = .ok s') : ∃ row,
    s'.correlatedMessages = s.correlatedMessages.set s.dIdx row ∧ s'.mMessages = s.mMessages ∧
      s'.dIdx = s.dIdx + 1 ∧ s'.atomicDoneIdx = s.atomicDoneIdx := by
  obtain ⟨row, -, run⟩ := bind_ok run
  obtain ⟨correlatedMessages, storing, run⟩ := bind_ok run
  cases run
  exact ⟨row, writeAt_eq storing, rfl, rfl, rfl⟩

theorem step_cases {s t : Running} (run : step SHA1 mChoiceBits s = .ok t) :
    (s.phase = .blocks ∧ ∃ choiceBlock gens sent,
      Buffer.readAt Fault.undefined mChoiceBits.blockViews s.blkIdx = .ok choiceBlock ∧
      t = { s with
        loop := { s.loop with gens := gens, sent := sent }
        blkRowIdx := 0
        stopIdx := BatchDualEx.stopIdx s.loop.mMessages.length s.loop.atomicDoneIdx
        t0 := eklundhTranspose128 (s.loop.gens.map fun gens => gens.1.getBlock.1)
        phase := .messages }) ∨
    (s.phase = .messages ∧ s.blkRowIdx < s.stopIdx ∧ ∃ loop,
      messageRow SHA1 s.t0 s.loop s.blkRowIdx = .ok loop ∧
      t = { s with loop := loop, blkRowIdx := s.blkRowIdx + 1 }) ∨
    (s.phase = .messages ∧ s.stopIdx ≤ s.blkRowIdx ∧ t = { s with phase := .extras }) ∨
    (s.phase = .extras ∧ s.blkRowIdx < BASE_OT_COUNT ∧ ∃ loop,
      extraRow s.t0 s.loop s.blkRowIdx = .ok loop ∧
      t = { s with loop := loop, blkRowIdx := s.blkRowIdx + 1 }) ∨
    (s.phase = .extras ∧ BASE_OT_COUNT ≤ s.blkRowIdx ∧ t = { s with
      loop := { s.loop with atomicDoneIdx := min s.loop.dIdx s.loop.mMessages.length }
      blkIdx := s.blkIdx + 1
      phase := .blocks }) := by
  unfold step at run
  cases at_phase : s.phase with
  | blocks =>
    rw [at_phase] at run
    obtain ⟨choiceBlock, read, run⟩ := bind_ok run
    exact .inl ⟨rfl, choiceBlock, _, _, read, (Except.ok.inj run).symm⟩
  | messages =>
    rw [at_phase] at run
    by_cases more : s.blkRowIdx < s.stopIdx
    · simp only [if_pos more] at run
      obtain ⟨loop, row, run⟩ := bind_ok run
      exact .inr (.inl ⟨rfl, more, loop, row, (Except.ok.inj run).symm⟩)
    · simp only [if_neg more] at run
      exact .inr (.inr (.inl ⟨rfl, Nat.not_lt.mp more, (Except.ok.inj run).symm⟩))
  | extras =>
    rw [at_phase] at run
    by_cases more : s.blkRowIdx < BASE_OT_COUNT
    · simp only [if_pos more] at run
      obtain ⟨loop, row, run⟩ := bind_ok run
      exact .inr (.inr (.inr (.inl ⟨rfl, more, loop, row, (Except.ok.inj run).symm⟩)))
    · simp only [if_neg more] at run
      exact .inr (.inr (.inr (.inr ⟨rfl, Nat.not_lt.mp more, (Except.ok.inj run).symm⟩)))

end Frame

section Invariant

variable (e : ExtendInputs)

structure InRows (s : Running) : Prop where
  inside : s.blkIdx < numOTExt e.otCount / 128
  stored : At e (s.blkIdx + 1) (128 * s.blkIdx + s.blkRowIdx) s.loop
  stop : s.stopIdx = min 128 (e.otCount - min (128 * s.blkIdx) e.otCount)
  t0 : s.t0 = eklundhTranspose128 (e.columnsAt s.blkIdx)
  row : s.blkRowIdx ≤ 128

/-- The published index is that of the last whole block, also while rows of the next are stored. -/
structure Inv (s : Running) : Prop where
  inside : s.blkIdx ≤ numOTExt e.otCount / 128
  done : s.loop.atomicDoneIdx = min (128 * s.blkIdx) e.otCount
  blocks : s.phase = .blocks → At e s.blkIdx (128 * s.blkIdx) s.loop
  rows : s.phase ≠ .blocks → InRows e s
  messages : s.phase = .messages → s.blkRowIdx ≤ s.stopIdx
  extras : s.phase = .extras → s.stopIdx ≤ s.blkRowIdx

variable {e} {s t : Running}

theorem InRows.read (inputs : e.baseOTs.length = 128) (here : InRows e s)
    (below : s.blkRowIdx < 128) : Buffer.readAt Fault.undefined s.t0 s.blkRowIdx =
      .ok (e.rowAt (128 * s.blkIdx + s.blkRowIdx)) := by
  rw [here.t0]
  exact readRow inputs s.blkIdx below

theorem view_inside (enough : e.choices.mNumBits = numOTExt e.otCount) {k : Nat}
    (inside : k < numOTExt e.otCount / 128) : k < e.choices.sizeBytes / 16 := by
  have size := numOTExt_dvd e.otCount
  unfold BitVector.sizeBytes
  rw [enough]
  omega

theorem step_blocks (enough : e.choices.mNumBits = numOTExt e.otCount) (small : e.otCount < 2 ^ 59)
    (inv : Inv e s) (head : s.phase = .blocks) (more : s.blkIdx < numOTExt e.otCount / 128) :
    ∃ t, step e.SHA1 e.choices s = .ok t ∧ Inv e t := by
  have here := inv.blocks head
  have advanced : s.loop.gens.map (fun gens => (gens.1.getBlock.2, gens.2.getBlock.2)) =
      e.baseOTs.map fun base => ((e.setSeed base.1).skip (s.blkIdx + 1),
        (e.setSeed base.2).skip (s.blkIdx + 1)) := by
    rw [here.gens, List.map_map]
    simp only [PRNG.skip_succ]
    rfl
  have columns : s.loop.gens.map (fun gens => gens.1.getBlock.1) = e.columnsAt s.blkIdx := by
    rw [here.gens, List.map_map]
    rfl
  have sent : s.loop.sent ++ [s.loop.gens.map fun gens =>
      gens.2.getBlock.1 ^^^ (gens.1.getBlock.1 ^^^ e.choices.blockView s.blkIdx)] =
        (List.range (s.blkIdx + 1)).map e.sentAt := by
    rw [here.sent, here.gens, List.range_succ, List.map_append, List.map_map]
    rfl
  have stop : BatchDualEx.stopIdx s.loop.mMessages.length s.loop.atomicDoneIdx =
      min 128 (e.otCount - min (128 * s.blkIdx) e.otCount) := by
    rw [here.sized, inv.done, stopIdx_eq small (Nat.min_le_right _ _)]
  have run : step e.SHA1 e.choices s = .ok { s with
      loop := { s.loop with
        gens := s.loop.gens.map fun gens => (gens.1.getBlock.2, gens.2.getBlock.2)
        sent := s.loop.sent ++ [s.loop.gens.map fun gens =>
          gens.2.getBlock.1 ^^^ (gens.1.getBlock.1 ^^^ e.choices.blockView s.blkIdx)] }
      blkRowIdx := 0
      stopIdx := BatchDualEx.stopIdx s.loop.mMessages.length s.loop.atomicDoneIdx
      t0 := eklundhTranspose128 (s.loop.gens.map fun gens => gens.1.getBlock.1)
      phase := .messages } := by
    unfold step
    rw [head]
    simp only [BitVector.readAt_blockViews e.choices (view_inside enough more), ok_bind]
    rfl
  refine ⟨_, run, ?_⟩
  refine ⟨inv.inside, inv.done, fun impossible => Phase.noConfusion impossible, fun _ => ?_,
    fun _ => Nat.zero_le _, fun impossible => Phase.noConfusion impossible⟩
  exact ⟨more, { here with gens := advanced, sent := sent }, stop, by rw [columns],
    Nat.zero_le _⟩

theorem step_messages (inputs : e.baseOTs.length = 128) (inv : Inv e s)
    (phase : s.phase = .messages) : ∃ t, step e.SHA1 e.choices s = .ok t ∧ Inv e t := by
  have here := inv.rows (by rw [phase]; decide)
  have bound := inv.messages phase
  have inside := here.inside
  have stop := here.stop
  have size := numOTExt_dvd e.otCount
  unfold step
  rw [phase]
  by_cases more : s.blkRowIdx < s.stopIdx
  · obtain ⟨loop, run, next⟩ := messageRow_at here.stored (by omega) (by omega)
      (here.read inputs (by omega))
    obtain ⟨-, -, -, -, kept⟩ := messageRow_ok run
    simp only [if_pos more, run]
    refine ⟨_, rfl, inv.inside, kept.trans inv.done, fun impossible => ?_, fun _ => ?_,
      fun _ => more, fun impossible => ?_⟩
    · exact Phase.noConfusion impossible
    · exact ⟨inside, next, stop, here.t0, by change s.blkRowIdx + 1 ≤ 128; omega⟩
    · exact Phase.noConfusion impossible
  · simp only [if_neg more]
    refine ⟨_, rfl, inv.inside, inv.done, fun impossible => Phase.noConfusion impossible,
      fun _ => { here with }, fun impossible => Phase.noConfusion impossible,
      fun _ => Nat.not_lt.mp more⟩

theorem step_extras (inputs : e.baseOTs.length = 128) (inv : Inv e s) (phase : s.phase = .extras) :
    ∃ t, step e.SHA1 e.choices s = .ok t ∧ Inv e t := by
  have here := inv.rows (by rw [phase]; decide)
  have bound := inv.extras phase
  have inside := here.inside
  have stop := here.stop
  have row := here.row
  have size := numOTExt_dvd e.otCount
  unfold step
  rw [phase]
  by_cases more : s.blkRowIdx < BASE_OT_COUNT
  · have more' : s.blkRowIdx < 128 := more
    obtain ⟨loop, run, next⟩ := extraRow_at here.stored (by omega) (by omega)
      (here.read inputs more')
    obtain ⟨-, -, -, -, kept⟩ := extraRow_ok run
    simp only [if_pos more, run]
    refine ⟨_, rfl, inv.inside, kept.trans inv.done, fun impossible => ?_, fun _ => ?_,
      fun impossible => ?_, fun _ => Nat.le_succ_of_le bound⟩
    · exact Phase.noConfusion impossible
    · exact ⟨inside, next, stop, here.t0, more'⟩
    · exact Phase.noConfusion impossible
  · have last : s.blkRowIdx = 128 := Nat.le_antisymm row (Nat.not_lt.mp more)
    have stored := here.stored
    rw [last, show 128 * s.blkIdx + 128 = 128 * (s.blkIdx + 1) by omega] at stored
    simp only [if_neg more]
    refine ⟨_, rfl, inside, ?_, fun _ => { stored with },
      fun impossible => absurd rfl impossible, fun impossible => Phase.noConfusion impossible,
      fun impossible => Phase.noConfusion impossible⟩
    change min s.loop.dIdx s.loop.mMessages.length = _
    rw [stored.index, stored.sized]

theorem step_inv (inputs : e.baseOTs.length = 128)
    (enough : e.choices.mNumBits = numOTExt e.otCount) (small : e.otCount < 2 ^ 59) (inv : Inv e s)
    (more : ¬ (s.phase = .blocks ∧ numOTExt e.otCount / 128 ≤ s.blkIdx)) :
    ∃ t, step e.SHA1 e.choices s = .ok t ∧ Inv e t := by
  cases phase : s.phase with
  | blocks => exact step_blocks enough small inv phase (by simpa [phase] using more)
  | messages => exact step_messages inputs inv phase
  | extras => exact step_extras inputs inv phase

theorem Inv.stored (inv : Inv e s) : ∃ k i, At e k i s.loop ∧ 128 * s.blkIdx ≤ i ∧
    i ≤ numOTExt e.otCount := by
  have size := numOTExt_dvd e.otCount
  have inside := inv.inside
  by_cases head : s.phase = .blocks
  · exact ⟨_, _, inv.blocks head, le_rfl, by omega⟩
  · have here := inv.rows head
    have inside' := here.inside
    have row := here.row
    exact ⟨_, _, here.stored, Nat.le_add_right _ _, by omega⟩

theorem step_later (run : step e.SHA1 e.choices s = .ok t) :
    s.blkIdx ≤ t.blkIdx ∧ s.loop.dIdx ≤ t.loop.dIdx := by
  rcases step_cases run with ⟨-, -, -, -, -, rfl⟩ | ⟨-, -, loop, row, rfl⟩ | ⟨-, -, rfl⟩ |
    ⟨-, -, loop, row, rfl⟩ | ⟨-, -, rfl⟩
  · exact ⟨le_rfl, le_rfl⟩
  · obtain ⟨-, -, -, next, -⟩ := messageRow_ok row
    exact ⟨le_rfl, by change s.loop.dIdx ≤ loop.dIdx; omega⟩
  · exact ⟨le_rfl, le_rfl⟩
  · obtain ⟨-, -, -, next, -⟩ := extraRow_ok row
    exact ⟨le_rfl, by change s.loop.dIdx ≤ loop.dIdx; omega⟩
  · exact ⟨Nat.le_succ _, le_rfl⟩

theorem step_lowers (inv : Inv e s) (run : step e.SHA1 e.choices s = .ok t)
    (more : ¬ (s.phase = .blocks ∧ numOTExt e.otCount / 128 ≤ s.blkIdx)) :
    stepsLeft (numOTExt e.otCount / 128) t.blkIdx t.blkRowIdx t.phase <
      stepsLeft (numOTExt e.otCount / 128) s.blkIdx s.blkRowIdx s.phase := by
  have inRows : s.phase ≠ .blocks → s.blkIdx < numOTExt e.otCount / 128 ∧ s.blkRowIdx ≤ 128 :=
    fun phase => ⟨(inv.rows phase).inside, (inv.rows phase).row⟩
  rcases step_cases run with ⟨phase, -, -, -, -, rfl⟩ | ⟨phase, -, loop, -, rfl⟩ |
    ⟨phase, -, rfl⟩ | ⟨phase, below, loop, -, rfl⟩ | ⟨phase, last, rfl⟩
  · have inside : s.blkIdx < numOTExt e.otCount / 128 := by simpa [phase] using more
    simp only [phase, stepsLeft]
    omega
  all_goals
    have bounds := inRows (by rw [phase]; decide)
    simp only [phase, stepsLeft]
    omega

theorem messages_frame (numBlocks i : Nat) (run : step e.SHA1 e.choices s = .ok t)
    (other : ¬ (messages e.SHA1 e.choices numBlocks).writes s i) :
    t.loop.mMessages.getD i zeroBlock = s.loop.mMessages.getD i zeroBlock := by
  rcases step_cases run with ⟨-, -, -, -, -, rfl⟩ | ⟨phase, below, loop, row, rfl⟩ | ⟨-, -, rfl⟩ |
    ⟨-, -, loop, row, rfl⟩ | ⟨-, -, rfl⟩
  · rfl
  · obtain ⟨block, -, written, -, -⟩ := messageRow_ok row
    have apart : s.loop.dIdx ≠ i := fun same => other ⟨phase, below, same.symm⟩
    change loop.mMessages.getD i zeroBlock = _
    rw [written, Lists.getD_set_ne _ apart]
  · rfl
  · obtain ⟨-, -, kept, -, -⟩ := extraRow_ok row
    change loop.mMessages.getD i zeroBlock = _
    rw [kept]
  · rfl

theorem rows_frame (numBlocks i : Nat) (run : step e.SHA1 e.choices s = .ok t)
    (other : ¬ (rows e.SHA1 e.choices numBlocks).writes s i) :
    t.loop.correlatedMessages.getD i zeroBlock = s.loop.correlatedMessages.getD i zeroBlock := by
  rcases step_cases run with ⟨-, -, -, -, -, rfl⟩ | ⟨phase, below, loop, row, rfl⟩ | ⟨-, -, rfl⟩ |
    ⟨phase, below, loop, row, rfl⟩ | ⟨-, -, rfl⟩
  · rfl
  · obtain ⟨block, written, -, -, -⟩ := messageRow_ok row
    have apart : s.loop.dIdx ≠ i := fun same => other ⟨.inl ⟨phase, below⟩, same.symm⟩
    change loop.correlatedMessages.getD i zeroBlock = _
    rw [written, Lists.getD_set_ne _ apart]
  · rfl
  · obtain ⟨block, written, -, -, -⟩ := extraRow_ok row
    have apart : s.loop.dIdx ≠ i := fun same => other ⟨.inr ⟨phase, below⟩, same.symm⟩
    change loop.correlatedMessages.getD i zeroBlock = _
    rw [written, Lists.getD_set_ne _ apart]
  · rfl

variable (inputs : e.baseOTs.length = 128) (enough : e.choices.mNumBits = numOTExt e.otCount)
  (small : e.otCount < 2 ^ 59)
include inputs enough small

theorem messages_keeps :
    (messages e.SHA1 e.choices (numOTExt e.otCount / 128)).Keeps (Inv e) := by
  refine ⟨fun s inv more => ?_, fun s t i run => messages_frame _ i run, fun s i inv writes => ?_⟩
  · obtain ⟨t, run, inv'⟩ := step_inv inputs enough small inv more
    have later := (step_later run).1
    refine ⟨t, run, inv', ?_⟩
    change s.loop.atomicDoneIdx ≤ t.loop.atomicDoneIdx
    rw [inv.done, inv'.done]
    omega
  · obtain ⟨k, c, here, after, -⟩ := inv.stored
    obtain ⟨-, -, at_index⟩ := writes
    change s.loop.atomicDoneIdx ≤ i
    rw [inv.done, at_index, here.index]
    omega

theorem rows_keeps : (rows e.SHA1 e.choices (numOTExt e.otCount / 128)).Keeps (Inv e) := by
  refine ⟨fun s inv more => ?_, fun s t i run => rows_frame _ i run, fun s i _ writes => ?_⟩
  · obtain ⟨t, run, inv'⟩ := step_inv inputs enough small inv more
    exact ⟨t, run, inv', (step_later run).2⟩
  · exact Nat.le_of_eq writes.2.symm

/-- Messages below the published index are final, and in the end all are published. -/
theorem messages_publishes (inv : Inv e s) :
    (messages e.SHA1 e.choices (numOTExt e.otCount / 128)).Publishes s e.otCount fun i =>
      hashBlock e.SHA1 (e.rowAt i) := by
  have size := numOTExt_dvd e.otCount
  have more := otCount_le e.otCount
  refine (messages_keeps inputs enough small).publishes
    (fun s t inv next => step_lowers inv next.2 next.1) (fun s inv => ?_)
    (fun s inv ended => ?_) inv
  · obtain ⟨k, c, here, after, -⟩ := inv.stored
    have done : (messages e.SHA1 e.choices (numOTExt e.otCount / 128)).done s =
      min (128 * s.blkIdx) e.otCount := inv.done
    exact ⟨by omega, fun i below => here.hashed i (by omega)⟩
  · have last : s.blkIdx = numOTExt e.otCount / 128 := Nat.le_antisymm inv.inside ended.2
    refine inv.done.trans ?_
    rw [last]
    omega

theorem rows_publishes (inv : Inv e s) :
    (rows e.SHA1 e.choices (numOTExt e.otCount / 128)).Publishes s (numOTExt e.otCount)
    e.rowAt := by
  have size := numOTExt_dvd e.otCount
  refine (rows_keeps inputs enough small).publishes
    (fun s t inv next => step_lowers inv next.2 next.1) (fun s inv => ?_)
    (fun s inv ended => ?_) inv
  · obtain ⟨k, c, here, -, inside⟩ := inv.stored
    have done : (rows e.SHA1 e.choices (numOTExt e.otCount / 128)).done s = c := here.index
    rw [done]
    exact ⟨inside, here.stored⟩
  · have last : s.blkIdx = numOTExt e.otCount / 128 := Nat.le_antisymm inv.inside ended.2
    refine (inv.blocks ended.1).index.trans ?_
    rw [last, size]

end Invariant

end OTExtReceiver

end BatchDualEx
