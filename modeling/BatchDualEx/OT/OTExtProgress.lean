import BatchDualEx.OT.OTExtCorrect
import BatchDualEx.OT.OTExtSenderSteps

/- The steps are those of `Extend`, and what they promise from its start on. Only the memory of the
   choice bits can be missing: `resize` computes its size in `int`. -/
namespace BatchDualEx

open Buffer Publish Result

namespace OTExtReceiver

section Runs

variable (SHA1 : Block → BitVec 160) (mChoiceBits : BitVector) (numBlocks k stop : Nat)
  {t0 : List Block} {s s' : Loop}

theorem reaches_messages {r n : Nat} (inside : r + n ≤ stop)
    (run : (List.range' r n).foldlM (messageRow SHA1 t0) s = .ok s') :
    (messages SHA1 mChoiceBits numBlocks).Reaches ⟨s, k, r, stop, t0, .messages⟩
      ⟨s', k, r + n, stop, t0, .messages⟩ := by
  refine (messages SHA1 mChoiceBits numBlocks).reaches_range'
    (fun loop r => Running.mk loop k r stop t0 .messages) (fun loop r loop' below row => ?_)
    inside run
  have next : step SHA1 mChoiceBits ⟨loop, k, r, stop, t0, .messages⟩ =
      .ok ⟨loop', k, r + 1, stop, t0, .messages⟩ := by
    unfold step
    simp only [if_pos below, row]
    rfl
  exact ⟨fun ended => Phase.noConfusion ended.1, next⟩

theorem reaches_extras {r n : Nat} (inside : r + n ≤ BASE_OT_COUNT)
    (run : (List.range' r n).foldlM (extraRow t0) s = .ok s') :
    (messages SHA1 mChoiceBits numBlocks).Reaches ⟨s, k, r, stop, t0, .extras⟩
      ⟨s', k, r + n, stop, t0, .extras⟩ := by
  refine (messages SHA1 mChoiceBits numBlocks).reaches_range'
    (fun loop r => Running.mk loop k r stop t0 .extras) (fun loop r loop' below row => ?_)
    inside run
  have next : step SHA1 mChoiceBits ⟨loop, k, r, stop, t0, .extras⟩ =
      .ok ⟨loop', k, r + 1, stop, t0, .extras⟩ := by
    unfold step
    simp only [if_pos below, row]
    rfl
  exact ⟨fun ended => Phase.noConfusion ended.1, next⟩

theorem reaches_block {at_head : Running} (head : at_head.phase = .blocks)
    (inside : at_head.blkIdx < numBlocks) (view : at_head.blkIdx < mChoiceBits.sizeBytes / 16)
    (run : block SHA1 mChoiceBits at_head.loop at_head.blkIdx = .ok s') : ∃ next,
      (messages SHA1 mChoiceBits numBlocks).Reaches at_head next ∧ next.phase = .blocks ∧
        next.blkIdx = at_head.blkIdx + 1 ∧ next.loop = s' := by
  obtain ⟨s, k, r₀, stop₀, t₀, phase⟩ := at_head
  obtain rfl : phase = .blocks := head
  have choiceBlock := mChoiceBits.readAt_blockViews view
  obtain ⟨t0, isT0⟩ : ∃ t0, t0 = eklundhTranspose128 (s.gens.map fun gens => gens.1.getBlock.1) :=
    ⟨_, rfl⟩
  obtain ⟨u, isU⟩ : ∃ u, u = s.gens.map fun gens =>
    gens.2.getBlock.1 ^^^ (gens.1.getBlock.1 ^^^ mChoiceBits.blockView k) := ⟨_, rfl⟩
  obtain ⟨stop, isStop⟩ : ∃ stop, stop = stopIdx s.mMessages.length s.atomicDoneIdx := ⟨_, rfl⟩
  have bound : stop ≤ BASE_OT_COUNT := isStop.trans_le (Nat.min_le_left _ _)
  unfold block at run
  simp only [List.map_map, Function.comp_def] at run
  rw [← isT0, ← isU, ← isStop] at run
  obtain ⟨middle, first, run⟩ := bind_ok run
  obtain ⟨last, second, run⟩ := bind_ok run
  have drawn : step SHA1 mChoiceBits ⟨s, k, r₀, stop₀, t₀, .blocks⟩ = .ok ⟨{ s with
      gens := s.gens.map fun gens => (gens.1.getBlock.2, gens.2.getBlock.2)
      sent := s.sent ++ [u] }, k, 0, stop, t0, .messages⟩ := by
    unfold step
    simp only [choiceBlock, ok_bind, ← isT0, ← isU, ← isStop]
    rfl
  have turned : step SHA1 mChoiceBits ⟨middle, k, 0 + stop, stop, t0, .messages⟩ =
      .ok ⟨middle, k, stop, stop, t0, .extras⟩ := by
    unfold step
    simp only [Nat.zero_add, if_neg (lt_irrefl stop)]
  have whole : stop + (BASE_OT_COUNT - stop) = BASE_OT_COUNT := by omega
  have published' : step SHA1 mChoiceBits
      ⟨last, k, stop + (BASE_OT_COUNT - stop), stop, t0, .extras⟩ =
      .ok ⟨{ last with atomicDoneIdx := min last.dIdx last.mMessages.length }, k + 1,
        BASE_OT_COUNT, stop, t0, .blocks⟩ := by
    unfold step
    simp only [whole, if_neg (lt_irrefl BASE_OT_COUNT)]
  have rows := reaches_messages SHA1 mChoiceBits numBlocks k stop
    (show 0 + stop ≤ stop by omega) first
  have others := reaches_extras SHA1 mChoiceBits numBlocks k stop whole.le second
  have begins := Relation.ReflTransGen.single (r := (messages SHA1 mChoiceBits numBlocks).Next)
    ⟨fun ended => absurd ended.2 (Nat.not_le.mpr inside), drawn⟩
  have between := rows.tail ⟨fun ended => Phase.noConfusion ended.1, turned⟩
  have ends := others.tail ⟨fun ended => Phase.noConfusion ended.1, published'⟩
  exact ⟨_, begins.trans (between.trans ends), rfl, rfl, Except.ok.inj run⟩

end Runs

section Extend

variable {e : ExtendInputs} (inputs : e.baseOTs.length = 128)
  (enough : e.choices.mNumBits = numOTExt e.otCount) (small : e.otCount < 2 ^ 59)

include inputs enough small

theorem reaches_blocks {s : Running} (inv : Inv e s) (head : s.phase = .blocks) {n : Nat}
    (inside : s.blkIdx + n ≤ numOTExt e.otCount / 128) {s' : Loop}
    (run : (List.range' s.blkIdx n).foldlM (block e.SHA1 e.choices) s.loop = .ok s') :
    ∃ t, (messages e.SHA1 e.choices (numOTExt e.otCount / 128)).Reaches s t ∧ t.phase = .blocks ∧
      t.blkIdx = s.blkIdx + n ∧ t.loop = s' := by
  induction n generalizing s with
  | zero =>
    cases run
    exact ⟨s, .refl, head, rfl, rfl⟩
  | succ n ih =>
    rw [List.range'_succ, List.foldlM_cons] at run
    obtain ⟨middle, first, run⟩ := bind_ok run
    obtain ⟨next, steps, head', index, rfl⟩ := reaches_block e.SHA1 e.choices
      (numOTExt e.otCount / 128) head (by omega) (view_inside enough (by omega)) first
    have inv' := ((messages_keeps inputs enough small).reaches inv steps).1
    rw [← index] at run
    obtain ⟨t, more, head'', index', last⟩ := ih inv' head' (by omega) run
    exact ⟨t, steps.trans more, head'', by omega, last⟩

omit inputs enough small

theorem inv_start (setSeed : Block → PRNG) (SHA1 : Block → BitVec 160)
    (baseOTs : List (Block × Block)) {choices : BitVector} {otCount : Nat}
    (enough : choices.mNumBits = numOTExt otCount) :
    Inv ⟨setSeed, SHA1, baseOTs, [], .empty, choices, otCount⟩
      ⟨{ gens := baseOTs.map fun base => (setSeed base.1, setSeed base.2)
         mMessages := List.replicate otCount zeroBlock
         correlatedMessages := List.replicate choices.size zeroBlock
         dIdx := 0
         atomicDoneIdx := 0
         sent := [] }, 0, 0, 0, [], .blocks⟩ := by
  refine ⟨Nat.zero_le _, (Nat.zero_min _).symm, fun _ => ?_,
    fun impossible => absurd rfl impossible,
    fun impossible => Phase.noConfusion impossible, fun impossible => Phase.noConfusion impossible⟩
  exact {
    gens := rfl
    sent := rfl
    rows := by rw [List.length_replicate]; exact enough
    stored := filled_zero
    sized := List.length_replicate
    hashed := by rw [Nat.mul_zero, Nat.zero_min]; exact filled_zero
    index := rfl }

theorem randomize_numBits (v : BitVector) (prng : PRNG) :
    (v.randomize prng).1.mNumBits = v.mNumBits := rfl

theorem started_ok {setSeed : Block → PRNG} {receiver : OTExtReceiver}
    {baseOTs : List (Block × Block)} {otCount : Nat} {prng : PRNG} {choices : BitVector}
    {start : Running} (run : started setSeed receiver baseOTs otCount prng = .ok (choices, start)) :
    otCount < 2 ^ 59 ∧ choices.mNumBits = numOTExt otCount ∧
      ∀ SHA1, Inv ⟨setSeed, SHA1, baseOTs, [], .empty, choices, otCount⟩ start := by
  unfold started at run
  by_cases large : 2 ^ 59 ≤ otCount
  · rw [if_pos large] at run
    cases run
  · rw [if_neg large] at run
    obtain ⟨resized, resizes, run⟩ := bind_ok run
    have size : (resized.randomize prng).1.mNumBits = numOTExt otCount := by
      rw [randomize_numBits, (BitVector.resize_ok resizes).1]
    by_cases large' : 2 ^ 59 ≤ (resized.randomize prng).1.size
    · simp only [if_pos large'] at run
      cases run
    · simp only [if_neg large'] at run
      cases run
      exact ⟨Nat.not_le.mp large, size, fun SHA1 => inv_start setSeed SHA1 baseOTs size⟩

/-- `Extend` is its steps, one after the other. -/
theorem extend_reaches {setSeed : Block → PRNG} {SHA1 : Block → BitVec 160}
    {receiver : OTExtReceiver} {baseOTs : List (Block × Block)} (inputs : baseOTs.length = 128)
    {otCount : Nat} (small : numOTExt otCount < 2 ^ 59) {prng : PRNG} {extended : Extended}
    {comm : BitVec 160}
    (run : receiver.Extend SHA1 setSeed baseOTs otCount prng = .ok (extended, comm)) :
    ∃ start t, started setSeed receiver baseOTs otCount prng = .ok (extended.mChoiceBits, start) ∧
      (messages SHA1 extended.mChoiceBits (numOTExt otCount / BASE_OT_COUNT)).Reaches start t ∧
      t.phase = .blocks ∧ t.blkIdx = numOTExt otCount / BASE_OT_COUNT ∧
      t.loop = extended.loop := by
  have more := otCount_le otCount
  unfold Extend at run
  obtain ⟨resized, resizes, run⟩ := bind_ok run
  obtain ⟨loop, blocks, run⟩ := bind_ok run
  cases run
  have size : (resized.randomize prng).1.mNumBits = numOTExt otCount :=
    (randomize_numBits resized prng).trans (BitVector.resize_ok resizes).1
  have fits : ¬ 2 ^ 59 ≤ (resized.randomize prng).1.size := by
    unfold BitVector.size
    omega
  have inv := inv_start setSeed SHA1 baseOTs size
  obtain ⟨t, steps, phase, index, last⟩ := reaches_blocks inputs size
    (show otCount < 2 ^ 59 by omega) inv rfl (Nat.le_of_eq (Nat.zero_add _)) blocks
  refine ⟨_, t, ?_, steps, phase, index.trans (Nat.zero_add _), last⟩
  unfold started
  simp only [if_neg (show ¬ 2 ^ 59 ≤ otCount by omega), resizes, ok_bind, if_neg fits]
  rfl

end Extend

section Sound

/-- What is promised from the start of `Extend` on to those that use the OTs below the published
index: it throws before the loops, or the loops run to their end. -/
structure StepsSound (setSeed : Block → PRNG) (SHA1 : Block → BitVec 160)
    (receiver : OTExtReceiver) (baseOTs : List (Block × Block)) (otCount : Nat) (prng : PRNG) :
    Prop where
  refused : ∀ fault, started setSeed receiver baseOTs otCount prng = .error fault →
    ∃ message, fault = .thrown message
  messages : ∀ choices start, started setSeed receiver baseOTs otCount prng = .ok (choices, start) →
    (messages SHA1 choices (numOTExt otCount / BASE_OT_COUNT)).Publishes start otCount fun i =>
      hashBlock SHA1
        (ExtendInputs.rowAt ⟨setSeed, SHA1, baseOTs, [], .empty, choices, otCount⟩ i)
  rows : ∀ choices start, started setSeed receiver baseOTs otCount prng = .ok (choices, start) →
    (rows SHA1 choices (numOTExt otCount / BASE_OT_COUNT)).Publishes start (numOTExt otCount)
      (ExtendInputs.rowAt ⟨setSeed, SHA1, baseOTs, [], .empty, choices, otCount⟩)

def Roomy (otCount allocated : Nat) : Prop :=
  numOTExt otCount < 2 ^ 32 ∨ 2 ^ 31 ≤ numOTExt otCount % 2 ^ 32 ∨
    numOTExt otCount ≤ 8 * allocated ∨ 2 ^ 59 ≤ otCount

variable {setSeed : Block → PRNG} {SHA1 : Block → BitVec 160} {receiver : OTExtReceiver}
  {baseOTs : List (Block × Block)} {otCount : Nat} {prng : PRNG}

theorem started_error (roomy : Roomy otCount receiver.mChoiceBits.mData.length) {fault : Fault}
    (run : started setSeed receiver baseOTs otCount prng = .error fault) :
    ∃ message, fault = .thrown message := by
  unfold started at run
  by_cases large : 2 ^ 59 ≤ otCount
  · rw [if_pos large] at run
    cases run
    exact ⟨_, rfl⟩
  · rw [if_neg large] at run
    rcases BitVector.resize_whole receiver.mChoiceBits (numOTExt_dvd otCount).symm with
      ⟨-, resizes⟩ | ⟨-, -, w, resizes⟩ | ⟨low, tooLarge, short, -⟩
    · rw [resizes] at run
      cases run
      exact ⟨_, rfl⟩
    · rw [resizes, ok_bind] at run
      by_cases large' : 2 ^ 59 ≤ (w.randomize prng).1.size
      · simp only [if_pos large'] at run
        cases run
        exact ⟨_, rfl⟩
      · simp only [if_neg large'] at run
        cases run
    · rcases roomy with few | high | room | huge <;> omega

/-- The allocation is too small for the bits that `randomize` writes. -/
theorem started_undefined (crowded : ¬ Roomy otCount receiver.mChoiceBits.mData.length) :
    started setSeed receiver baseOTs otCount prng = .error .undefined := by
  unfold Roomy at crowded
  unfold started
  rw [if_neg (by omega)]
  rcases BitVector.resize_whole receiver.mChoiceBits (numOTExt_dvd otCount).symm with
    ⟨high, -⟩ | ⟨-, room, -⟩ | ⟨-, -, -, resizes⟩
  · omega
  · omega
  · rw [resizes]
    rfl

theorem stepsSound_iff (inputs : baseOTs.length = 128) :
    StepsSound setSeed SHA1 receiver baseOTs otCount prng ↔
      Roomy otCount receiver.mChoiceBits.mData.length := by
  constructor
  · intro sound
    by_contra crowded
    obtain ⟨message, impossible⟩ := sound.refused _ (started_undefined crowded)
    cases impossible
  · intro roomy
    refine ⟨fun fault run => started_error roomy run, fun choices start run => ?_,
      fun choices start run => ?_⟩
    · obtain ⟨small, enough, inv⟩ := started_ok run
      have publishes := messages_publishes inputs enough small (inv SHA1)
      exact publishes
    · obtain ⟨small, enough, inv⟩ := started_ok run
      have publishes := rows_publishes inputs enough small (inv SHA1)
      exact publishes

end Sound

end OTExtReceiver

namespace OTExtSender

section Runs

variable (SHA1 : Block → BitVec 160) (baseChoiceBits : BitVector) (delta : Block) (otCount : Nat)
  (u : List (List Block)) (numBlocks k stop : Nat) {q : List Block} {s s' : Loop}

theorem reaches_messages {r n : Nat} (inside : r + n ≤ stop)
    (run : (List.range' r n).foldlM (messageRow SHA1 delta q) s = .ok s') :
    (messages SHA1 baseChoiceBits delta otCount u numBlocks).Reaches ⟨s, k, r, stop, q, .messages⟩
      ⟨s', k, r + n, stop, q, .messages⟩ := by
  refine (messages SHA1 baseChoiceBits delta otCount u numBlocks).reaches_range'
    (fun loop r => Running.mk loop k r stop q .messages) (fun loop r loop' below row => ?_)
    inside run
  have next : step SHA1 baseChoiceBits delta otCount u ⟨loop, k, r, stop, q, .messages⟩ =
      .ok ⟨loop', k, r + 1, stop, q, .messages⟩ := by
    unfold step
    simp only [if_pos below, row]
    rfl
  exact ⟨fun ended => Phase.noConfusion ended.1, next⟩

theorem reaches_extras {r n : Nat} (inside : r + n ≤ BASE_OT_COUNT)
    (run : (List.range' r n).foldlM (extraRow q) s = .ok s') :
    (messages SHA1 baseChoiceBits delta otCount u numBlocks).Reaches ⟨s, k, r, stop, q, .extras⟩
      ⟨s', k, r + n, stop, q, .extras⟩ := by
  refine (messages SHA1 baseChoiceBits delta otCount u numBlocks).reaches_range'
    (fun loop r => Running.mk loop k r stop q .extras) (fun loop r loop' below row => ?_) inside run
  have next : step SHA1 baseChoiceBits delta otCount u ⟨loop, k, r, stop, q, .extras⟩ =
      .ok ⟨loop', k, r + 1, stop, q, .extras⟩ := by
    unfold step
    simp only [if_pos below, row]
    rfl
  exact ⟨fun ended => Phase.noConfusion ended.1, next⟩

theorem reaches_block {at_head : Running} (head : at_head.phase = .blocks)
    (inside : at_head.blkIdx < numBlocks)
    (run : block SHA1 baseChoiceBits delta otCount u at_head.loop at_head.blkIdx = .ok s') :
    ∃ next, (messages SHA1 baseChoiceBits delta otCount u numBlocks).Reaches at_head next ∧
      next.phase = .blocks ∧ next.blkIdx = at_head.blkIdx + 1 ∧ next.loop = s' := by
  obtain ⟨s, k, r₀, stop₀, q₀, phase⟩ := at_head
  obtain rfl : phase = .blocks := head
  obtain ⟨q, isQ⟩ : ∃ q, q = eklundhTranspose128 (columns baseChoiceBits s.gens (u.getD k [])) :=
    ⟨_, rfl⟩
  obtain ⟨stop, isStop⟩ : ∃ stop, stop = stopIdx otCount s.atomicDoneIdx := ⟨_, rfl⟩
  have bound : stop ≤ BASE_OT_COUNT := isStop.trans_le (Nat.min_le_left _ _)
  unfold block at run
  by_cases short : (u.getD k []).length ≠ BASE_OT_COUNT
  · simp only [if_pos short] at run
    cases run
  · simp only [if_neg short] at run
    rw [← isQ, ← isStop] at run
    obtain ⟨middle, first, second⟩ := bind_ok run
    have received : step SHA1 baseChoiceBits delta otCount u ⟨s, k, r₀, stop₀, q₀, .blocks⟩ =
        .ok ⟨{ s with gens := s.gens.map fun gen => gen.getBlock.2 }, k, 0, stop, q,
          .messages⟩ := by
      unfold step
      simp only [if_neg short, ← isQ, ← isStop]
    have published' : step SHA1 baseChoiceBits delta otCount u
        ⟨middle, k, 0 + stop, stop, q, .messages⟩ =
        .ok ⟨{ middle with atomicDoneIdx := middle.dIdx }, k, stop, stop, q, .extras⟩ := by
      unfold step
      simp only [Nat.zero_add, if_neg (lt_irrefl stop)]
    have whole : stop + (BASE_OT_COUNT - stop) = BASE_OT_COUNT := by omega
    have turned : step SHA1 baseChoiceBits delta otCount u
        ⟨s', k, stop + (BASE_OT_COUNT - stop), stop, q, .extras⟩ =
        .ok ⟨s', k + 1, BASE_OT_COUNT, stop, q, .blocks⟩ := by
      unfold step
      simp only [whole, if_neg (lt_irrefl BASE_OT_COUNT)]
    have rows := reaches_messages SHA1 baseChoiceBits delta otCount u numBlocks k stop
      (show 0 + stop ≤ stop by omega) first
    have others := reaches_extras SHA1 baseChoiceBits delta otCount u numBlocks k stop
      whole.le second
    have begins := Relation.ReflTransGen.single
      (r := (messages SHA1 baseChoiceBits delta otCount u numBlocks).Next)
      ⟨fun ended => absurd ended.2 (Nat.not_le.mpr inside), received⟩
    have between := rows.tail ⟨fun ended => Phase.noConfusion ended.1, published'⟩
    have ends := others.tail ⟨fun ended => Phase.noConfusion ended.1, turned⟩
    exact ⟨_, begins.trans (between.trans ends), rfl, rfl, rfl⟩

end Runs

section Extend

variable {e : Inputs} (sized : e.Sized) (small : e.otCount < 2 ^ 59)
include sized small

theorem reaches_blocks {s : Running} (inv : Inv e s) (head : s.phase = .blocks) {n : Nat}
    (inside : s.blkIdx + n ≤ numOTExt e.otCount / 128) {s' : Loop}
    (run : (List.range' s.blkIdx n).foldlM
      (block e.SHA1 e.baseChoiceBits e.delta e.otCount e.u) s.loop = .ok s') :
    ∃ t, (messages e.SHA1 e.baseChoiceBits e.delta e.otCount e.u
        (numOTExt e.otCount / 128)).Reaches s t ∧
      t.phase = .blocks ∧ t.blkIdx = s.blkIdx + n ∧ t.loop = s' := by
  induction n generalizing s with
  | zero =>
    cases run
    exact ⟨s, .refl, head, rfl, rfl⟩
  | succ n ih =>
    rw [List.range'_succ, List.foldlM_cons] at run
    obtain ⟨middle, first, run⟩ := bind_ok run
    obtain ⟨next, steps, head', index, rfl⟩ := reaches_block e.SHA1 e.baseChoiceBits e.delta
      e.otCount e.u (numOTExt e.otCount / 128) head (by omega) first
    have inv' := ((messages_keeps sized small).reaches inv steps).1
    rw [← index] at run
    obtain ⟨t, more, head'', index', last⟩ := ih inv' head' (by omega) run
    exact ⟨t, steps.trans more, head'', by omega, last⟩

omit sized small

theorem inv_start (e : Inputs) (s : OTExtSender) : Inv e
    ⟨{ gens := e.gens
       mMessages := (s.mMessages.1.takeD e.otCount zeroBlock,
         s.mMessages.2.takeD e.otCount zeroBlock)
       correlatedMessages := List.replicate (numOTExt e.otCount) zeroBlock
       correlatedMessagesIter := 0
       dIdx := 0
       atomicDoneIdx := 0 }, 0, 0, 0, [], .blocks⟩ := by
  refine ⟨Nat.zero_le _, (Nat.zero_min _).symm, fun _ => ⟨(List.map_id _).symm, ?_⟩,
    fun impossible => absurd rfl impossible, fun impossible => Phase.noConfusion impossible,
    fun impossible => Phase.noConfusion impossible⟩
  exact {
    rows := List.length_replicate
    stored := filled_zero
    iter := rfl
    sized0 := List.takeD_length _ _ _
    sized1 := List.takeD_length _ _ _
    hashed0 := by rw [Nat.mul_zero, Nat.zero_min]; exact filled_zero
    hashed1 := by rw [Nat.mul_zero, Nat.zero_min]; exact filled_zero
    index := (Nat.zero_min _).symm }

theorem started_ok {setSeed : Block → PRNG} {sender : OTExtSender} {baseMessages : List Block}
    {baseChoiceBits : BitVector} {otCount : Nat} {delta : Block} {start : Running}
    (run : started setSeed sender baseMessages baseChoiceBits otCount = .ok (delta, start)) :
    otCount < 2 ^ 59 ∧ ∀ SHA1 u,
      Inv ⟨SHA1, baseMessages.map setSeed, baseChoiceBits, delta, otCount, u⟩ start := by
  unfold started at run
  by_cases large : 2 ^ 59 ≤ otCount
  · rw [if_pos large] at run
    cases run
  · rw [if_neg large] at run
    obtain ⟨_, _, run⟩ := bind_ok run
    by_cases large' : 2 ^ 59 ≤ numOTExt otCount
    · simp only [if_pos large'] at run
      cases run
    · simp only [if_neg large'] at run
      cases run
      exact ⟨Nat.not_le.mp large, fun SHA1 u => inv_start
        ⟨SHA1, baseMessages.map setSeed, baseChoiceBits, _, otCount, u⟩ sender⟩

theorem extend_reaches {setSeed : Block → PRNG} {SHA1 : Block → BitVec 160} {sender : OTExtSender}
    {baseMessages : List Block} (outputs : baseMessages.length = 128) {baseChoiceBits : BitVector}
    {otCount : Nat} (small : numOTExt otCount < 2 ^ 59) {prng : PRNG} {comm : BitVec 160}
    {u : List (List Block)} (received : ∀ k < numOTExt otCount / 128, (u.getD k []).length = 128)
    {extended : Extended}
    (run : sender.Extend SHA1 setSeed baseMessages baseChoiceBits otCount prng comm u =
      .ok extended) :
    ∃ start t, started setSeed sender baseMessages baseChoiceBits otCount =
        .ok (extended.delta, start) ∧
      (messages SHA1 baseChoiceBits extended.delta otCount u
        (numOTExt otCount / BASE_OT_COUNT)).Reaches start t ∧
      t.phase = .blocks ∧ t.blkIdx = numOTExt otCount / BASE_OT_COUNT ∧
      t.loop = extended.loop := by
  have more := otCount_le otCount
  unfold Extend at run
  obtain ⟨delta, choices, run⟩ := bind_ok run
  obtain ⟨loop, blocks, run⟩ := bind_ok run
  cases run
  obtain ⟨e, isE⟩ : ∃ e : Inputs,
      e = ⟨SHA1, baseMessages.map setSeed, baseChoiceBits, delta, otCount, u⟩ := ⟨_, rfl⟩
  have sized : e.Sized := by
    rw [isE]
    exact ⟨(List.length_map _).trans outputs, received⟩
  have inv := inv_start e sender
  subst isE
  obtain ⟨t, steps, phase, index, last⟩ := reaches_blocks sized
    (show otCount < 2 ^ 59 by omega) inv rfl (Nat.le_of_eq (Nat.zero_add _)) blocks
  refine ⟨_, t, ?_, steps, phase, index.trans (Nat.zero_add _), last⟩
  unfold started
  simp only [if_neg (show ¬ 2 ^ 59 ≤ otCount by omega), choices, ok_bind,
    if_neg (Nat.not_le.mpr small)]
  rfl

end Extend

section Sound

structure StepsSound (setSeed : Block → PRNG) (SHA1 : Block → BitVec 160) (sender : OTExtSender)
    (baseMessages : List Block) (baseChoiceBits : BitVector) (otCount : Nat)
    (u : List (List Block)) : Prop where
  refused : ∀ fault, started setSeed sender baseMessages baseChoiceBits otCount = .error fault →
    ∃ message, fault = .thrown message
  messages : ∀ delta start,
    started setSeed sender baseMessages baseChoiceBits otCount = .ok (delta, start) →
    (messages SHA1 baseChoiceBits delta otCount u (numOTExt otCount / BASE_OT_COUNT)).Publishes
      start otCount fun i =>
        (hashBlock SHA1 (Inputs.rowAt
          ⟨SHA1, baseMessages.map setSeed, baseChoiceBits, delta, otCount, u⟩ i),
        hashBlock SHA1 (Inputs.rowAt
          ⟨SHA1, baseMessages.map setSeed, baseChoiceBits, delta, otCount, u⟩ i ^^^ delta))
  rows : ∀ delta start,
    started setSeed sender baseMessages baseChoiceBits otCount = .ok (delta, start) →
    (rows SHA1 baseChoiceBits delta otCount u (numOTExt otCount / BASE_OT_COUNT)).Publishes start
      (numOTExt otCount)
      (Inputs.rowAt ⟨SHA1, baseMessages.map setSeed, baseChoiceBits, delta, otCount, u⟩)

variable {setSeed : Block → PRNG} {SHA1 : Block → BitVec 160} {sender : OTExtSender}
  {baseMessages : List Block} {baseChoiceBits : BitVector} {otCount : Nat} {u : List (List Block)}

theorem started_error (choices : baseChoiceBits.size = 128) {fault : Fault}
    (run : started setSeed sender baseMessages baseChoiceBits otCount = .error fault) :
    ∃ message, fault = .thrown message := by
  unfold started at run
  by_cases large : 2 ^ 59 ≤ otCount
  · rw [if_pos large] at run
    cases run
    exact ⟨_, rfl⟩
  · have delta : baseChoiceBits.ToBlock = .ok (baseChoiceBits.blockView 0) := if_pos (.inl choices)
    rw [if_neg large, delta, ok_bind] at run
    by_cases large' : 2 ^ 59 ≤ numOTExt otCount
    · simp only [if_pos large'] at run
      cases run
      exact ⟨_, rfl⟩
    · simp only [if_neg large'] at run
      cases run

theorem stepsSound (outputs : baseMessages.length = 128) (choices : baseChoiceBits.size = 128)
    (received : ∀ k < numOTExt otCount / 128, (u.getD k []).length = 128) :
    StepsSound setSeed SHA1 sender baseMessages baseChoiceBits otCount u := by
  have sized : ∀ delta, Inputs.Sized
      ⟨SHA1, baseMessages.map setSeed, baseChoiceBits, delta, otCount, u⟩ :=
    fun _ => ⟨(List.length_map _).trans outputs, received⟩
  refine ⟨fun fault run => started_error choices run, fun delta start run => ?_,
    fun delta start run => ?_⟩
  · obtain ⟨small, inv⟩ := started_ok run
    have publishes := messages_publishes (sized delta) small (inv SHA1 u)
    exact publishes
  · obtain ⟨small, inv⟩ := started_ok run
    have publishes := rows_publishes (sized delta) small (inv SHA1 u)
    exact publishes

end Sound

end OTExtSender

/-- At every step of both sides what is published is final, exactly when the choice bits of the
receiver have room. For no OTs at all, `Extend` returns before its loops. -/
theorem extend_steps_iff (setSeed : Block → PRNG) (SHA1 : Block → BitVec 160)
    (receiver : OTExtReceiver) (sender : OTExtSender) {baseOTs : List (Block × Block)}
    {baseMessages : List Block} {baseChoiceBits : BitVector} (inputs : baseOTs.length = 128)
    (outputs : baseMessages.length = 128) (choices : baseChoiceBits.size = 128) {otCount : Nat}
    {u : List (List Block)} (received : ∀ k < numOTExt otCount / 128, (u.getD k []).length = 128)
    (prng : PRNG) :
    OTExtReceiver.StepsSound setSeed SHA1 receiver baseOTs otCount prng ∧
        OTExtSender.StepsSound setSeed SHA1 sender baseMessages baseChoiceBits otCount u ↔
      OTExtReceiver.Roomy otCount receiver.mChoiceBits.mData.length := by
  rw [OTExtReceiver.stepsSound_iff inputs]
  constructor
  · intro both
    exact both.1
  · intro roomy
    exact ⟨roomy, OTExtSender.stepsSound outputs choices received⟩

/-- Two OTs in the last block of messages, and a block for the check. -/
theorem extend_steps_iff_130 :
    OTExtReceiver.StepsSound sampleSeed (fun b => b.setWidth 160) ⟨[], .empty⟩ sampleBaseOTs 130
          (sampleSeed 7) ∧
        OTExtSender.StepsSound sampleSeed (fun b => b.setWidth 160) ⟨([], [])⟩ sampleOutputs
          sampleInputs 130 (List.replicate 3 (List.replicate 128 5)) ↔
      OTExtReceiver.Roomy 130 0 :=
  extend_steps_iff sampleSeed (fun b => b.setWidth 160) ⟨[], .empty⟩ ⟨([], [])⟩ samples_agree.inputs
    samples_agree.outputs samples_agree.choices
    (fun k below => by
      rw [List.getD_replicate _ (show k < 3 from below), List.length_replicate]) (sampleSeed 7)

/-- For `2^32` choice bits nothing is allocated. -/
theorem extend_steps_unallocated : 0 < 2 ^ 32 - 255 ∧ sampleBaseOTs.length = 128 ∧
    ¬ OTExtReceiver.StepsSound sampleSeed (fun b => b.setWidth 160) ⟨[], .empty⟩ sampleBaseOTs
      (2 ^ 32 - 255) (sampleSeed 7) := by
  refine ⟨by decide, samples_agree.inputs, ?_⟩
  rw [OTExtReceiver.stepsSound_iff samples_agree.inputs]
  unfold OTExtReceiver.Roomy
  decide

end BatchDualEx
