import BatchDualEx.OT.OTExtLoops

/- An honest run of the OT extension passes the correlation check and gives the receiver the
   messages of its choices, as long as the vector of the choice bits can be resized. -/
namespace BatchDualEx

open Bytes Buffer WordXor Result

def sumProducts (n : Nat) (row : Nat → Block) (g : PRNG) : Block × Block :=
  (xorSum n fun i => (mul128 (row i) (g.nthBlock i)).1,
    xorSum n fun i => (mul128 (row i) (g.nthBlock i)).2)

theorem sumProducts_congr {n : Nat} {row row' : Nat → Block} (same : ∀ i < n, row i = row' i)
    (g : PRNG) : sumProducts n row g = sumProducts n row' g := by
  unfold sumProducts
  rw [xorSum_congr fun i below => congrArg (fun r => (mul128 r (g.nthBlock i)).1) (same i below),
    xorSum_congr fun i below => congrArg (fun r => (mul128 r (g.nthBlock i)).2) (same i below)]

theorem OTExtReceiver.foldl_checkStep (choices : BitVector) (rows : List Block) (g : PRNG)
    (n : Nat) : (List.range n).foldl (checkStep choices rows)
        (⟨zeroBlock, zeroBlock, zeroBlock⟩, g) =
      (⟨xorSum n fun i => select (choices.get i) (g.nthBlock i),
        (sumProducts n (rows.getD · zeroBlock) g).1,
        (sumProducts n (rows.getD · zeroBlock) g).2⟩, g.skip n) := by
  unfold sumProducts
  induction n with
  | zero =>
    simp only [List.range_zero, List.foldl_nil, zeroBlock_eq, xorSum_zero]
    rfl
  | succ n ih =>
    rw [List.range_succ, List.foldl_append, ih, List.foldl_cons, List.foldl_nil]
    unfold checkStep
    simp only [xorSum_succ, PRNG.skip_succ]
    cases choices.get n <;> simp [PRNG.nthBlock]

theorem OTExtSender.foldl_checkStep (rows : List Block) (g : PRNG) (n : Nat) :
    (List.range n).foldl (checkStep rows) ((zeroBlock, zeroBlock), g) =
      (sumProducts n (rows.getD · zeroBlock) g, g.skip n) := by
  unfold sumProducts
  induction n with
  | zero =>
    simp only [List.range_zero, List.foldl_nil, zeroBlock_eq, xorSum_zero]
    rfl
  | succ n ih =>
    rw [List.range_succ, List.foldl_append, ih, List.foldl_cons, List.foldl_nil]
    unfold checkStep
    simp only [xorSum_succ, PRNG.skip_succ]
    rfl

section
variable (setSeed : Block → PRNG) (SHA1 : Block → BitVec 160) {baseOTs : List (Block × Block)}
  {baseMessages : List Block} {baseChoiceBits : BitVector} {otCount : Nat}

theorem OTExtReceiver.extend_ok (agree : BaseOTsAgree baseOTs baseMessages baseChoiceBits)
    (small : otCount ≤ 2 ^ 31 - 256) (receiver : OTExtReceiver) (prng : PRNG) :
    ∃ choices seed loop, receiver.Extend SHA1 setSeed baseOTs otCount prng =
        .ok (⟨choices, seed, loop⟩, SHA1 seed) ∧ choices.mNumBits = numOTExt otCount ∧
      choices.mData.length = max receiver.mChoiceBits.mData.length (numOTExt otCount / 8) ∧
      At ⟨setSeed, SHA1, baseOTs, baseMessages, baseChoiceBits, choices, otCount⟩
        (numOTExt otCount / 128) (numOTExt otCount) loop := by
  have bits : numOTExt otCount + 8 < 2 ^ 31 ∧ (numOTExt otCount + 7) / 8 =
      numOTExt otCount / 8 := by
    unfold numOTExt
    omega
  obtain ⟨v, resized, size, allocated⟩ : ∃ v,
      receiver.mChoiceBits.resize (numOTExt otCount) = .ok v ∧ v.mNumBits = numOTExt otCount ∧
        v.mData.length = max receiver.mChoiceBits.mData.length ((numOTExt otCount + 7) / 8) :=
    ⟨_, BitVector.resize_small _ bits.1, rfl, BitVector.allocate_length _ _⟩
  rcases random : v.randomize prng with ⟨choices, rest⟩
  rcases drawn : rest.getBlock with ⟨seed, _⟩
  have same : (v.randomize prng).1 = choices := congrArg Prod.fst random
  have enough : choices.size = numOTExt otCount := by
    rw [← size, ← same]
    rfl
  have allocated : choices.mData.length =
      max receiver.mChoiceBits.mData.length (numOTExt otCount / 8) := by
    rw [← bits.2, ← allocated, ← same]
    exact memcpy_length _ _ _
  let e : ExtendInputs :=
    ⟨setSeed, SHA1, baseOTs, baseMessages, baseChoiceBits, choices, otCount⟩
  have start : At e 0 0
      { gens := baseOTs.map fun base => (setSeed base.1, setSeed base.2)
        mMessages := List.replicate otCount zeroBlock
        correlatedMessages := List.replicate choices.size zeroBlock
        dIdx := 0
        atomicDoneIdx := 0
        sent := [] } := {
    gens := rfl
    sent := rfl
    rows := by rw [List.length_replicate, enough]
    stored := filled_zero
    sized := List.length_replicate
    hashed := by rw [Nat.zero_min]; exact filled_zero
    index := rfl }
  obtain ⟨loop, run, last⟩ := blocks_at (e := e) agree (show otCount < 2 ^ 59 by omega) start rfl
  refine ⟨choices, seed, loop, ?_, enough, allocated, last⟩
  unfold OTExtReceiver.Extend BASE_OT_COUNT
  rw [resized, ok_bind]
  simp only [random, drawn]
  rw [run]
  rfl

theorem OTExtSender.extend_ok (small : otCount ≤ 2 ^ 31 - 256) (choices : BitVector)
    (agree : BaseOTsAgree baseOTs baseMessages baseChoiceBits) (sender : OTExtSender)
    (prng : PRNG) (comm : BitVec 160) :
    let e : ExtendInputs :=
      ⟨setSeed, SHA1, baseOTs, baseMessages, baseChoiceBits, choices, otCount⟩
    ∃ loop, sender.Extend SHA1 setSeed baseMessages baseChoiceBits otCount prng comm
        ((List.range (numOTExt otCount / 128)).map e.sentAt) =
          .ok ⟨comm, e.delta, prng.getBlock.1, loop⟩ ∧
      At e (numOTExt otCount / 128) (numOTExt otCount) loop := by
  intro e
  have start : At e 0 0
      { gens := baseMessages.map setSeed
        mMessages :=
          (sender.mMessages.1.takeD otCount zeroBlock, sender.mMessages.2.takeD otCount zeroBlock)
        correlatedMessages := List.replicate (numOTExt otCount) zeroBlock
        correlatedMessagesIter := 0
        dIdx := 0
        atomicDoneIdx := 0 } := {
    gens := rfl
    rows := List.length_replicate
    stored := filled_zero
    iter := rfl
    sized0 := List.takeD_length _ _ _
    sized1 := List.takeD_length _ _ _
    hashed0 := by rw [Nat.zero_min]; exact filled_zero
    hashed1 := by rw [Nat.zero_min]; exact filled_zero
    index := (Nat.zero_min _).symm }
  obtain ⟨loop, run, last⟩ := blocks_at (e := e) agree (show otCount < 2 ^ 59 by omega) start rfl
  have bits : baseChoiceBits.ToBlock = .ok e.delta := if_pos (Or.inl agree.choices)
  refine ⟨loop, ?_, last⟩
  unfold OTExtSender.Extend
  rw [bits]
  change (List.foldlM (block SHA1 baseChoiceBits e.delta otCount _) _
    (List.range' 0 (numOTExt otCount / 128)) >>= _) = _
  rw [run]
  rfl

end

section
variable {e : ExtendInputs} {k : Nat}

def ExtendInputs.checkOf (e : ExtendInputs) (g : PRNG) : OTExtReceiver.Check where
  x := xorSum (numOTExt e.otCount) fun i => select (e.choices.get i) (g.nthBlock i)
  t := (sumProducts (numOTExt e.otCount) e.rowAt g).1
  t2 := (sumProducts (numOTExt e.otCount) e.rowAt g).2

theorem OTExtReceiver.finish_ok {loop : Loop} (stored : At e k (numOTExt e.otCount) loop)
    (enough : e.choices.mNumBits = numOTExt e.otCount) (small : e.otCount ≤ 2 ^ 31 - 256)
    (seed theirSeed : Block) : ∃ mChoiceBits : BitVector,
      finish e.setSeed ⟨e.choices, seed, loop⟩ e.otCount theirSeed =
        .ok (⟨loop.mMessages, mChoiceBits⟩, seed,
          e.checkOf (e.setSeed (seed ^^^ theirSeed))) ∧
      mChoiceBits.size = e.otCount ∧ mChoiceBits.mData = e.choices.mData := by
  have room : (e.otCount + 7) / 8 ≤ e.choices.mData.length := by
    have fits := e.choices.fits
    rw [enough] at fits
    unfold numOTExt at fits
    omega
  have resized := BitVector.resize_within (show e.otCount + 8 < 2 ^ 31 by omega) room
  have kept : loop.mMessages.takeD e.otCount zeroBlock = loop.mMessages := by
    apply Lists.ext_getD zeroBlock
    · rw [List.takeD_length, stored.sized]
    · intro w below
      exact Lists.getD_takeD _ _ _ (by rwa [List.takeD_length] at below)
  have check : (List.range loop.correlatedMessages.length).foldl
      (checkStep e.choices loop.correlatedMessages)
      (⟨zeroBlock, zeroBlock, zeroBlock⟩, e.setSeed (seed ^^^ theirSeed)) =
        (e.checkOf (e.setSeed (seed ^^^ theirSeed)),
          (e.setSeed (seed ^^^ theirSeed)).skip (numOTExt e.otCount)) := by
    rw [foldl_checkStep, stored.rows, sumProducts_congr stored.stored]
    rfl
  refine ⟨⟨e.choices.mData, e.otCount, room⟩, ?_, rfl, rfl⟩
  unfold finish
  simp only [check, resized, kept, bind, Except.bind]
  rfl

theorem OTExtSender.finish_ok {loop : Loop} (stored : At e k (numOTExt e.otCount) loop)
    (seed theirSeed : Block) :
    finish e.SHA1 e.setSeed ⟨e.SHA1 theirSeed, e.delta, seed, loop⟩ theirSeed
      (e.checkOf (e.setSeed (theirSeed ^^^ seed))) = .ok ⟨loop.mMessages⟩ := by
  generalize common : e.setSeed (theirSeed ^^^ seed) = g
  have sums : (List.range loop.correlatedMessages.length).foldl
      (checkStep loop.correlatedMessages) ((zeroBlock, zeroBlock), g) =
        (sumProducts (numOTExt e.otCount) e.senderRowAt g, g.skip (numOTExt e.otCount)) := by
    rw [foldl_checkStep, stored.rows, sumProducts_congr stored.stored]
  have passes := mul128_check (numOTExt e.otCount) g.nthBlock e.rowAt e.choices.get e.delta
  unfold finish
  rw [if_neg (not_not.mpr rfl), BitVec.xor_comm seed, common, sums]
  exact if_pos passes

end

/-- Both sides have `otCount` messages, the receiver also as many choice bits, and each of its
    messages is the one of its choice. -/
structure ExtendCorrect (otCount : Nat) (receiver : OTExtReceiver) (sender : OTExtSender) :
    Prop where
  received : receiver.mMessages.length = otCount
  sent0 : sender.mMessages.1.length = otCount
  sent1 : sender.mMessages.2.length = otCount
  choices : receiver.mChoiceBits.size = otCount
  chosen : ∀ i < otCount,
    receiver.GetMessage i = sender.GetMessage i (receiver.mChoiceBits.get i)

/-- The users of the OTs get what they assume of them. -/
theorem ExtendCorrect.otsCorrect {otCount : Nat} {receiver : OTExtReceiver} {sender : OTExtSender}
    (correct : ExtendCorrect otCount receiver sender) :
    OTsCorrect otCount receiver.toInterface sender.toInterface :=
  ⟨Nat.le_of_eq correct.choices.symm, correct.chosen⟩

section
variable (setSeed : Block → PRNG) (SHA1 : Block → BitVec 160) {baseOTs : List (Block × Block)}
  {baseMessages : List Block} {baseChoiceBits : BitVector} {otCount : Nat}

/-- The receiver allocates less than `2^28` bytes, so it can run again. -/
theorem extendRun_ok (agree : BaseOTsAgree baseOTs baseMessages baseChoiceBits)
    (positive : 0 < otCount) (small : otCount ≤ 2 ^ 31 - 256) {receiver : OTExtReceiver}
    (allocated : receiver.mChoiceBits.mData.length < 2 ^ 28) (sender : OTExtSender)
    (prng prng' : PRNG) :
    ∃ receiver' sender', extendRun setSeed SHA1 receiver sender baseOTs baseMessages
        baseChoiceBits otCount prng prng' = .ok (receiver', sender') ∧
      ExtendCorrect otCount receiver' sender' ∧
      receiver'.mChoiceBits.mData.length < 2 ^ 28 := by
  obtain ⟨choices, seed, rLoop, first, enough, bytes, stored⟩ :=
    OTExtReceiver.extend_ok setSeed SHA1 agree small receiver prng
  obtain ⟨sLoop, second, stored'⟩ :=
    OTExtSender.extend_ok setSeed SHA1 small choices agree sender prng' (SHA1 seed)
  obtain ⟨mChoiceBits, third, size, kept⟩ :=
    OTExtReceiver.finish_ok stored enough small seed prng'.getBlock.1
  have fourth := OTExtSender.finish_ok stored' prng'.getBlock.1 seed
  refine ⟨⟨rLoop.mMessages, mChoiceBits⟩, ⟨sLoop.mMessages⟩, ?_, ?_, ?_⟩
  · unfold extendRun
    rw [if_neg (Nat.ne_of_gt positive), first]
    simp only [bind, Except.bind, stored.sent, second, third, fourth]
    rfl
  · refine ⟨stored.sized, stored'.sized0, stored'.sized1, size, fun i below => ?_⟩
    have reached : i < min (numOTExt otCount) otCount := by
      unfold numOTExt
      omega
    have received := stored.hashed i reached
    have sent0 := stored'.hashed0 i reached
    have sent1 := stored'.hashed1 i reached
    have choice : mChoiceBits.get i = choices.get i := congrArg (bit · i) kept
    unfold OTExtReceiver.GetMessage OTExtSender.GetMessage
    unfold ExtendInputs.senderRowAt at sent0 sent1
    rw [choice, received]
    cases chosen : choices.get i
    · simp only [chosen, select_false, BitVec.xor_zero] at sent0
      exact sent0.symm
    · simp only [chosen, select_true, BitVec.xor_assoc, BitVec.xor_self,
        BitVec.xor_zero] at sent1
      exact sent1.symm
  · rw [kept, bytes]
    unfold numOTExt
    omega

theorem extendRun_fails (large : 2 ^ 31 - 256 < otCount) (receiver : OTExtReceiver)
    (allocated : receiver.mChoiceBits.mData.length < 2 ^ 28) (sender : OTExtSender)
    (baseOTs : List (Block × Block)) (baseMessages : List Block) (baseChoiceBits : BitVector)
    (prng prng' : PRNG) : ∃ fault, extendRun setSeed SHA1 receiver sender baseOTs baseMessages
      baseChoiceBits otCount prng prng' = .error fault := by
  have bits : 2 ^ 31 ≤ numOTExt otCount := by
    unfold numOTExt
    omega
  obtain ⟨fault, failed⟩ := BitVector.resize_large (v := receiver.mChoiceBits)
    (n := numOTExt otCount) (by omega) (by omega)
  refine ⟨fault, ?_⟩
  unfold extendRun OTExtReceiver.Extend
  rw [if_neg (show otCount ≠ 0 by omega), failed]
  rfl

/-- Both parties end with the OTs exactly when `resize` computes in `int` what the vector of the
    choice bits needs. -/
theorem extend_correct_iff (agree : BaseOTsAgree baseOTs baseMessages baseChoiceBits)
    (positive : 0 < otCount) {receiver : OTExtReceiver}
    (allocated : receiver.mChoiceBits.mData.length < 2 ^ 28) (sender : OTExtSender)
    (prng prng' : PRNG) :
    (∃ receiver' sender', extendRun setSeed SHA1 receiver sender baseOTs baseMessages
        baseChoiceBits otCount prng prng' = .ok (receiver', sender') ∧
      ExtendCorrect otCount receiver' sender') ↔ otCount ≤ 2 ^ 31 - 256 := by
  constructor
  · intro done
    obtain ⟨receiver', sender', run, _⟩ := done
    by_contra large
    obtain ⟨fault, failed⟩ := extendRun_fails setSeed SHA1 (Nat.not_le.mp large) receiver allocated
      sender baseOTs baseMessages baseChoiceBits prng prng'
    cases run.symm.trans failed
  · intro small
    obtain ⟨receiver', sender', run, correct, _⟩ :=
      extendRun_ok setSeed SHA1 agree positive small allocated sender prng prng'
    exact ⟨receiver', sender', run, correct⟩

end

def sampleInputs : BitVector := ⟨List.replicate 16 0xAA, 128, by decide⟩

def sampleBaseOTs : List (Block × Block) := List.replicate 128 (0, 1)

def sampleOutputs : List Block :=
  (List.range 128).map fun i => if sampleInputs.get i then 1 else 0

def sampleSeed (seed : Block) : PRNG := fun i => UInt8.ofNat (seed.toNat + i)

theorem samples_agree : BaseOTsAgree sampleBaseOTs sampleOutputs sampleInputs where
  inputs := List.length_replicate
  outputs := by simp [sampleOutputs]
  choices := rfl
  chosen i below := by
    unfold sampleOutputs sampleBaseOTs
    rw [Lists.map_range_getD _ _ below, List.getD_replicate _ below]

theorem extend_correct_sample : ∃ receiver' sender',
    extendRun sampleSeed (fun b => b.setWidth 160) ⟨[], .empty⟩ ⟨([], [])⟩ sampleBaseOTs
      sampleOutputs sampleInputs 130 (sampleSeed 7) (sampleSeed 8) = .ok (receiver', sender') ∧
    ExtendCorrect 130 receiver' sender' :=
  (extend_correct_iff sampleSeed (fun b => b.setWidth 160) samples_agree (by decide)
    (by decide) ⟨([], [])⟩ (sampleSeed 7) (sampleSeed 8)).mpr (by decide)

/-- One OT more than the condition allows. -/
theorem extend_fails_sample : 0 < 2 ^ 31 - 255 ∧
    BaseOTsAgree sampleBaseOTs sampleOutputs sampleInputs ∧
    ¬∃ receiver' sender', extendRun sampleSeed (fun b => b.setWidth 160) ⟨[], .empty⟩ ⟨([], [])⟩
        sampleBaseOTs sampleOutputs sampleInputs (2 ^ 31 - 255) (sampleSeed 7) (sampleSeed 8) =
          .ok (receiver', sender') ∧
      ExtendCorrect (2 ^ 31 - 255) receiver' sender' := by
  refine ⟨by decide, samples_agree, ?_⟩
  intro done
  obtain ⟨receiver', sender', run, _⟩ := done
  obtain ⟨fault, failed⟩ := extendRun_fails sampleSeed (fun b => b.setWidth 160)
    (show 2 ^ 31 - 256 < 2 ^ 31 - 255 by decide) ⟨[], .empty⟩ (by decide) ⟨([], [])⟩
    sampleBaseOTs sampleOutputs sampleInputs (sampleSeed 7) (sampleSeed 8)
  cases run.symm.trans failed

end BatchDualEx
