import BatchDualEx.PSI.Psi

/- What the bytes of `CommitSend` tell about the bits of the input block beyond the word
   size. `BitVector(data, length)` copies whole bytes, so the last byte may carry some. -/
namespace BatchDualEx

open Bytes BitVector Result

variable {Digest : Type}

def AgreeOn (w : Nat) (b b' : Block) : Prop := ∀ i < w, b.getLsbD i = b'.getLsbD i

def sent {σ ρ : Type} (run : Except Fault (σ × ρ)) : Except Fault ρ := run.map Prod.snd

theorem inputBits_spec (b : Block) {w : Nat} (word : w ≤ 128) :
    ∃ input, inputBits b w = .ok input ∧ input.mNumBits = w ∧
      ∀ i < 8 * input.sizeBytes, input.get i = b.getLsbD i := by
  obtain ⟨input, made, sized, read⟩ :=
    append_empty (byteArray b) 0 (show w + 8 < 2 ^ 31 by omega)
  refine ⟨input, made, sized, fun i inside => ?_⟩
  rw [read i inside, Nat.zero_add, bit_byteArray]
  simp

def Sized (n w : Nat) (permutes : List BitVector) : Prop :=
  permutes.length = n ∧ ∀ permute ∈ permutes, permute.mNumBits = w

theorem copyPermutes_sized {n w start : Nat} (word : w ≤ 128) {otRecv : I_OTExtReceiver}
    {permutes : List BitVector} (copied : copyPermutes n w otRecv start = .ok permutes) :
    Sized n w permutes := by
  obtain ⟨length, each⟩ := mapM_range_ok copied empty
  refine ⟨length, fun permute listed => ?_⟩
  obtain ⟨i, below, rfl⟩ := List.getElem_of_mem listed
  have made := each i (by omega)
  rw [List.getD_eq_getElem _ _ below, copy_empty] at made
  obtain ⟨copied, made', sized, _⟩ := append_empty otRecv.mChoiceBits.mData
    (start + i * w) (show w + 8 < 2 ^ 31 by omega)
  rw [made] at made'
  cases made'
  exact sized

/-- Two inputs give the same bytes exactly when they agree up to the end of the last byte. -/
theorem xorAssign_bytes_iff (permute input input' : BitVector) :
    (permute.xorAssign input).bytes = (permute.xorAssign input').bytes ↔
      ∀ i < 8 * permute.sizeBytes, input.get i = input'.get i := by
  have bits : (permute.xorAssign input).bytes = (permute.xorAssign input').bytes ↔
      ∀ i < 8 * permute.sizeBytes, (permute.xorAssign input).get i =
        (permute.xorAssign input').get i := bytes_eq_iff rfl
  rw [bits]
  constructor
  · intro same i inside
    have bit := same i inside
    rw [get_xorAssign _ inside, get_xorAssign _ inside] at bit
    exact Bool.xor_right_inj.mp bit
  · intro same i inside
    rw [get_xorAssign _ inside, get_xorAssign _ inside, same i inside]

theorem whole_bytes_iff {w : Nat} (word : w ≤ 128) :
    (∀ b b', AgreeOn w b b' → ∀ i < 8 * ((w + 7) / 8), b.getLsbD i = b'.getLsbD i) ↔ 8 ∣ w := by
  constructor
  · intro same
    by_contra padded
    have inside : w < 8 * ((w + 7) / 8) := by omega
    have agree : AgreeOn w 0 (BitVec.twoPow 128 w) := by
      intro i below
      simp [BitVec.getLsbD_twoPow, Nat.ne_of_gt below]
    have leaked := same _ _ agree w inside
    simp [BitVec.getLsbD_twoPow] at leaked
    omega
  · intro whole b b' agree i inside
    exact agree i (by omega)

theorem Sized.set {n w : Nat} {permutes : List BitVector} (sized : Sized n w permutes)
    (idx : Nat) {permute : BitVector} (size : permute.mNumBits = w) :
    Sized n w (permutes.set idx permute) := by
  refine ⟨List.length_set.trans sized.1, fun p listed => ?_⟩
  rcases List.mem_or_eq_of_mem_set listed with old | rfl
  · exact sized.2 p old
  · exact size

theorem maskInput_ok {w idx : Nat} {permutes after : List BitVector} {b : Block}
    {message : List Byte} (run : maskInput w permutes b idx = .ok (after, message)) :
    ∃ input permute, inputBits b w = .ok input ∧ permutes[idx]? = some permute ∧
      message = (permute.xorAssign input).bytes ∧
      after = permutes.set idx (permute.xorAssign input) := by
  obtain ⟨input, made, run⟩ := bind_ok run
  cases found : permutes[idx]? with
  | none =>
    rw [found] at run
    cases run
  | some permute =>
    rw [found] at run
    cases run
    exact ⟨input, permute, made, rfl, rfl, rfl⟩

theorem maskInput_eq {w idx : Nat} {permutes : List BitVector} {permute input : BitVector}
    (found : permutes[idx]? = some permute) {b : Block} (made : inputBits b w = .ok input) :
    maskInput w permutes b idx =
      .ok (permutes.set idx (permute.xorAssign input), (permute.xorAssign input).bytes) := by
  unfold maskInput
  simp only [made, found, bind, Except.bind]
  rfl

theorem maskInput_sized {n w idx : Nat} {permutes after : List BitVector} {b : Block}
    {message : List Byte} (run : maskInput w permutes b idx = .ok (after, message))
    (sized : Sized n w permutes) : Sized n w after := by
  obtain ⟨input, permute, _, found, _, rfl⟩ := maskInput_ok run
  exact sized.set idx (sized.2 permute (List.mem_of_getElem? found))

/-- The bytes are the same for any two blocks that agree on the word exactly when the word
    fills its bytes. -/
theorem maskInput_private_iff {n w idx : Nat} (word : w ≤ 128) {permutes : List BitVector}
    (sized : Sized n w permutes) (below : idx < n) :
    (∀ b b', AgreeOn w b b' →
      sent (maskInput w permutes b idx) = sent (maskInput w permutes b' idx)) ↔ 8 ∣ w := by
  obtain ⟨permute, found⟩ : ∃ permute, permutes[idx]? = some permute :=
    ⟨_, List.getElem?_eq_getElem (sized.1 ▸ below)⟩
  have bytes : permute.sizeBytes = (w + 7) / 8 := by
    rw [← sized.2 permute (List.mem_of_getElem? found)]
    rfl
  have pair (b b' : Block) :
      sent (maskInput w permutes b idx) = sent (maskInput w permutes b' idx) ↔
        ∀ i < 8 * ((w + 7) / 8), b.getLsbD i = b'.getLsbD i := by
    obtain ⟨input, made, size, read⟩ := inputBits_spec b word
    obtain ⟨input', made', size', read'⟩ := inputBits_spec b' word
    have inUse : input.sizeBytes = (w + 7) / 8 := by rw [← size]; rfl
    have inUse' : input'.sizeBytes = (w + 7) / 8 := by rw [← size']; rfl
    rw [inUse] at read
    rw [inUse'] at read'
    rw [maskInput_eq found made, maskInput_eq found made']
    change Except.ok _ = Except.ok _ ↔ _
    rw [Except.ok.injEq, xorAssign_bytes_iff, bytes]
    constructor
    · intro same i inside
      rw [← read i inside, same i inside, read' i inside]
    · intro same i inside
      rw [read i inside, same i inside, read' i inside]
  rw [← whole_bytes_iff word]
  constructor
  · intro same b b' agree
    exact (pair b b').mp (same b b' agree)
  · intro same b b' agree
    exact (pair b b').mpr (same b b' agree)

def PsiReceiver.afterSends (r : PsiReceiver Digest) (earlier : List (Block × Nat)) :
    Except Fault (PsiReceiver Digest) :=
  earlier.foldlM (fun r call => Prod.fst <$> r.CommitSend call.1 call.2) r

def AsyncPsiReceiver.afterSends (r : AsyncPsiReceiver) (earlier : List (Block × Nat)) :
    Except Fault AsyncPsiReceiver :=
  earlier.foldlM (fun r call => Prod.fst <$> r.CommitSend call.1 call.2) r

theorem PsiReceiver.commitSend_sent (r : PsiReceiver Digest) (b : Block) (idx : Nat) :
    sent (r.CommitSend b idx) = sent (maskInput r.mWordSize r.mMyPermute b idx) := by
  unfold CommitSend
  cases maskInput r.mWordSize r.mMyPermute b idx <;> rfl

theorem PsiReceiver.commitSend_sized {n w idx : Nat} {r r' : PsiReceiver Digest} {b : Block}
    (run : Prod.fst <$> r.CommitSend b idx = .ok r')
    (before : r.mWordSize = w ∧ Sized n w r.mMyPermute) :
    r'.mWordSize = w ∧ Sized n w r'.mMyPermute := by
  obtain ⟨rfl, sized⟩ := before
  unfold CommitSend at run
  cases masked : maskInput r.mWordSize r.mMyPermute b idx with
  | error fault =>
    rw [masked] at run
    cases run
  | ok result =>
    rw [masked] at run
    cases run
    exact ⟨rfl, maskInput_sized masked sized⟩

theorem PsiReceiver.afterSends_sized {n w : Nat} {r r' : PsiReceiver Digest}
    {earlier : List (Block × Nat)} (run : r.afterSends earlier = .ok r')
    (before : r.mWordSize = w ∧ Sized n w r.mMyPermute) :
    r'.mWordSize = w ∧ Sized n w r'.mMyPermute :=
  foldlM_ok (R := fun r r' : PsiReceiver Digest => r.mWordSize = w ∧ Sized n w r.mMyPermute →
    r'.mWordSize = w ∧ Sized n w r'.mMyPermute) (fun _ => id) (fun first second => second ∘ first)
    (fun _ _ _ _ => commitSend_sized) run before

theorem AsyncPsiReceiver.commitSend_sent (r : AsyncPsiReceiver) (b : Block) (idx : Nat) :
    sent (r.CommitSend b idx) = sent (maskInput r.mWordSize r.mMyPermute b idx) := by
  unfold CommitSend
  cases maskInput r.mWordSize r.mMyPermute b idx <;> rfl

theorem AsyncPsiReceiver.commitSend_sized {n w idx : Nat} {r r' : AsyncPsiReceiver} {b : Block}
    (run : Prod.fst <$> r.CommitSend b idx = .ok r')
    (before : r.mWordSize = w ∧ Sized n w r.mMyPermute) :
    r'.mWordSize = w ∧ Sized n w r'.mMyPermute := by
  obtain ⟨rfl, sized⟩ := before
  unfold CommitSend at run
  cases masked : maskInput r.mWordSize r.mMyPermute b idx with
  | error fault =>
    rw [masked] at run
    cases run
  | ok result =>
    rw [masked] at run
    cases run
    exact ⟨rfl, maskInput_sized masked sized⟩

theorem AsyncPsiReceiver.afterSends_sized {n w : Nat} {r r' : AsyncPsiReceiver}
    {earlier : List (Block × Nat)} (run : r.afterSends earlier = .ok r')
    (before : r.mWordSize = w ∧ Sized n w r.mMyPermute) :
    r'.mWordSize = w ∧ Sized n w r'.mMyPermute :=
  foldlM_ok (R := fun r r' : AsyncPsiReceiver => r.mWordSize = w ∧ Sized n w r.mMyPermute →
    r'.mWordSize = w ∧ Sized n w r'.mMyPermute) (fun _ => id) (fun first second => second ∘ first)
    (fun _ _ _ _ => commitSend_sized) run before

/-- Both receivers, for every index and after any earlier calls: the bytes sent are the same
    for any two blocks that agree on the word exactly when the word fills its bytes. -/
theorem commitSend_private_iff {n w idx : Nat} (word : w ≤ 128) (below : idx < n)
    (aesFixedKey : Block → Block) (otRecv : I_OTExtReceiver) (start : Nat)
    (earlier : List (Block × Nat)) :
    (∀ r : PsiReceiver Digest,
      (PsiReceiver.init aesFixedKey n w otRecv start >>= (·.afterSends earlier)) = .ok r →
        ((∀ b b', AgreeOn w b b' → sent (r.CommitSend b idx) = sent (r.CommitSend b' idx)) ↔
          8 ∣ w)) ∧
    ∀ r : AsyncPsiReceiver,
      (AsyncPsiReceiver.init n w otRecv start >>= (·.afterSends earlier)) = .ok r →
        ((∀ b b', AgreeOn w b b' → sent (r.CommitSend b idx) = sent (r.CommitSend b' idx)) ↔
          8 ∣ w) := by
  constructor
  · intro r run
    obtain ⟨r₀, started, run⟩ := bind_ok run
    obtain ⟨permutes, copied, started⟩ := bind_ok started
    cases started
    obtain ⟨rfl, sized⟩ :=
      PsiReceiver.afterSends_sized run ⟨rfl, copyPermutes_sized word copied⟩
    rw [← maskInput_private_iff word sized below]
    simp only [PsiReceiver.commitSend_sent]
  · intro r run
    obtain ⟨r₀, started, run⟩ := bind_ok run
    obtain ⟨permutes, copied, started⟩ := bind_ok started
    cases started
    obtain ⟨rfl, sized⟩ :=
      AsyncPsiReceiver.afterSends_sized run ⟨rfl, copyPermutes_sized word copied⟩
    rw [← maskInput_private_iff word sized below]
    simp only [AsyncPsiReceiver.commitSend_sent]

def zeroChoices : I_OTExtReceiver := ⟨BitVector.empty.reset 40, fun _ => zeroBlock⟩

theorem commitSend_private_forty : ∃ r : PsiReceiver Block,
    (PsiReceiver.init id 1 40 zeroChoices 0 >>= (·.afterSends [])) = .ok r ∧
      ∀ b b', AgreeOn 40 b b' → sent (r.CommitSend b 0) = sent (r.CommitSend b' 0) :=
  ⟨_, rfl, ((commitSend_private_iff (by decide) Nat.zero_lt_one id zeroChoices 0 []).1 _ rfl).mpr
    (by decide)⟩

/-- Four bits take one byte, whose upper half comes from the block. -/
theorem commitSend_leaks_four_bits :
    ¬∀ r : PsiReceiver Block, PsiReceiver.init id 1 4 zeroChoices 0 = .ok r →
      ∀ b b', AgreeOn 4 b b' → sent (r.CommitSend b 0) = sent (r.CommitSend b' 0) := by
  intro same
  have agree : AgreeOn 4 0 16 := by
    unfold AgreeOn
    decide
  have equal := same _ rfl 0 16 agree
  exact absurd equal (by decide)

end BatchDualEx
