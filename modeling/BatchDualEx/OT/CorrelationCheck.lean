import BatchDualEx.Lib.Challenge
import BatchDualEx.OT.OTExtCorrect
import BatchDualEx.OT.OTExtSenderSteps
import Mathlib.Data.FinEnum

/- The correlation check of the OT extension when the buffers or the values for the check are not
   those of the receiver. Wrong bits in a buffer reach the rows of the sender only where `delta` is
   set, and then the check catches them but for one challenge in `2^128`. -/
namespace BatchDualEx

open BinaryField Buffer WordXor

/-- The part of `Extend` of both parties from the seed of the sender on. -/
def finishRun (SHA1 : Block → BitVec 160) (common : Block → PRNG) (otCount : Nat)
    (r : OTExtReceiver.Extended) (s : OTExtSender.Extended) :
    Except Fault (OTExtReceiver × OTExtSender) := do
  let (receiver, seed, check) ← OTExtReceiver.finish common r otCount s.seed
  let sender ← OTExtSender.finish SHA1 common s seed check
  return (receiver, sender)

def flipped (sent u : List (List Block)) (i c : Nat) : Bool :=
  ((u.getD (i / 128) []).getD c zeroBlock ^^^
    (sent.getD (i / 128) []).getD c zeroBlock).getLsbD (i % 128)

/-- Row `i` is different in a column that the sender corrects. -/
def Touched (baseChoiceBits : BitVector) (sent u : List (List Block)) (i : Nat) : Prop :=
  ∃ c < 128, baseChoiceBits.get c = true ∧ flipped sent u i c = true

namespace OTExtSender

section Blocks

variable {e : Inputs} {k : Nat} {s : Loop}

structure Before (e : Inputs) (k : Nat) (s : Loop) : Prop where
  gens : s.gens = e.gensAt k
  done : s.atomicDoneIdx = min (128 * k) e.otCount
  stored : Stored e.SHA1 e.delta e.rowAt e.otCount (128 * k) s

theorem Inputs.readRow (gens : e.gens.length = 128) (k : Nat) {r : Nat} (row : r < 128) :
    Buffer.readAt Fault.undefined (eklundhTranspose128 (e.columnsAt k)) r =
      .ok (e.rowAt (128 * k + r)) := by
  have columns : (e.columnsAt k).length = 128 := by
    unfold Inputs.columnsAt Inputs.gensAt OTExtSender.columns
    rw [List.length_mapIdx, List.length_map, gens]
  have length := eklundhTranspose128_length columns
  rw [readAt_ok (by omega) zeroBlock]
  unfold Inputs.rowAt
  rw [show (128 * k + r) / 128 = k by omega, show (128 * k + r) % 128 = r by omega]

structure InBlock (e : Inputs) (k done i : Nat) (s : Loop) : Prop where
  gens : s.gens = e.gensAt k
  done : s.atomicDoneIdx = done
  stored : Stored e.SHA1 e.delta e.rowAt e.otCount i s

theorem Before.messages (sized : e.Sized) (more : k < numOTExt e.otCount / 128) {stopIdx done : Nat}
    (stop : stopIdx = min 128 (e.otCount - min (128 * k) e.otCount))
    (here : InBlock e (k + 1) done (128 * k) s) : ∃ s',
      (List.range' 0 stopIdx).foldlM
        (messageRow e.SHA1 e.delta (eklundhTranspose128 (e.columnsAt k))) s = .ok s' ∧
      InBlock e (k + 1) done (128 * k + stopIdx) s' := by
  have size := numOTExt_dvd e.otCount
  have each : ∀ row, 0 ≤ row → row < 0 + stopIdx → ∀ b,
      InBlock e (k + 1) done (128 * k + row) b →
      ∃ c, messageRow e.SHA1 e.delta (eklundhTranspose128 (e.columnsAt k)) b row = .ok c ∧
        InBlock e (k + 1) done (128 * k + (row + 1)) c := by
    intro row _ below b reached
    obtain ⟨c, run, next, gens, kept⟩ := messageRow_stored reached.stored (by omega) (by omega)
      (Inputs.readRow sized.gens k (show row < 128 by omega))
    exact ⟨c, run, gens.trans reached.gens, kept.trans reached.done, next⟩
  obtain ⟨s', run, last⟩ :=
    foldlM_range'_total (fun row => InBlock e (k + 1) done (128 * k + row)) each here
  rw [Nat.zero_add] at last
  exact ⟨s', run, last⟩

theorem Before.extras (sized : e.Sized) (more : k < numOTExt e.otCount / 128) {stopIdx done : Nat}
    (stop : stopIdx = min 128 (e.otCount - min (128 * k) e.otCount))
    (here : InBlock e (k + 1) done (128 * k + stopIdx) s) : ∃ s',
      (List.range' stopIdx (128 - stopIdx)).foldlM
        (extraRow (eklundhTranspose128 (e.columnsAt k))) s = .ok s' ∧
      InBlock e (k + 1) done (128 * (k + 1)) s' := by
  have size := numOTExt_dvd e.otCount
  have each : ∀ row, stopIdx ≤ row → row < stopIdx + (128 - stopIdx) → ∀ b,
      InBlock e (k + 1) done (128 * k + row) b →
      ∃ c, extraRow (eklundhTranspose128 (e.columnsAt k)) b row = .ok c ∧
        InBlock e (k + 1) done (128 * k + (row + 1)) c := by
    intro row _ below b reached
    obtain ⟨c, run, next, gens, kept⟩ := extraRow_stored reached.stored (by omega) (by omega)
      (Inputs.readRow sized.gens k (show row < 128 by omega))
    exact ⟨c, run, gens.trans reached.gens, kept.trans reached.done, next⟩
  obtain ⟨s', run, last⟩ :=
    foldlM_range'_total (fun row => InBlock e (k + 1) done (128 * k + row)) each here
  rw [show 128 * k + (stopIdx + (128 - stopIdx)) = 128 * (k + 1) by omega] at last
  exact ⟨s', run, last⟩

theorem Before.block (sized : e.Sized) (small : e.otCount < 2 ^ 59)
    (more : k < numOTExt e.otCount / 128) (here : Before e k s) : ∃ s',
      block e.SHA1 e.baseChoiceBits e.delta e.otCount e.u s k = .ok s' ∧ Before e (k + 1) s' := by
  have advanced : s.gens.map (fun gen => gen.getBlock.2) = e.gensAt (k + 1) := by
    rw [here.gens]
    unfold Inputs.gensAt
    rw [List.map_map]
    simp only [PRNG.skip_succ]
    rfl
  have drawn : InBlock e (k + 1) (min (128 * k) e.otCount) (128 * k)
      { s with gens := s.gens.map fun gen => gen.getBlock.2 } :=
    ⟨advanced, here.done, { here.stored with }⟩
  obtain ⟨middle, first, between⟩ := Before.messages sized more rfl drawn
  have published : InBlock e (k + 1) middle.dIdx
      (128 * k + min 128 (e.otCount - min (128 * k) e.otCount))
      { middle with atomicDoneIdx := middle.dIdx } :=
    ⟨between.gens, rfl, { between.stored with }⟩
  obtain ⟨s', second, last⟩ := Before.extras sized more rfl published
  have index : middle.dIdx = min (128 * (k + 1)) e.otCount := by
    rw [between.stored.index]
    omega
  have whole : ¬ (e.u.getD k []).length ≠ BASE_OT_COUNT := not_not.mpr (sized.received k more)
  have columns : columns e.baseChoiceBits s.gens (e.u.getD k []) = e.columnsAt k := by
    rw [here.gens]
    rfl
  refine ⟨s', ?_, last.gens, last.done.trans index, last.stored⟩
  unfold OTExtSender.block
  rw [here.done, stopIdx_eq small (Nat.min_le_right _ _)]
  simp only [if_neg whole, columns]
  simp only [here.done] at first
  rw [first]
  exact second

theorem Before.blocks (sized : e.Sized) (small : e.otCount < 2 ^ 59) (start : Before e 0 s) : ∃ s',
    (List.range' 0 (numOTExt e.otCount / 128)).foldlM
      (OTExtSender.block e.SHA1 e.baseChoiceBits e.delta e.otCount e.u) s = .ok s' ∧
      Before e (numOTExt e.otCount / 128) s' := by
  have each : ∀ k, 0 ≤ k → k < 0 + numOTExt e.otCount / 128 → ∀ b, Before e k b →
      ∃ c, OTExtSender.block e.SHA1 e.baseChoiceBits e.delta e.otCount e.u b k = .ok c ∧
        Before e (k + 1) c := by
    intro k _ below b reached
    exact Before.block sized small (by omega) reached
  obtain ⟨s', run, last⟩ := foldlM_range'_total (fun k => Before e k) each start
  rw [Nat.zero_add] at last
  exact ⟨s', run, last⟩

end Blocks

section
variable (setSeed : Block → PRNG) (SHA1 : Block → BitVec 160)

theorem Extend_stored {baseMessages : List Block} {baseChoiceBits : BitVector} {otCount : Nat}
    (small : otCount ≤ 2 ^ 31 - 256) {u : List (List Block)} (outputs : baseMessages.length = 128)
    (choices : baseChoiceBits.size = 128)
    (received : ∀ k < numOTExt otCount / 128, (u.getD k []).length = 128)
    (sender : OTExtSender) (prng : PRNG) (comm : BitVec 160) :
    let e : Inputs := ⟨SHA1, baseMessages.map setSeed, baseChoiceBits,
      baseChoiceBits.blockView 0, otCount, u⟩
    ∃ loop, sender.Extend SHA1 setSeed baseMessages baseChoiceBits otCount prng comm u =
        .ok ⟨comm, e.delta, prng.getBlock.1, loop⟩ ∧
      Before e (numOTExt otCount / 128) loop := by
  intro e
  have sized : e.Sized := ⟨(List.length_map _).trans outputs, received⟩
  have start : Before e 0
      { gens := baseMessages.map setSeed
        mMessages :=
          (sender.mMessages.1.takeD otCount zeroBlock, sender.mMessages.2.takeD otCount zeroBlock)
        correlatedMessages := List.replicate (numOTExt otCount) zeroBlock
        correlatedMessagesIter := 0
        dIdx := 0
        atomicDoneIdx := 0 } := {
    gens := (List.map_id _).symm
    done := (Nat.zero_min _).symm
    stored := {
      rows := List.length_replicate
      stored := filled_zero
      iter := rfl
      sized0 := List.takeD_length _ _ _
      sized1 := List.takeD_length _ _ _
      hashed0 := by rw [Nat.mul_zero, Nat.zero_min]; exact filled_zero
      hashed1 := by rw [Nat.mul_zero, Nat.zero_min]; exact filled_zero
      index := by rw [Nat.mul_zero, Nat.zero_min] } }
  obtain ⟨loop, run, last⟩ := Before.blocks sized (show otCount < 2 ^ 59 by omega) start
  have bits : baseChoiceBits.ToBlock = .ok e.delta := if_pos (Or.inl choices)
  refine ⟨loop, ?_, last⟩
  unfold OTExtSender.Extend
  rw [bits]
  change (List.foldlM (OTExtSender.block SHA1 baseChoiceBits e.delta otCount u) _
    (List.range' 0 (numOTExt otCount / 128)) >>= _) = _
  rw [run]
  rfl

end

theorem finish_ok_iff {SHA1 : Block → BitVec 160} {delta : Block} {row : Nat → Block}
    {otCount : Nat} {loop : Loop}
    (stored : Stored SHA1 delta row otCount (numOTExt otCount) loop) (common : Block → PRNG)
    (comm : BitVec 160) (seed theirSeed : Block) (check : OTExtReceiver.Check)
    (result : OTExtSender) :
    finish SHA1 common ⟨comm, delta, seed, loop⟩ theirSeed check = .ok result ↔
      SHA1 theirSeed = comm ∧
        (product check.x delta ^^^ xorSum (numOTExt otCount) fun i =>
          product (row i) ((common (seed ^^^ theirSeed)).nthBlock i)) = check.t2 ++ check.t ∧
        result = ⟨loop.mMessages⟩ := by
  unfold finish
  generalize common (seed ^^^ theirSeed) = g
  have sums : (List.range loop.correlatedMessages.length).foldl
      (checkStep loop.correlatedMessages) ((zeroBlock, zeroBlock), g) =
        (sumProducts (numOTExt otCount) row g, g.skip (numOTExt otCount)) := by
    rw [foldl_checkStep, stored.rows, sumProducts_congr stored.stored]
  have words : (product check.x delta ^^^ xorSum (numOTExt otCount) fun i =>
      product (row i) (g.nthBlock i)) =
        ((mul128 check.x delta).2 ^^^ (sumProducts (numOTExt otCount) row g).2) ++
          ((mul128 check.x delta).1 ^^^ (sumProducts (numOTExt otCount) row g).1) := by
    unfold product sumProducts
    rw [xorSum_append, BitVec.xor_append]
  have both (lo hi : Block) : hi ++ lo = check.t2 ++ check.t ↔ lo = check.t ∧ hi = check.t2 := by
    constructor
    · exact product_inj
    · intro same
      rw [same.1, same.2]
  rw [words, both]
  by_cases opened : SHA1 theirSeed = comm
  · rw [if_neg (not_not.mpr opened)]
    simp only [sums]
    generalize sumProducts (numOTExt otCount) row g = q
    by_cases passes : (mul128 check.x delta).1 ^^^ q.1 = check.t ∧
        (mul128 check.x delta).2 ^^^ q.2 = check.t2
    · rw [if_pos passes, Except.ok.injEq]
      exact ⟨fun same => ⟨opened, passes, same.symm⟩, fun same => same.2.2.symm⟩
    · rw [if_neg passes]
      exact ⟨nofun, fun same => absurd same.2.1 passes⟩
  · rw [if_pos opened]
    exact ⟨nofun, fun same => absurd same.1 opened⟩

end OTExtSender

section Errors

variable (sent u : List (List Block))

def errorAt (k : Nat) : List Block := (List.range 128).map fun c =>
  (u.getD k []).getD c zeroBlock ^^^ (sent.getD k []).getD c zeroBlock

def errorRowAt (i : Nat) : Block :=
  (eklundhTranspose128 (errorAt sent u (i / 128))).getD (i % 128) zeroBlock

theorem getLsbD_errorRowAt (i : Nat) {c : Nat} (column : c < 128) :
    (errorRowAt sent u i).getLsbD c = flipped sent u i c := by
  have sized : (errorAt sent u (i / 128)).length = 128 := by
    unfold errorAt
    rw [List.length_map, List.length_range]
  have bits := entry_eklundhTranspose128 sized (Nat.mod_lt i (by decide)) column
  unfold entry at bits
  unfold errorRowAt flipped
  rw [bits]
  unfold errorAt
  rw [Lists.map_range_getD _ _ column]

/-- A wrong row is seen at `delta` exactly where it is touched. -/
theorem errorRowAt_and_eq_zero (baseChoiceBits : BitVector) (i : Nat) :
    errorRowAt sent u i &&& baseChoiceBits.blockView 0 = 0#128 ↔
      ¬Touched baseChoiceBits sent u i := by
  have bit (c : Nat) (column : c < 128) :
      (errorRowAt sent u i &&& baseChoiceBits.blockView 0).getLsbD c =
        (flipped sent u i c && baseChoiceBits.get c) := by
    rw [BitVec.getLsbD_and, getLsbD_errorRowAt sent u i column,
      BitVector.getLsbD_blockView _ 0 column, Nat.mul_zero, Nat.zero_add]
  constructor
  · intro none touched
    obtain ⟨c, column, chosen, differs⟩ := touched
    have here := bit c column
    rw [none, chosen, differs, BitVec.getLsbD_zero] at here
    cases here
  · intro untouched
    apply BitVec.eq_of_getLsbD_eq
    intro c column
    rw [bit c column, BitVec.getLsbD_zero]
    by_contra both
    rw [Bool.not_eq_false, Bool.and_eq_true] at both
    exact untouched ⟨c, column, both.2, both.1⟩

end Errors

section Rows

theorem columns_error (baseChoiceBits : BitVector) (gens : List PRNG) (sent u : List Block)
    {c : Nat} (column : c < gens.length) :
    (OTExtSender.columns baseChoiceBits gens u).getD c zeroBlock =
      (OTExtSender.columns baseChoiceBits gens sent).getD c zeroBlock ^^^
        select (baseChoiceBits.get c) (u.getD c zeroBlock ^^^ sent.getD c zeroBlock) := by
  have inside : c < (gens.mapIdx fun colIdx gen =>
      if baseChoiceBits.get colIdx then gen.getBlock.1 ^^^ sent.getD colIdx zeroBlock
      else gen.getBlock.1).length := by rwa [List.length_mapIdx]
  have inside' : c < (gens.mapIdx fun colIdx gen =>
      if baseChoiceBits.get colIdx then gen.getBlock.1 ^^^ u.getD colIdx zeroBlock
      else gen.getBlock.1).length := by rwa [List.length_mapIdx]
  unfold OTExtSender.columns
  rw [List.getD_eq_getElem _ _ inside, List.getD_eq_getElem _ _ inside', List.getElem_mapIdx,
    List.getElem_mapIdx]
  cases baseChoiceBits.get c
  · simp
  · simp only [if_true, select_true, BitVec.xor_assoc, xor_left_comm (sent.getD c zeroBlock),
      BitVec.xor_self, BitVec.xor_zero]

namespace ExtendInputs

variable (e : ExtendInputs) (u : List (List Block))

def allSent : List (List Block) := (List.range (numOTExt e.otCount / 128)).map e.sentAt

def receiving : OTExtSender.Inputs :=
  ⟨e.SHA1, e.baseMessages.map e.setSeed, e.baseChoiceBits, e.delta, e.otCount, u⟩

variable {e u}

theorem gensAt_receiving (k : Nat) : (e.receiving u).gensAt k = e.senderGens k := by
  unfold receiving OTExtSender.Inputs.gensAt senderGens
  rw [List.map_map]
  rfl

theorem rowAt_receiving (agree : BaseOTsAgree e.baseOTs e.baseMessages e.baseChoiceBits) {i : Nat}
    (below : i < numOTExt e.otCount) :
    (e.receiving u).rowAt i = e.senderRowAt i ^^^ (errorRowAt e.allSent u i &&& e.delta) := by
  have row : i % 128 < 128 := Nat.mod_lt i (by decide)
  have block : i / 128 < numOTExt e.otCount / 128 := by
    have size := numOTExt_dvd e.otCount
    omega
  have sent : e.allSent.getD (i / 128) [] = e.sentAt (i / 128) := Lists.map_range_getD _ _ block
  have gens : (e.senderGens (i / 128)).length = 128 := by
    unfold senderGens
    rw [List.length_map, agree.outputs]
  have sized : ((e.receiving u).columnsAt (i / 128)).length = 128 := by
    unfold OTExtSender.Inputs.columnsAt OTExtSender.columns
    rw [List.length_mapIdx, gensAt_receiving, gens]
  apply BitVec.eq_of_getLsbD_eq
  intro c column
  have wrong := entry_eklundhTranspose128 sized row column
  have right := entry_eklundhTranspose128 (columns_length agree (i / 128)) row column
  have honest := transposed_columns agree (i / 128) row
  rw [Nat.div_add_mod] at honest
  unfold entry at wrong right
  rw [honest] at right
  have delta := e.baseChoiceBits.getLsbD_blockView 0 column
  rw [Nat.mul_zero, Nat.zero_add] at delta
  have differs := columns_error e.baseChoiceBits (e.senderGens (i / 128)) (e.sentAt (i / 128))
    (u.getD (i / 128) []) (show c < (e.senderGens (i / 128)).length by omega)
  unfold OTExtSender.Inputs.rowAt
  rw [wrong, BitVec.getLsbD_xor, right, BitVec.getLsbD_and, getLsbD_errorRowAt _ _ i column]
  unfold OTExtSender.Inputs.columnsAt flipped ExtendInputs.delta
  rw [gensAt_receiving, delta, sent]
  change ((OTExtSender.columns e.baseChoiceBits (e.senderGens (i / 128))
    (u.getD (i / 128) [])).getD c zeroBlock).getLsbD (i % 128) = _
  rw [differs, BitVec.getLsbD_xor]
  cases e.baseChoiceBits.get c <;> simp

end ExtendInputs

end Rows

theorem product_xor (a b c : Block) : product (a ^^^ b) c = product a c ^^^ product b c := by
  have words (a b : Block) : ofWord (product a b) = ofWord a * ofWord b := ofWord_mul128 a b
  apply ofWord_injective
  rw [ofWord_xor, words, words, words, ofWord_xor, add_mul]

theorem product_zero (b : Block) : product (0#128) b = 0#(128 + 128) := by
  have self := product_xor (0#128) (0#128) b
  rwa [BitVec.xor_self, BitVec.xor_self] at self

section Accepted

variable {e : ExtendInputs}

/-- The check on rows with errors is the check on the errors alone, by what is announced besides the
    values of the receiver. -/
theorem ExtendInputs.check_iff (error : Nat → Block) (g : PRNG) (check : OTExtReceiver.Check) :
    (product check.x e.delta ^^^ xorSum (numOTExt e.otCount) fun i =>
        product (e.senderRowAt i ^^^ error i) (g.nthBlock i)) = check.t2 ++ check.t ↔
      (product (check.x ^^^ (e.checkOf g).x) e.delta ^^^ xorSum (numOTExt e.otCount) fun i =>
          product (error i) (g.nthBlock i)) =
        (check.t2 ^^^ (e.checkOf g).t2) ++ (check.t ^^^ (e.checkOf g).t) := by
  have honest := product_check (numOTExt e.otCount) g.nthBlock e.rowAt e.choices.get e.delta
  have announced : (e.checkOf g).t2 ++ (e.checkOf g).t =
      xorSum (numOTExt e.otCount) fun i => product (e.rowAt i) (g.nthBlock i) :=
    (xorSum_append _ _ _).symm
  have x : (e.checkOf g).x =
      xorSum (numOTExt e.otCount) fun i => select (e.choices.get i) (g.nthBlock i) := rfl
  have rows : (xorSum (numOTExt e.otCount) fun i =>
      product (e.senderRowAt i ^^^ error i) (g.nthBlock i)) =
        (xorSum (numOTExt e.otCount) fun i => product (e.senderRowAt i) (g.nthBlock i)) ^^^
          xorSum (numOTExt e.otCount) fun i => product (error i) (g.nthBlock i) := by
    rw [← xorSum_xor]
    simp only [product_xor]
  have senderRows : (xorSum (numOTExt e.otCount) fun i =>
      product (e.rowAt i ^^^ select (e.choices.get i) e.delta) (g.nthBlock i)) =
        xorSum (numOTExt e.otCount) fun i => product (e.senderRowAt i) (g.nthBlock i) := rfl
  rw [rows, ← BitVec.xor_append, announced, ← honest, ← x, product_xor, senderRows]
  generalize product check.x e.delta = a
  generalize product (e.checkOf g).x e.delta = b
  generalize (xorSum (numOTExt e.otCount) fun i =>
    product (e.senderRowAt i) (g.nthBlock i)) = rows
  generalize (xorSum (numOTExt e.otCount) fun i => product (error i) (g.nthBlock i)) = errors
  have moved : a ^^^ (rows ^^^ errors) ^^^ (b ^^^ rows) = a ^^^ b ^^^ errors := by
    simp only [BitVec.xor_assoc, xor_left_comm rows, xor_left_comm errors, BitVec.xor_comm errors,
      xor_cancel_left]
  rw [← moved, BitVec.xor_left_inj]

section
variable {k : Nat} {rLoop : OTExtReceiver.Loop}
  (stored : OTExtReceiver.At e k (numOTExt e.otCount) rLoop)
  (enough : e.choices.mNumBits = numOTExt e.otCount) (small : e.otCount ≤ 2 ^ 31 - 256)
include stored enough small

/-- The values for the check may come from any generator. -/
theorem OTExtReceiver.finish_announces : ∃ mChoiceBits : BitVector,
    mChoiceBits.size = e.otCount ∧ mChoiceBits.mData = e.choices.mData ∧
      ∀ (common : Block → PRNG) (seed theirSeed : Block),
        finish common ⟨e.choices, seed, rLoop⟩ e.otCount theirSeed =
          .ok (⟨rLoop.mMessages, mChoiceBits⟩, seed, e.checkOf (common (seed ^^^ theirSeed))) := by
  have room : (e.otCount + 7) / 8 ≤ e.choices.mData.length := by
    have fits := e.choices.fits
    rw [enough] at fits
    unfold numOTExt at fits
    omega
  have resized := BitVector.resize_within (show e.otCount + 8 < 2 ^ 31 by omega) room
  have kept : rLoop.mMessages.takeD e.otCount zeroBlock = rLoop.mMessages := by
    apply Lists.ext_getD zeroBlock
    · rw [List.takeD_length, stored.sized]
    · intro w below
      exact Lists.getD_takeD _ _ _ (by rwa [List.takeD_length] at below)
  have check (g : PRNG) : (List.range rLoop.correlatedMessages.length).foldl
      (checkStep e.choices rLoop.correlatedMessages) (⟨zeroBlock, zeroBlock, zeroBlock⟩, g) =
        (e.checkOf g, g.skip (numOTExt e.otCount)) := by
    rw [foldl_checkStep, stored.rows, sumProducts_congr stored.stored]
    rfl
  refine ⟨⟨e.choices.mData, e.otCount, room⟩, rfl, rfl, fun common seed theirSeed => ?_⟩
  unfold finish
  simp only [check, resized, kept, bind, Except.bind]
  rfl

end

theorem ExtendInputs.finishRun_ok_iff {rLoop : OTExtReceiver.Loop} {sLoop : OTExtSender.Loop}
    {row error : Nat → Block} {mChoiceBits : BitVector}
    (announces : ∀ (common : Block → PRNG) (seed theirSeed : Block),
      OTExtReceiver.finish common ⟨e.choices, seed, rLoop⟩ e.otCount theirSeed =
        .ok (⟨rLoop.mMessages, mChoiceBits⟩, seed, e.checkOf (common (seed ^^^ theirSeed))))
    (stored : OTExtSender.Stored e.SHA1 e.delta row e.otCount (numOTExt e.otCount) sLoop)
    (wrong : ∀ i < numOTExt e.otCount, row i = e.senderRowAt i ^^^ error i)
    (common : Block → PRNG) (seed seed' : Block) (result : OTExtReceiver × OTExtSender) :
    finishRun e.SHA1 common e.otCount ⟨e.choices, seed, rLoop⟩
        ⟨e.SHA1 seed, e.delta, seed', sLoop⟩ = .ok result ↔
      (xorSum (numOTExt e.otCount) fun i =>
        product (error i) ((common (seed' ^^^ seed)).nthBlock i)) = 0#(128 + 128) ∧
        result = (⟨rLoop.mMessages, mChoiceBits⟩, ⟨sLoop.mMessages⟩) := by
  let check := e.checkOf (common (seed' ^^^ seed))
  have accepts (result : OTExtSender) :=
    OTExtSender.finish_ok_iff stored common (e.SHA1 seed) seed' seed check result
  have rows : (xorSum (numOTExt e.otCount) fun i =>
      product (row i) ((common (seed' ^^^ seed)).nthBlock i)) =
        xorSum (numOTExt e.otCount) fun i =>
          product (e.senderRowAt i ^^^ error i) ((common (seed' ^^^ seed)).nthBlock i) :=
    xorSum_congr fun i below => by rw [wrong i below]
  rw [rows, ExtendInputs.check_iff, BitVec.xor_self, BitVec.xor_self, BitVec.xor_self,
    product_zero, BitVec.zero_xor, BitVec.zero_append_zero] at accepts
  unfold finishRun
  rw [announces, BitVec.xor_comm seed seed']
  simp only [bind, Except.bind]
  cases run : OTExtSender.finish e.SHA1 common ⟨e.SHA1 seed, e.delta, seed', sLoop⟩ seed check with
  | error fault =>
    refine ⟨nofun, fun passes => ?_⟩
    have passed := (accepts _).mpr ⟨rfl, passes.1, rfl⟩
    cases run.symm.trans passed
  | ok sender =>
    obtain ⟨-, passes, same⟩ := (accepts sender).mp run
    rw [same]
    exact ⟨fun done => ⟨passes, (Except.ok.inj done).symm⟩,
      fun done => congrArg Except.ok done.2.symm⟩

theorem ExtendInputs.correct_of_rows {k : Nat} {rLoop : OTExtReceiver.Loop}
    {sLoop : OTExtSender.Loop} {row : Nat → Block} {mChoiceBits : BitVector}
    (received : OTExtReceiver.At e k (numOTExt e.otCount) rLoop)
    (sent : OTExtSender.Stored e.SHA1 e.delta row e.otCount (numOTExt e.otCount) sLoop)
    (rows : ∀ i < numOTExt e.otCount, row i = e.senderRowAt i)
    (size : mChoiceBits.size = e.otCount) (kept : mChoiceBits.mData = e.choices.mData) :
    ExtendCorrect e.otCount ⟨rLoop.mMessages, mChoiceBits⟩ ⟨sLoop.mMessages⟩ := by
  refine ⟨received.sized, sent.sized0, sent.sized1, size, fun i below => ?_⟩
  have all := otCount_le e.otCount
  have reached : i < min (numOTExt e.otCount) e.otCount := by omega
  have message := received.hashed i reached
  have sent0 := sent.hashed0 i reached
  have sent1 := sent.hashed1 i reached
  have choice : mChoiceBits.get i = e.choices.get i := congrArg (Bytes.bit · i) kept
  unfold OTExtReceiver.GetMessage OTExtSender.GetMessage
  simp only [rows i (by omega)] at sent0 sent1
  unfold ExtendInputs.senderRowAt at sent0 sent1
  rw [choice, message]
  cases chosen : e.choices.get i
  · simp only [chosen, select_false, BitVec.xor_zero] at sent0
    exact sent0.symm
  · simp only [chosen, select_true, BitVec.xor_assoc, BitVec.xor_self, BitVec.xor_zero] at sent1
    exact sent1.symm

end Accepted

def acceptedChallenges (SHA1 : Block → BitVec 160) (otCount : Nat) (r : OTExtReceiver.Extended)
    (s : OTExtSender.Extended) : Set (Fin (numOTExt otCount) → Block) :=
  {χ | ∃ common : Block → PRNG,
    (∀ i : Fin (numOTExt otCount), (common (s.seed ^^^ r.seed)).nthBlock i = χ i) ∧
    ∃ result, finishRun SHA1 common otCount r s = .ok result}

section
variable (setSeed : Block → PRNG) (SHA1 : Block → BitVec 160) {baseOTs : List (Block × Block)}
  {baseMessages : List Block} {baseChoiceBits : BitVector} {otCount : Nat}

/-- Both parties up to the seed of the sender, with any buffers of 128 blocks between them, and what
    the rest of the run does. -/
theorem extended_finishRun (agree : BaseOTsAgree baseOTs baseMessages baseChoiceBits)
    (small : otCount ≤ 2 ^ 31 - 256) (receiver : OTExtReceiver) (sender : OTExtSender)
    (prng prng' : PRNG) {u : List (List Block)}
    (received : ∀ k < numOTExt otCount / 128, (u.getD k []).length = 128) :
    ∃ r comm s result, receiver.Extend SHA1 setSeed baseOTs otCount prng = .ok (r, comm) ∧
      sender.Extend SHA1 setSeed baseMessages baseChoiceBits otCount prng' comm u = .ok s ∧
      (∀ common result', finishRun SHA1 common otCount r s = .ok result' ↔
        (xorSum (numOTExt otCount) fun i =>
          product (errorRowAt r.loop.sent u i &&& baseChoiceBits.blockView 0)
            ((common (s.seed ^^^ r.seed)).nthBlock i)) = 0#(128 + 128) ∧ result' = result) ∧
      ((∀ i < numOTExt otCount, ¬Touched baseChoiceBits r.loop.sent u i) →
        ExtendCorrect otCount result.1 result.2) := by
  obtain ⟨choices, seed, rLoop, first, enough, -, stored⟩ :=
    OTExtReceiver.extend_ok setSeed SHA1 agree small receiver prng
  let e : ExtendInputs :=
    ⟨setSeed, SHA1, baseOTs, baseMessages, baseChoiceBits, choices, otCount⟩
  obtain ⟨sLoop, second, last⟩ := OTExtSender.Extend_stored setSeed SHA1 small agree.outputs
    agree.choices received sender prng' (SHA1 seed)
  obtain ⟨mChoiceBits, size, kept, announces⟩ :=
    OTExtReceiver.finish_announces stored enough small
  have sent : rLoop.sent = e.allSent := stored.sent
  have rows : OTExtSender.Stored SHA1 e.delta (e.receiving u).rowAt otCount (numOTExt otCount)
      sLoop := by
    have all := last.stored
    rw [numOTExt_dvd] at all
    exact all
  have wrong : ∀ i < numOTExt otCount, (e.receiving u).rowAt i =
      e.senderRowAt i ^^^ (errorRowAt rLoop.sent u i &&& e.delta) := by
    intro i below
    rw [sent]
    exact ExtendInputs.rowAt_receiving agree below
  refine ⟨_, _, _, (⟨rLoop.mMessages, mChoiceBits⟩, ⟨sLoop.mMessages⟩), first, second, ?_, ?_⟩
  · intro common result'
    exact ExtendInputs.finishRun_ok_iff announces rows wrong common seed prng'.getBlock.1 result'
  · intro untouched
    apply ExtendInputs.correct_of_rows stored rows _ size kept
    intro i below
    have none : errorRowAt rLoop.sent u i &&& e.delta = 0#128 :=
      (errorRowAt_and_eq_zero rLoop.sent u baseChoiceBits i).mpr (untouched i below)
    rw [wrong i below, none, BitVec.xor_zero]

theorem acceptedChallenges_card_le {r : OTExtReceiver.Extended} {s : OTExtSender.Extended}
    {error : Nat → Block}
    (passes : ∀ common result, finishRun SHA1 common otCount r s = .ok result →
      (xorSum (numOTExt otCount) fun i =>
        product (error i) ((common (s.seed ^^^ r.seed)).nthBlock i)) = 0#(128 + 128))
    {j : Nat} (below : j < numOTExt otCount) (wrong : error j ≠ 0#128) :
    Nat.card (acceptedChallenges SHA1 otCount r s) ≤ (2 ^ 128) ^ (numOTExt otCount - 1) := by
  have linear : acceptedChallenges SHA1 otCount r s ⊆
      {χ | ∑ i : Fin (numOTExt otCount), ofWord (error i) * ofWord (χ i) = 0} := by
    intro χ accepted
    obtain ⟨common, drawn, result, run⟩ := accepted
    have zero := congrArg ofWord (passes common result run)
    have words (i : Fin (numOTExt otCount)) :
        ofWord (product (error i) ((common (s.seed ^^^ r.seed)).nthBlock i)) =
          ofWord (error i) * ofWord (χ i) := by
      rw [drawn i]
      exact ofWord_mul128 _ _
    rw [ofWord_xorSum, ofWord_zero, Finset.sum_range] at zero
    rw [Set.mem_ofPred_eq, ← zero]
    exact Finset.sum_congr rfl fun i _ => (words i).symm
  have nonzero : ofWord (error j) ≠ 0 := by
    intro zero
    exact wrong (ofWord_injective (zero.trans ofWord_zero.symm))
  have challenges : Nat.card Block = 2 ^ 128 := by
    rw [Nat.card_eq_fintype_card, ← FinEnum.card_eq_fintypeCard]
    exact FinEnum.card_bitVec 128
  rw [← challenges]
  exact (Nat.card_mono (Set.toFinite _) linear).trans
    (Challenge.card_linear_le ofWord_injective (j := ⟨j, below⟩) nonzero)

/-- Buffers that differ from those of the receiver are no harm where the sender does not correct,
    and else but one in `2^128` of the sequences of challenges makes the sender stop. -/
theorem tampered_run (agree : BaseOTsAgree baseOTs baseMessages baseChoiceBits)
    (small : otCount ≤ 2 ^ 31 - 256) (receiver : OTExtReceiver) (sender : OTExtSender)
    (prng prng' : PRNG) {u : List (List Block)}
    (received : ∀ k < numOTExt otCount / 128, (u.getD k []).length = 128) :
    ∃ r comm s, receiver.Extend SHA1 setSeed baseOTs otCount prng = .ok (r, comm) ∧
      sender.Extend SHA1 setSeed baseMessages baseChoiceBits otCount prng' comm u = .ok s ∧
      ((∀ i < numOTExt otCount, ¬Touched baseChoiceBits r.loop.sent u i) →
        ∀ common, ∃ receiver' sender',
          finishRun SHA1 common otCount r s = .ok (receiver', sender') ∧
            ExtendCorrect otCount receiver' sender') ∧
      ((∃ i < numOTExt otCount, Touched baseChoiceBits r.loop.sent u i) →
        Nat.card (acceptedChallenges SHA1 otCount r s) ≤ (2 ^ 128) ^ (numOTExt otCount - 1)) := by
  obtain ⟨r, comm, s, result, first, second, accepts, correct⟩ :=
    extended_finishRun setSeed SHA1 agree small receiver sender prng prng' received
  refine ⟨r, comm, s, first, second, fun untouched common => ?_, fun touched => ?_⟩
  · have zero : ∀ i < numOTExt otCount,
        product (errorRowAt r.loop.sent u i &&& baseChoiceBits.blockView 0)
          ((common (s.seed ^^^ r.seed)).nthBlock i) = 0#(128 + 128) := by
      intro i below
      rw [(errorRowAt_and_eq_zero r.loop.sent u baseChoiceBits i).mpr (untouched i below)]
      exact product_zero _
    exact ⟨result.1, result.2, (accepts common result).mpr ⟨xorSum_eq_zero zero, rfl⟩,
      correct untouched⟩
  · obtain ⟨j, below, here⟩ := touched
    apply acceptedChallenges_card_le SHA1
      (fun common result' run => ((accepts common result').mp run).1) below
    intro none
    exact (errorRowAt_and_eq_zero r.loop.sent u baseChoiceBits j).mp none here

theorem tampered_run_sample : ∃ r comm s,
    OTExtReceiver.Extend (fun b => b.setWidth 160) sampleSeed ⟨[], .empty⟩ sampleBaseOTs 130
        (sampleSeed 7) = .ok (r, comm) ∧
      OTExtSender.Extend (fun b => b.setWidth 160) sampleSeed ⟨([], [])⟩ sampleOutputs sampleInputs
        130 (sampleSeed 8) comm (List.replicate 3 (List.replicate 128 5)) = .ok s ∧
      ((∀ i < numOTExt 130,
          ¬Touched sampleInputs r.loop.sent (List.replicate 3 (List.replicate 128 5)) i) →
        ∀ common, ∃ receiver' sender',
          finishRun (fun b => b.setWidth 160) common 130 r s = .ok (receiver', sender') ∧
            ExtendCorrect 130 receiver' sender') ∧
      ((∃ i < numOTExt 130,
          Touched sampleInputs r.loop.sent (List.replicate 3 (List.replicate 128 5)) i) →
        Nat.card (acceptedChallenges (fun b => b.setWidth 160) 130 r s) ≤
          (2 ^ 128) ^ (numOTExt 130 - 1)) :=
  tampered_run sampleSeed (fun b => b.setWidth 160) samples_agree (by decide) ⟨[], .empty⟩
    ⟨([], [])⟩ (sampleSeed 7) (sampleSeed 8) fun k below => by
      rw [List.getD_replicate _ (show k < 3 from below), List.length_replicate]

theorem check_ext {check own : OTExtReceiver.Check} (x : check.x = own.x) (t : check.t = own.t)
    (t2 : check.t2 = own.t2) : check = own := by
  cases check
  cases own
  simp only at x t t2
  rw [x, t, t2]

theorem product_bits {x : Block} (nonzero : x ≠ 0#128) {bits bits' : BitVector}
    (same : product x (bits.blockView 0) = product x (bits'.blockView 0)) :
    ∀ c < 128, bits.get c = bits'.get c := by
  have words (b : Block) : ofWord (product x b) = ofWord x * ofWord b := ofWord_mul128 x b
  have factor : ofWord x ≠ 0 := by
    intro zero
    exact nonzero (ofWord_injective (zero.trans ofWord_zero.symm))
  have products := congrArg ofWord same
  rw [words, words] at products
  have deltas := ofWord_injective (mul_left_cancel₀ factor products)
  intro c column
  have bit := congrArg (BitVec.getLsbD · c) deltas
  simp only [BitVector.getLsbD_blockView _ 0 column, Nat.mul_zero, Nat.zero_add] at bit
  exact bit

/-- The sender accepts these values for the check after these buffers. -/
def Accepts (common : Block → PRNG) (sender : OTExtSender) (baseMessages : List Block)
    (baseChoiceBits : BitVector) (otCount : Nat) (prng : PRNG) (comm : BitVec 160)
    (u : List (List Block)) (theirSeed : Block) (check : OTExtReceiver.Check) : Prop :=
  ∃ s result, sender.Extend SHA1 setSeed baseMessages baseChoiceBits otCount prng comm u = .ok s ∧
    OTExtSender.finish SHA1 common s theirSeed check = .ok result

/-- After the buffers of the receiver, what is announced besides its own values must be the product
    of `delta` with what is announced besides its own `x`. -/
theorem accepts_iff (small : otCount ≤ 2 ^ 31 - 256)
    (agree : BaseOTsAgree baseOTs baseMessages baseChoiceBits) (choices : BitVector)
    (sender : OTExtSender) (common : Block → PRNG) (prng : PRNG) (seed : Block)
    (check : OTExtReceiver.Check) :
    let e : ExtendInputs :=
      ⟨setSeed, SHA1, baseOTs, baseMessages, baseChoiceBits, choices, otCount⟩
    let own := e.checkOf (common (prng.getBlock.1 ^^^ seed))
    Accepts setSeed SHA1 common sender baseMessages baseChoiceBits otCount prng (SHA1 seed)
        e.allSent seed check ↔
      product (check.x ^^^ own.x) e.delta = (check.t2 ^^^ own.t2) ++ (check.t ^^^ own.t) := by
  intro e own
  obtain ⟨loop, run, last⟩ := OTExtSender.extend_ok setSeed SHA1 small choices agree sender prng
    (SHA1 seed)
  have stored := (OTExtSender.at_iff.mp last).2
  have passes (result : OTExtSender) := OTExtSender.finish_ok_iff stored common (SHA1 seed)
    prng.getBlock.1 seed check result
  have errors := ExtendInputs.check_iff (e := e) (fun _ => 0#128)
    (common (prng.getBlock.1 ^^^ seed)) check
  simp only [BitVec.xor_zero, product_zero] at errors
  rw [xorSum_eq_zero fun _ _ => rfl, BitVec.xor_zero] at errors
  rw [← errors]
  constructor
  · intro accepted
    obtain ⟨s, result, run', finished⟩ := accepted
    cases run.symm.trans run'
    exact ((passes result).mp finished).2.1
  · intro same
    exact ⟨_, _, run, (passes _).mpr ⟨rfl, same, rfl⟩⟩

/-- Values for the check other than its own are accepted for one `delta` at most: who announces them
    has to know it. -/
theorem announcement_guesses {baseMessages' : List Block} {baseChoiceBits' : BitVector}
    (agree : BaseOTsAgree baseOTs baseMessages baseChoiceBits)
    (agree' : BaseOTsAgree baseOTs baseMessages' baseChoiceBits')
    (small : otCount ≤ 2 ^ 31 - 256) (receiver : OTExtReceiver) (prng prng' : PRNG) :
    ∃ r comm, receiver.Extend SHA1 setSeed baseOTs otCount prng = .ok (r, comm) ∧
      ∀ common, ∃ receiver' own,
        OTExtReceiver.finish common r otCount prng'.getBlock.1 = .ok (receiver', r.seed, own) ∧
        ∀ sender sender' check,
          Accepts setSeed SHA1 common sender baseMessages baseChoiceBits otCount prng' comm
            r.loop.sent r.seed check →
          Accepts setSeed SHA1 common sender' baseMessages' baseChoiceBits' otCount prng' comm
            r.loop.sent r.seed check →
          check = own ∨ ∀ c < 128, baseChoiceBits.get c = baseChoiceBits'.get c := by
  obtain ⟨choices, seed, rLoop, first, enough, -, stored⟩ :=
    OTExtReceiver.extend_ok setSeed SHA1 agree small receiver prng
  let e : ExtendInputs :=
    ⟨setSeed, SHA1, baseOTs, baseMessages, baseChoiceBits, choices, otCount⟩
  obtain ⟨mChoiceBits, -, -, announces⟩ := OTExtReceiver.finish_announces stored enough small
  have sent : rLoop.sent = e.allSent := stored.sent
  refine ⟨⟨choices, seed, rLoop⟩, SHA1 seed, first, fun common => ?_⟩
  refine ⟨_, _, announces common seed prng'.getBlock.1, ?_⟩
  intro sender sender' check accepts accepts'
  rw [sent] at accepts accepts'
  rw [BitVec.xor_comm seed]
  have left := (accepts_iff setSeed SHA1 small agree choices sender common prng' seed check).mp
    accepts
  have right := (accepts_iff setSeed SHA1 small agree' choices sender' common prng' seed check).mp
    accepts'
  change product (check.x ^^^ (e.checkOf (common (prng'.getBlock.1 ^^^ seed))).x)
    (baseChoiceBits'.blockView 0) = (check.t2 ^^^
      (e.checkOf (common (prng'.getBlock.1 ^^^ seed))).t2)
      ++ (check.t ^^^ (e.checkOf (common (prng'.getBlock.1 ^^^ seed))).t) at right
  generalize e.checkOf (common (prng'.getBlock.1 ^^^ seed)) = own at left right
  by_cases sameX : check.x = own.x
  · left
    rw [sameX, BitVec.xor_self, product_zero, ← BitVec.zero_append_zero] at left
    obtain ⟨t, t2⟩ := product_inj left
    exact check_ext sameX (BitVec.xor_eq_zero_iff.mp t.symm) (BitVec.xor_eq_zero_iff.mp t2.symm)
  · right
    exact product_bits (fun zero => sameX (BitVec.xor_eq_zero_iff.mp zero)) (left.trans right.symm)

end

def sampleNone : BitVector := ⟨List.replicate 16 0, 128, by decide⟩

theorem sampleNone_agree : BaseOTsAgree sampleBaseOTs (List.replicate 128 0) sampleNone where
  inputs := List.length_replicate
  outputs := List.length_replicate
  choices := rfl
  chosen i below := by
    have clear : sampleNone.get i = false := by
      have all : ∀ i < 128, sampleNone.get i = false := by decide
      exact all i below
    unfold sampleBaseOTs
    rw [clear, List.getD_replicate _ below, List.getD_replicate _ below]
    rfl

theorem announcement_guesses_sample : ∃ r comm,
    OTExtReceiver.Extend (fun b => b.setWidth 160) sampleSeed ⟨[], .empty⟩ sampleBaseOTs 130
        (sampleSeed 7) = .ok (r, comm) ∧
      ∀ common, ∃ receiver' own, OTExtReceiver.finish common r 130 (sampleSeed 8).getBlock.1 =
          .ok (receiver', r.seed, own) ∧
        ∀ sender sender' check,
          Accepts sampleSeed (fun b => b.setWidth 160) common sender sampleOutputs sampleInputs 130
            (sampleSeed 8) comm r.loop.sent r.seed check →
          Accepts sampleSeed (fun b => b.setWidth 160) common sender' (List.replicate 128 0)
            sampleNone 130 (sampleSeed 8) comm r.loop.sent r.seed check →
          check = own ∨ ∀ c < 128, sampleInputs.get c = sampleNone.get c :=
  announcement_guesses sampleSeed (fun b => b.setWidth 160) samples_agree sampleNone_agree
    (by decide) ⟨[], .empty⟩ (sampleSeed 7) (sampleSeed 8)

end BatchDualEx
