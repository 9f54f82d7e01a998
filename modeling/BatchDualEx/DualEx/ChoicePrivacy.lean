import BatchDualEx.DualEx.Bucket
import BatchDualEx.Lib.Cursor

/- Which OT choice bits travel in the messages of `CircuitPackage::open` and in the deltas of
   `Bucket::initSend`. The choice bits of a circuit are copied out of a longer vector, from a
   byte boundary with the bits after the interval that share its last byte. -/
namespace BatchDualEx.Opening

open Bytes BitVector Result

variable {Digest : Type}

def opened (Commit : List Block → Digest) (cir : Circuit) (role : Role) (myKProbe : KProbeMatrix)
    (start : Nat) (p : CircuitPackage) (recvOT : I_OTExtReceiver) : Except Fault Opened := do
  let (p, _) ← p.initOT Commit cir role myKProbe recvOT start
  return (p.open zeroBlock).1

/-- Where a circuit takes its choice bits: the OT receiver of its thread and the start. -/
structure Slot where
  recvOT : Nat
  mOTStartIdx : Nat
  deriving DecidableEq

def deltas (m : Nat) (slots : List Slot) (choiceBits : Nat → BitVector) :
    Except Fault (List (List Byte)) := do
  let choices ← slots.mapM fun s => BitVector.empty.copy (choiceBits s.recvOT) s.mOTStartIdx m
  return initSendDeltas choices

/-- The bits that a copy reads into its last byte beyond its length. -/
def Spill (m start i : Nat) : Prop := start % 8 = 0 ∧ m ≤ i ∧ i < 8 * ((m + 7) / 8)

/-- The two vectors agree on the interval of a circuit, which lies inside both. -/
def AgreeFrom (m start : Nat) (v v' : BitVector) : Prop :=
  start + m ≤ v.size ∧ start + m ≤ v'.size ∧ ∀ i < m, v.get (start + i) = v'.get (start + i)

/-- Two copies of `m` bits hold the same bytes when they agree on the interval and on the spill. -/
theorem copy_bytes_iff {m start : Nat} {v v' w w' : BitVector}
    (copied : empty.copy v start m = .ok w) (copied' : empty.copy v' start m = .ok w') :
    w.bytes = w'.bytes ↔
      ∀ i, (i < m ∨ Spill m start i) → v.get (start + i) = v'.get (start + i) := by
  obtain ⟨size, read⟩ := copy_empty_ok copied
  obtain ⟨size', read'⟩ := copy_empty_ok copied'
  have inUse : w.sizeBytes = (m + 7) / 8 := by rw [← size]; rfl
  have inUse' : w'.sizeBytes = (m + 7) / 8 := by rw [← size']; rfl
  rw [inUse] at read
  rw [inUse'] at read'
  rw [bytes_eq_iff (size.trans size'.symm), inUse]
  unfold Spill
  constructor
  · intro same i kept
    have inside : i < 8 * ((m + 7) / 8) := by omega
    have bit := same i inside
    rw [read i inside, read' i inside] at bit
    have taken : i < m ∨ start % 8 = 0 := by omega
    simpa [taken] using bit
  · intro same i inside
    rw [read i inside, read' i inside]
    by_cases taken : i < m ∨ start % 8 = 0
    · rw [same i (by omega)]
    · simp [taken]

theorem copy_small {m : Nat} (small : m + 8 < 2 ^ 31) (src : BitVector) (start : Nat) :
    ∃ w, empty.copy src start m = .ok w := by
  obtain ⟨w, run, _⟩ := append_empty src.mData start small
  exact ⟨w, (copy_empty src start m).trans run⟩

theorem copy_large {m : Nat} (large : 2 ^ 31 ≤ m + 8) (start : Nat) :
    ∃ fault, ∀ src : BitVector, empty.copy src start m = .error fault := by
  obtain ⟨fault, failed⟩ := append_empty_large start large
  exact ⟨fault, fun src => (copy_empty src start m).trans (failed src.mData)⟩

theorem exists_differ {n p : Nat} (inside : p < n) :
    ∃ zeros lit : BitVector, zeros.size = n ∧ lit.size = n ∧ (∀ i, zeros.get i = false) ∧
      ∀ i, lit.get i = decide (i = p) := by
  refine ⟨empty.reset n, (empty.reset n).set p true, reset_numBits _ _, reset_numBits _ _,
    get_reset_empty n, fun i => ?_⟩
  rw [get_set (by rw [reset_empty_length]; omega), get_reset_empty]
  by_cases same : i = p <;> simp [same]

section
variable {Commit : List Block → Digest} {cir : Circuit} {role : Role} {myKProbe : KProbeMatrix}
  {start : Nat} {p : CircuitPackage} (fresh : p.mOTRecvChoices = .empty)
include fresh

theorem opened_error (recvOT : I_OTExtReceiver) {fault : Fault}
    (failed : empty.copy recvOT.mChoiceBits start myKProbe.encodingSize = .error fault) :
    opened Commit cir role myKProbe start p recvOT = .error fault := by
  unfold opened CircuitPackage.initOT
  rw [fresh, failed]
  rfl

theorem opened_ok (recvOT : I_OTExtReceiver) {choices : BitVector}
    (copied : empty.copy recvOT.mChoiceBits start myKProbe.encodingSize = .ok choices) :
    opened Commit cir role myKProbe start p recvOT =
      .ok ⟨p.mCircuitSeed, p.mKProbeWireSeed, p.mAdaptiveSecureMaskSeed, choices.bytes⟩ := by
  have sized : ¬choices.bits.length ≠ myKProbe.mEncodingSize :=
    not_not.mpr ((bits_length _).trans (copy_empty_ok copied).1)
  unfold opened CircuitPackage.initOT CircuitPackage.commitToInputs KProbeMatrix.decodeBits
  rw [fresh, copied]
  simp only [bind, Except.bind, sized, if_false, pure, Except.pure]
  unfold CircuitPackage.open
  simp only [bytes_ofCopy]

/-- The messages of `open` depend on the choice bits of the circuit alone exactly when nothing
    is copied beyond them. -/
theorem opened_private_iff :
    (∀ recvOT recvOT' : I_OTExtReceiver,
      AgreeFrom myKProbe.encodingSize start recvOT.mChoiceBits recvOT'.mChoiceBits →
        opened Commit cir role myKProbe start p recvOT =
          opened Commit cir role myKProbe start p recvOT') ↔
      (8 ∣ myKProbe.encodingSize ∨ ¬8 ∣ start ∨ 2 ^ 31 ≤ myKProbe.encodingSize + 8) := by
  constructor
  · intro same
    by_contra leaks
    have padded : ¬8 ∣ myKProbe.encodingSize := fun whole => leaks (.inl whole)
    have aligned : 8 ∣ start := not_not.mp fun apart => leaks (.inr (.inl apart))
    have small := Nat.not_le.mp fun large => leaks (.inr (.inr large))
    -- the first bit after the interval is copied along
    obtain ⟨zeros, lit, size, size', dark, bright⟩ :=
      exists_differ (Nat.lt_succ_self (start + myKProbe.encodingSize))
    have agree : AgreeFrom myKProbe.encodingSize start zeros lit := by
      refine ⟨by omega, by omega, fun i below => ?_⟩
      rw [dark, bright]
      simp [Nat.ne_of_lt below]
    obtain ⟨w, copied⟩ := copy_small small zeros start
    obtain ⟨w', copied'⟩ := copy_small small lit start
    have equal := same ⟨zeros, fun _ => 0⟩ ⟨lit, fun _ => 0⟩ agree
    rw [opened_ok fresh ⟨zeros, _⟩ copied, opened_ok fresh ⟨lit, _⟩ copied', Except.ok.injEq,
      Opened.mk.injEq] at equal
    have bit := (copy_bytes_iff copied copied').mp equal.2.2.2 myKProbe.encodingSize
      (.inr ⟨by omega, le_refl _, by omega⟩)
    rw [dark, bright] at bit
    simp at bit
  · intro holds recvOT recvOT' agree
    by_cases small : myKProbe.encodingSize + 8 < 2 ^ 31
    · obtain ⟨w, copied⟩ := copy_small small recvOT.mChoiceBits start
      obtain ⟨w', copied'⟩ := copy_small small recvOT'.mChoiceBits start
      have bytes : w.bytes = w'.bytes := by
        refine (copy_bytes_iff copied copied').mpr fun i kept => agree.2.2 i ?_
        unfold Spill at kept
        omega
      rw [opened_ok fresh recvOT copied, opened_ok fresh recvOT' copied', bytes]
    · obtain ⟨fault, failed⟩ := copy_large (Nat.not_lt.mp small) start
      rw [opened_error fresh recvOT (failed _), opened_error fresh recvOT' (failed _)]

end

section
variable {m : Nat} {slots : List Slot}

/-- A bit of an OT receiver that belongs to the interval of a circuit of the bucket. -/
def Owned (m : Nat) (slots : List Slot) (recvOT position : Nat) : Prop :=
  ∃ t ∈ slots, t.recvOT = recvOT ∧ t.mOTStartIdx ≤ position ∧ position < t.mOTStartIdx + m

def Disjoint (m : Nat) (slots : List Slot) : Prop :=
  slots.Pairwise fun s t => s.recvOT = t.recvOT →
    s.mOTStartIdx + m ≤ t.mOTStartIdx ∨ t.mOTStartIdx + m ≤ s.mOTStartIdx

def slotAt (slots : List Slot) (k : Nat) : Slot := slots.getD k ⟨0, 0⟩

theorem Disjoint.apart (disjoint : Disjoint m slots) {k o : Nat} (inside : k < slots.length)
    (inside' : o < slots.length) (other : k ≠ o)
    (same : (slotAt slots k).recvOT = (slotAt slots o).recvOT) :
    (slotAt slots k).mOTStartIdx + m ≤ (slotAt slots o).mOTStartIdx ∨
      (slotAt slots o).mOTStartIdx + m ≤ (slotAt slots k).mOTStartIdx := by
  have pairs := List.pairwise_iff_getElem.mp disjoint
  unfold slotAt at same ⊢
  rw [List.getD_eq_getElem _ _ inside, List.getD_eq_getElem _ _ inside'] at same ⊢
  rcases Nat.lt_or_gt_of_ne other with before | after
  · exact pairs k o inside inside' before same
  · exact (pairs o k inside' inside after same.symm).symm

def held (m : Nat) (slots : List Slot) (choiceBits : Nat → BitVector) (k i : Nat) : Bool :=
  decide (i < m ∨ (slotAt slots k).mOTStartIdx % 8 = 0) &&
    (choiceBits (slotAt slots k).recvOT).get ((slotAt slots k).mOTStartIdx + i)

def deltaBit (m : Nat) (slots : List Slot) (choiceBits : Nat → BitVector) (j i : Nat) : Bool :=
  held m slots choiceBits 0 i ^^ held m slots choiceBits (j + 1) i

theorem choices_ok (small : m + 8 < 2 ^ 31) (choiceBits : Nat → BitVector) :
    ∃ choices, (slots.mapM fun s => empty.copy (choiceBits s.recvOT) s.mOTStartIdx m) =
        .ok choices ∧ choices.length = slots.length ∧
      ∀ k < slots.length, (choices.getD k .empty).mNumBits = m ∧
        ∀ i < 8 * ((m + 7) / 8),
          (choices.getD k .empty).get i = held m slots choiceBits k i := by
  obtain ⟨choices, run⟩ := mapM_total fun s (_ : s ∈ slots) =>
    copy_small small (choiceBits s.recvOT) s.mOTStartIdx
  obtain ⟨length, each⟩ := mapM_ok_getD run ⟨0, 0⟩ .empty
  refine ⟨choices, run, length, fun k below => ?_⟩
  obtain ⟨size, read⟩ := copy_empty_ok (each k below)
  unfold BitVector.sizeBytes at read
  rw [size] at read
  exact ⟨size, read⟩

theorem deltas_ok (small : m + 8 < 2 ^ 31) (choiceBits : Nat → BitVector) :
    ∃ messages, deltas m slots choiceBits = .ok messages ∧ messages.length = slots.length - 1 ∧
      ∀ j < slots.length - 1, (messages.getD j []).length = (m + 7) / 8 ∧
        ∀ i < 8 * ((m + 7) / 8), bit (messages.getD j []) i = deltaBit m slots choiceBits j i := by
  obtain ⟨choices, run, length, each⟩ := @choices_ok m slots small choiceBits
  refine ⟨initSendDeltas choices, ?_, ?_, fun j below => ?_⟩
  · unfold deltas
    rw [run]
    rfl
  · unfold initSendDeltas
    rw [List.length_map, List.length_range, length]
  · obtain ⟨size, read⟩ := each 0 (by omega)
    obtain ⟨_, read'⟩ := each (j + 1) (by omega)
    have inUse : (ofCopy (choices.getD 0 .empty)).sizeBytes = (m + 7) / 8 := by
      unfold BitVector.sizeBytes
      rw [ofCopy_numBits, size]
    unfold initSendDeltas
    rw [Lists.map_range_getD _ _ (by rw [length]; exact below)]
    refine ⟨(bytes_length _).trans inUse, fun i inside => ?_⟩
    rw [bit_bytes _ (by exact inUse ▸ inside), get_xorAssign _ (by rw [inUse]; exact inside),
      get_ofCopy (by unfold BitVector.sizeBytes; rw [size]; exact inside), read i inside,
      read' i inside]
    rfl

theorem deltas_large (large : 2 ^ 31 ≤ m + 8) (choiceBits choiceBits' : Nat → BitVector) :
    deltas m slots choiceBits = deltas m slots choiceBits' := by
  unfold deltas
  cases slots with
  | nil => rfl
  | cons s slots =>
    obtain ⟨fault, failed⟩ := copy_large large s.mOTStartIdx
    rw [List.mapM_cons, List.mapM_cons, failed, failed]
    rfl

theorem deltas_eq_iff (small : m + 8 < 2 ^ 31) (choiceBits choiceBits' : Nat → BitVector) :
    deltas m slots choiceBits = deltas m slots choiceBits' ↔
      ∀ j < slots.length - 1, ∀ i < 8 * ((m + 7) / 8),
        deltaBit m slots choiceBits j i = deltaBit m slots choiceBits' j i := by
  obtain ⟨messages, run, length, read⟩ := deltas_ok small choiceBits
  obtain ⟨messages', run', length', read'⟩ := deltas_ok small choiceBits'
  rw [run, run', Except.ok.injEq]
  constructor
  · intro same j below i inside
    rw [← (read j below).2 i inside, same, (read' j below).2 i inside]
  · intro same
    apply Lists.ext_getD [] (length.trans length'.symm)
    intro j below
    rw [length] at below
    apply ext_bits ((read j below).1.trans (read' j below).1.symm)
    intro i inside
    rw [(read j below).1] at inside
    rw [(read j below).2 i inside, same j below i inside, (read' j below).2 i inside]

theorem start_le_sum {s : Slot} (listed : s ∈ slots) :
    s.mOTStartIdx ≤ (slots.map Slot.mOTStartIdx).sum :=
  List.single_le_sum (fun _ _ => Nat.zero_le _) _ (List.mem_map_of_mem listed)

theorem exists_slotAt {s : Slot} (listed : s ∈ slots) : ∃ k < slots.length, slotAt slots k = s := by
  obtain ⟨k, inside, entry⟩ := List.mem_iff_getElem.mp listed
  refine ⟨k, inside, ?_⟩
  unfold slotAt
  rw [List.getD_eq_getElem _ _ inside, entry]

/-- A spilled bit is read by no other circuit of the bucket at the same offset. -/
theorem Disjoint.offset_unique (disjoint : Disjoint m slots) (some : 0 < m) {k o i : Nat}
    (inside : k < slots.length) (inside' : o < slots.length) (other : k ≠ o) :
    ¬((slotAt slots k).recvOT = (slotAt slots o).recvOT ∧
      (slotAt slots o).mOTStartIdx + i = (slotAt slots k).mOTStartIdx + i) := by
  rintro ⟨same, equal⟩
  rcases disjoint.apart inside inside' other same with before | after <;> omega

theorem slotAt_mem {k : Nat} (inside : k < slots.length) : slotAt slots k ∈ slots := by
  unfold slotAt
  rw [List.getD_eq_getElem _ _ inside]
  exact List.getElem_mem inside

/-- Agreement on the circuits of the bucket reaches everything that is copied when each spilled
    bit is owned. -/
theorem agree_taken {choiceBits choiceBits' : Nat → BitVector}
    (owned : ∀ s ∈ slots, ∀ i, Spill m s.mOTStartIdx i →
      Owned m slots s.recvOT (s.mOTStartIdx + i))
    (agree : ∀ s ∈ slots, AgreeFrom m s.mOTStartIdx (choiceBits s.recvOT) (choiceBits' s.recvOT))
    {s : Slot} (listed : s ∈ slots) {i : Nat} (taken : i < m ∨ s.mOTStartIdx % 8 = 0)
    (inside : i < 8 * ((m + 7) / 8)) :
    (choiceBits s.recvOT).get (s.mOTStartIdx + i) =
      (choiceBits' s.recvOT).get (s.mOTStartIdx + i) := by
  by_cases own : i < m
  · exact (agree s listed).2.2 i own
  · obtain ⟨t, member, same, after, before⟩ :=
      owned s listed i ⟨taken.resolve_left own, Nat.not_lt.mp own, inside⟩
    have bit := (agree t member).2.2 (s.mOTStartIdx + i - t.mOTStartIdx) (by omega)
    rwa [same, Nat.add_sub_cancel' after] at bit

/-- The deltas depend on the choice bits of the bucket's own circuits alone exactly when there
    are none or every bit that is copied beyond an interval belongs to such a circuit. -/
theorem deltas_private_iff (disjoint : Disjoint m slots) :
    (∀ choiceBits choiceBits' : Nat → BitVector,
      (∀ s ∈ slots, AgreeFrom m s.mOTStartIdx (choiceBits s.recvOT) (choiceBits' s.recvOT)) →
        deltas m slots choiceBits = deltas m slots choiceBits') ↔
      (slots.length ≤ 1 ∨ 2 ^ 31 ≤ m + 8 ∨
        ∀ s ∈ slots, ∀ i, Spill m s.mOTStartIdx i →
          Owned m slots s.recvOT (s.mOTStartIdx + i)) := by
  constructor
  · intro same
    by_contra leaks
    have several := Nat.not_le.mp fun few => leaks (.inl few)
    have small := Nat.not_le.mp fun large => leaks (.inr (.inl large))
    obtain ⟨s, listed, i, spill, foreign⟩ : ∃ s ∈ slots, ∃ i, Spill m s.mOTStartIdx i ∧
        ¬Owned m slots s.recvOT (s.mOTStartIdx + i) := by
      by_contra none
      refine leaks (.inr (.inr fun s listed i spill => ?_))
      by_contra foreign
      exact none ⟨s, listed, i, spill, foreign⟩
    obtain ⟨k, inside, rfl⟩ := exists_slotAt listed
    have last : i < 8 * ((m + 7) / 8) := spill.2.2
    have some : 0 < m := by omega
    -- the bit at `p` is set in one of the runs, and no circuit of the bucket owns it
    let p := (slotAt slots k).mOTStartIdx + i
    let n := p + 1 + m + (slots.map Slot.mOTStartIdx).sum
    obtain ⟨zeros, lit, size, size', dark, bright⟩ := exists_differ (show p < n by omega)
    let flip := fun r => if r = (slotAt slots k).recvOT then lit else zeros
    have agree : ∀ t ∈ slots, AgreeFrom m t.mOTStartIdx zeros (flip t.recvOT) := by
      intro t member
      have sum := start_le_sum member
      by_cases owner : t.recvOT = (slotAt slots k).recvOT
      · simp only [flip, owner, if_true]
        refine ⟨by omega, by omega, fun o below => ?_⟩
        have outside : t.mOTStartIdx + o ≠ p := fun hit =>
          foreign ⟨t, member, owner, by omega, by omega⟩
        rw [dark, bright, decide_eq_false outside]
      · simp only [flip, owner, if_false]
        exact ⟨by omega, by omega, fun _ _ => rfl⟩
    have equal := (deltas_eq_iff small _ _).mp (same (fun _ => zeros) flip agree)
    have heldZeros : ∀ o, held m slots (fun _ => zeros) o i = false := fun o => by
      unfold held
      rw [dark, Bool.and_false]
    have heldFlip : ∀ o < slots.length, held m slots flip o i = decide (o = k) := by
      intro o inside'
      unfold held
      by_cases self : o = k
      · subst self
        rw [decide_eq_true (Or.inr spill.1), decide_eq_true (Eq.refl o)]
        simp [flip, bright, p]
      · rw [decide_eq_false self]
        by_cases owner : (slotAt slots o).recvOT = (slotAt slots k).recvOT
        · have apart : (slotAt slots o).mOTStartIdx + i ≠ p := fun hit =>
            disjoint.offset_unique some inside' inside self ⟨owner, hit.symm⟩
          simp [flip, owner, bright, apart]
        · simp [flip, owner, dark]
    by_cases head : k = 0
    · have bit := equal 0 (by omega) i last
      unfold deltaBit at bit
      rw [heldZeros, heldZeros, heldFlip 0 (by omega), heldFlip 1 (by omega)] at bit
      simp [head] at bit
    · have bit := equal (k - 1) (by omega) i last
      unfold deltaBit at bit
      rw [heldZeros, heldZeros, heldFlip 0 (by omega), heldFlip (k - 1 + 1) (by omega)] at bit
      simp [Nat.sub_add_cancel (Nat.pos_of_ne_zero head), Ne.symm head] at bit
  · intro holds choiceBits choiceBits' agree
    by_cases small : m + 8 < 2 ^ 31
    · refine (deltas_eq_iff small _ _).mpr fun j below i inside => ?_
      have owned := (holds.resolve_left (by omega)).resolve_left (by omega)
      have kept : ∀ k < slots.length, held m slots choiceBits k i =
          held m slots choiceBits' k i := by
        intro k listed
        unfold held
        by_cases taken : i < m ∨ (slotAt slots k).mOTStartIdx % 8 = 0
        · rw [agree_taken owned agree (slotAt_mem listed) taken inside]
        · simp [taken]
      unfold deltaBit
      rw [kept 0 (by omega), kept (j + 1) (by omega)]
    · exact deltas_large (Nat.not_lt.mp small) _ _

end

/-- Both kinds of messages, each with the exact condition under which they depend on the choice
    bits of their own circuits alone. -/
theorem open_and_deltas_private_iff (Commit : List Block → Digest) (cir : Circuit) (role : Role)
    (myKProbe : KProbeMatrix) (start : Nat) {p : CircuitPackage} {slots : List Slot}
    (fresh : p.mOTRecvChoices = .empty) (disjoint : Disjoint myKProbe.encodingSize slots) :
    ((∀ recvOT recvOT' : I_OTExtReceiver,
      AgreeFrom myKProbe.encodingSize start recvOT.mChoiceBits recvOT'.mChoiceBits →
        opened Commit cir role myKProbe start p recvOT =
          opened Commit cir role myKProbe start p recvOT') ↔
      (8 ∣ myKProbe.encodingSize ∨ ¬8 ∣ start ∨ 2 ^ 31 ≤ myKProbe.encodingSize + 8)) ∧
    ((∀ choiceBits choiceBits' : Nat → BitVector,
      (∀ s ∈ slots, AgreeFrom myKProbe.encodingSize s.mOTStartIdx (choiceBits s.recvOT)
        (choiceBits' s.recvOT)) →
        deltas myKProbe.encodingSize slots choiceBits =
          deltas myKProbe.encodingSize slots choiceBits') ↔
      (slots.length ≤ 1 ∨ 2 ^ 31 ≤ myKProbe.encodingSize + 8 ∨
        ∀ s ∈ slots, ∀ i, Spill myKProbe.encodingSize s.mOTStartIdx i →
          Owned myKProbe.encodingSize slots s.recvOT (s.mOTStartIdx + i))) :=
  ⟨opened_private_iff fresh, deltas_private_iff disjoint⟩

def freshPackage : CircuitPackage :=
  ⟨5, 6, 7, ⟨0, [], [], [], []⟩, [], ⟨.empty, fun _ => zeroBlock⟩, 0, .empty⟩

/-- A whole byte of choice bits for every circuit. -/
theorem open_and_deltas_private_eight :
    (∀ recvOT recvOT' : I_OTExtReceiver, AgreeFrom 8 0 recvOT.mChoiceBits recvOT'.mChoiceBits →
      opened id HalfGtGarbledCircuit.threeGates .first ⟨[[]], 8⟩ 0 freshPackage recvOT =
        opened id HalfGtGarbledCircuit.threeGates .first ⟨[[]], 8⟩ 0 freshPackage recvOT') ∧
    ∀ choiceBits choiceBits' : Nat → BitVector,
      (∀ s ∈ [Slot.mk 0 0, ⟨0, 8⟩], AgreeFrom 8 s.mOTStartIdx (choiceBits s.recvOT)
        (choiceBits' s.recvOT)) →
        deltas 8 [⟨0, 0⟩, ⟨0, 8⟩] choiceBits = deltas 8 [⟨0, 0⟩, ⟨0, 8⟩] choiceBits' := by
  have both := open_and_deltas_private_iff id HalfGtGarbledCircuit.threeGates .first ⟨[[]], 8⟩ 0
    (p := freshPackage) rfl (show Disjoint 8 [⟨0, 0⟩, ⟨0, 8⟩] by unfold Disjoint; decide)
  refine ⟨both.1.mpr (.inl (by decide)), both.2.mpr (.inr (.inr fun s _ i spill => ?_))⟩
  have whole : KProbeMatrix.encodingSize ⟨[[]], 8⟩ = 8 := rfl
  unfold Spill at spill
  rw [whole] at spill
  omega

/-- With one choice bit for every circuit the bits of the next seven travel along, in the opening
    of a circuit and in the delta of two others. -/
theorem open_and_deltas_leak_next_bits :
    ¬((∀ recvOT recvOT' : I_OTExtReceiver,
        AgreeFrom 1 0 recvOT.mChoiceBits recvOT'.mChoiceBits →
        opened id HalfGtGarbledCircuit.threeGates .first ⟨[[]], 1⟩ 0 freshPackage recvOT =
          opened id HalfGtGarbledCircuit.threeGates .first ⟨[[]], 1⟩ 0 freshPackage recvOT')) ∧
    ¬∀ choiceBits choiceBits' : Nat → BitVector,
      (∀ s ∈ [Slot.mk 0 0, ⟨0, 1⟩], AgreeFrom 1 s.mOTStartIdx (choiceBits s.recvOT)
        (choiceBits' s.recvOT)) →
        deltas 1 [⟨0, 0⟩, ⟨0, 1⟩] choiceBits = deltas 1 [⟨0, 0⟩, ⟨0, 1⟩] choiceBits' := by
  constructor
  · intro same
    have agree : AgreeFrom 1 0 (BitVector.empty.reset 8)
        ((BitVector.empty.reset 8).set 3 true) := by
      unfold AgreeFrom
      decide
    have equal := same ⟨_, fun _ => zeroBlock⟩ ⟨_, fun _ => zeroBlock⟩ agree
    exact absurd equal (by decide)
  · intro same
    have agree : ∀ s ∈ [Slot.mk 0 0, ⟨0, 1⟩], AgreeFrom 1 s.mOTStartIdx
        (BitVector.empty.reset 8) ((BitVector.empty.reset 8).set 3 true) := by
      unfold AgreeFrom
      decide
    have equal := same (fun _ => BitVector.empty.reset 8)
      (fun _ => (BitVector.empty.reset 8).set 3 true) agree
    exact absurd equal (by decide)

end BatchDualEx.Opening
