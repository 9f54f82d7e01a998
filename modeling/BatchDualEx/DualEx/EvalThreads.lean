import BatchDualEx.Circuit.Circuit
import BatchDualEx.Common.Block
import BatchDualEx.Lib.Run
import Mathlib.Logic.Equiv.Basic
import Mathlib.Data.List.FinRange

/- The `B` threads of `evalThreadLoop` on one bucket: each evaluates its circuit, stores the
   value for the set intersection in a shuffled slot, runs the set intersection on the slot
   with its own number, and fulfils the promise that `execute` waits for. -/
namespace BatchDualEx

open Function

/-- A bucket of `B` received circuits, however they were garbled, with what `evalCircuit`
    returns and writes for each of them, the shuffled slots and what each slot opens to. -/
structure EvalBucket (B : Nat) where
  psiValue : Fin B → Block
  outputs : Fin B → List Bool
  mPSIInputPermutes : Equiv.Perm (Fin B)
  mPsiRecvOpen : Fin B → Bool

/-- Where a thread stands. A thread is lost when an exception ends it. -/
inductive Stage (B : Nat) where
  | start
  | evaluated (psiInput : Block)
  | stored (psiPermuteIdx : Fin B) (psiInput : Block)
  | waiting
  | received (psiInput : Block)
  | finished
  | lost
  deriving DecidableEq, Repr

/-- The fields of the bucket that the threads share. `storedBy` and `matched` are only kept
    for the statements: the circuit whose own value is in a slot, and the slot whose match
    fulfilled the promise. -/
structure EvalState (B : Nat) where
  stage : Fin B → Stage B
  mPSIIdxHead : Nat
  mPSIInputBlocks : Fin B → Block
  mPsiInputPromise : Fin B → Option Block
  mOutputs : Fin B → List Bool
  mOutputMissCount : Nat
  mOutputProm : Option (Except Fault (Fin B))
  storedBy : Fin B → Option (Fin B)
  matched : Option (Fin B)

/-- One thread moves on; `circuitIdx` is its circuit, and `draws` what its `prng` yields. -/
inductive EvalAction (B : Nat) where
  | evalCircuit (circuitIdx : Fin B)
  | store (circuitIdx : Fin B) (draws : Nat → Block)
  | setValue (circuitIdx : Fin B)
  | get (circuitIdx : Fin B)
  | throw (circuitIdx : Fin B)
  | psiOpen (circuitIdx : Fin B)

/-- A value that is already stored is replaced, and the new value is compared with the rest. -/
def replaceStored (draws : Nat → Block) : Nat → Block → List Block → Block
  | _, psiInput, [] => psiInput
  | k, psiInput, blk :: blks =>
    if psiInput = blk then replaceStored draws (k + 1) (draws k) blks
    else replaceStored draws k psiInput blks

namespace EvalBucket

variable {B : Nat} (b : EvalBucket B)

def initial : EvalState B where
  stage := fun _ => .start
  mPSIIdxHead := 0
  mPSIInputBlocks := fun _ => zeroBlock
  mPsiInputPromise := fun _ => none
  mOutputs := fun _ => []
  mOutputMissCount := 0
  mOutputProm := none
  storedBy := fun _ => none
  matched := none

def storedBlocks (s : EvalState B) : List Block :=
  ((List.finRange B).take s.mPSIIdxHead).map fun i => s.mPSIInputBlocks (b.mPSIInputPermutes i)

def storePsi (s : EvalState B) (circuitIdx : Fin B) (psiInput : Block) (draws : Nat → Block)
    (psiIdx : Fin B) : EvalState B :=
  let psiPermuteIdx := b.mPSIInputPermutes psiIdx
  let blk := replaceStored draws 0 psiInput (b.storedBlocks s)
  { s with
    stage := update s.stage circuitIdx (.stored psiPermuteIdx blk)
    mPSIIdxHead := s.mPSIIdxHead + 1
    mPSIInputBlocks := update s.mPSIInputBlocks psiPermuteIdx blk
    storedBy := update s.storedBy psiPermuteIdx
      (if psiInput ∈ b.storedBlocks s then none else some circuitIdx) }

/-- The end of the loop body: a match hands out the outputs of the thread's own circuit, the
    last miss an exception. A promise that is already fulfilled throws. -/
def openPsi (s : EvalState B) (circuitIdx : Fin B) : EvalState B :=
  if b.mPsiRecvOpen circuitIdx then
    match s.mOutputProm with
    | none => { s with
        stage := update s.stage circuitIdx .finished
        mOutputProm := some (.ok circuitIdx)
        matched := some circuitIdx }
    | some _ => { s with stage := update s.stage circuitIdx .lost }
  else
    if s.mOutputMissCount + 1 = B then
      match s.mOutputProm with
      | none => { s with
          stage := update s.stage circuitIdx .finished
          mOutputMissCount := s.mOutputMissCount + 1
          mOutputProm := some (.error (.thrown "No items found in the intersection ")) }
      | some _ => { s with
          stage := update s.stage circuitIdx .lost
          mOutputMissCount := s.mOutputMissCount + 1 }
    else { s with
      stage := update s.stage circuitIdx .finished
      mOutputMissCount := s.mOutputMissCount + 1 }

/-- One step, or `none` where the thread is elsewhere or has to wait. -/
def step (s : EvalState B) : EvalAction B → Option (EvalState B)
  | .evalCircuit c =>
    match s.stage c with
    | .start => some { s with
        stage := update s.stage c (.evaluated (b.psiValue c))
        mOutputs := update s.mOutputs c (b.outputs c) }
    | _ => none
  | .store c draws =>
    match s.stage c with
    | .evaluated psiInput =>
      if inside : s.mPSIIdxHead < B then
        some (b.storePsi s c psiInput draws ⟨s.mPSIIdxHead, inside⟩)
      else none
    | _ => none
  | .setValue c =>
    match s.stage c with
    | .stored psiPermuteIdx psiInput =>
      match s.mPsiInputPromise psiPermuteIdx with
      | none => some { s with
          stage := update s.stage c .waiting
          mPsiInputPromise := update s.mPsiInputPromise psiPermuteIdx (some psiInput) }
      | some _ => some { s with stage := update s.stage c .lost }
    | _ => none
  | .get c =>
    match s.stage c, s.mPsiInputPromise c with
    | .waiting, some psiInput => some { s with stage := update s.stage c (.received psiInput) }
    | _, _ => none
  | .throw c =>
    -- `CommitSend`, `CommitRecv`, `checkTranslation` or `open` throws
    match s.stage c with
    | .received _ => some { s with stage := update s.stage c .lost }
    | _ => none
  | .psiOpen c =>
    match s.stage c with
    | .received _ => some (b.openPsi s c)
    | _ => none

def execute (s : EvalState B) : Option (List Bool) :=
  match s.mOutputProm with
  | some (.ok circuitIdx) => some (s.mOutputs circuitIdx)
  | _ => none

/-- Whenever a slot has matched, `execute` returns the outputs of the circuit whose own value
    is in this slot. -/
def ReturnsMatched (s : EvalState B) : Prop :=
  ∀ slot circuitIdx, s.matched = some slot → s.storedBy slot = some circuitIdx →
    execute s = some (b.outputs circuitIdx)

/-- A value that nobody has stored before goes into a slot that does not match, or into one
    with the number of a circuit with the same outputs. -/
def StoredAlike (s : EvalState B) : EvalAction B → Prop
  | .store c _ => ∀ inside : s.mPSIIdxHead < B,
    b.psiValue c ∉ b.storedBlocks s →
      b.mPsiRecvOpen (b.mPSIInputPermutes ⟨s.mPSIIdxHead, inside⟩) = true →
        b.outputs c = b.outputs (b.mPSIInputPermutes ⟨s.mPSIIdxHead, inside⟩)
  | _ => True

theorem replaceStored_new {blks : List Block} {psiInput : Block} (new : psiInput ∉ blks)
    (draws : Nat → Block) (k : Nat) : replaceStored draws k psiInput blks = psiInput := by
  induction blks with
  | nil => rfl
  | cons blk blks ih =>
    rw [List.mem_cons, not_or] at new
    unfold replaceStored
    rw [if_neg new.1]
    exact ih new.2

section
variable {b} {s t : EvalState B} {c : Fin B}

theorem evalCircuit_inv (taken : b.step s (.evalCircuit c) = some t) :
    s.stage c = .start ∧ t = { s with
      stage := update s.stage c (.evaluated (b.psiValue c))
      mOutputs := update s.mOutputs c (b.outputs c) } := by
  simp only [step] at taken
  split at taken
  case h_1 _ at_start =>
    cases taken
    exact ⟨at_start, rfl⟩
  case h_2 => cases taken

theorem store_inv {draws : Nat → Block} (taken : b.step s (.store c draws) = some t) :
    ∃ psiInput, s.stage c = .evaluated psiInput ∧ ∃ inside : s.mPSIIdxHead < B,
      t = b.storePsi s c psiInput draws ⟨s.mPSIIdxHead, inside⟩ := by
  simp only [step] at taken
  split at taken
  case h_1 _ psiInput evaluated =>
    split at taken
    case isTrue inside =>
      cases taken
      exact ⟨psiInput, evaluated, inside, rfl⟩
    case isFalse => cases taken
  case h_2 => cases taken

theorem setValue_inv (taken : b.step s (.setValue c) = some t) :
    s.stage c ≠ .start ∧ ∃ stage promises, (stage = .waiting ∨ stage = .lost) ∧
      t = { s with stage := update s.stage c stage, mPsiInputPromise := promises } := by
  simp only [step] at taken
  split at taken
  case h_1 _ slot psiInput stored =>
    refine ⟨by rw [stored]; exact nofun, ?_⟩
    split at taken
    case h_1 =>
      cases taken
      exact ⟨_, _, .inl rfl, rfl⟩
    case h_2 =>
      cases taken
      exact ⟨_, _, .inr rfl, rfl⟩
  case h_2 => cases taken

theorem get_inv (taken : b.step s (.get c) = some t) :
    s.stage c = .waiting ∧ ∃ psiInput, s.mPsiInputPromise c = some psiInput ∧
      t = { s with stage := update s.stage c (.received psiInput) } := by
  simp only [step] at taken
  split at taken
  case h_1 _ _ psiInput waiting fulfilled =>
    cases taken
    exact ⟨waiting, psiInput, fulfilled, rfl⟩
  case h_2 => cases taken

theorem throw_inv (taken : b.step s (.throw c) = some t) :
    (∃ psiInput, s.stage c = .received psiInput) ∧
      t = { s with stage := update s.stage c .lost } := by
  simp only [step] at taken
  split at taken
  case h_1 _ psiInput received =>
    cases taken
    exact ⟨⟨psiInput, received⟩, rfl⟩
  case h_2 => cases taken

theorem psiOpen_inv (taken : b.step s (.psiOpen c) = some t) :
    (∃ psiInput, s.stage c = .received psiInput) ∧ t = b.openPsi s c := by
  simp only [step] at taken
  split at taken
  case h_1 _ psiInput received =>
    cases taken
    exact ⟨⟨psiInput, received⟩, rfl⟩
  case h_2 => cases taken

end

/-- An opened slot leaves the outputs and the slots alone; either it matches and is the first
    to fulfil the promise, or nothing becomes matched and a fulfilled promise stays. -/
theorem openPsi_cases (s : EvalState B) (c : Fin B) :
    (∃ stage, (stage = .finished ∨ stage = .lost) ∧
        (b.openPsi s c).stage = update s.stage c stage) ∧
      (b.openPsi s c).mOutputs = s.mOutputs ∧ (b.openPsi s c).storedBy = s.storedBy ∧
      ((b.mPsiRecvOpen c = true ∧ s.mOutputProm = none ∧
          (b.openPsi s c).mOutputProm = some (.ok c) ∧ (b.openPsi s c).matched = some c) ∨
        ((b.openPsi s c).matched = s.matched ∧
          (s.mOutputProm ≠ none → (b.openPsi s c).mOutputProm = s.mOutputProm))) := by
  unfold openPsi
  by_cases isMatch : b.mPsiRecvOpen c = true
  · rw [if_pos isMatch]
    cases prom : s.mOutputProm with
    | none => exact ⟨⟨_, .inl rfl, rfl⟩, rfl, rfl, .inl ⟨isMatch, rfl, rfl, rfl⟩⟩
    | some value => exact ⟨⟨_, .inr rfl, rfl⟩, rfl, rfl, .inr ⟨rfl, fun _ => rfl⟩⟩
  · rw [if_neg isMatch]
    by_cases last : s.mOutputMissCount + 1 = B
    · rw [if_pos last]
      cases prom : s.mOutputProm with
      | none => exact ⟨⟨_, .inl rfl, rfl⟩, rfl, rfl, .inr ⟨rfl, fun some => absurd rfl some⟩⟩
      | some value => exact ⟨⟨_, .inr rfl, rfl⟩, rfl, rfl, .inr ⟨rfl, fun _ => rfl⟩⟩
    · rw [if_neg last]
      exact ⟨⟨_, .inl rfl, rfl⟩, rfl, rfl, .inr ⟨rfl, fun _ => rfl⟩⟩

/-- What holds between the steps: a stored value belongs to a circuit that may be confused
    with the slot, and the promise names the slot that matched. -/
structure Inv (s : EvalState B) : Prop where
  evaluated : ∀ c psiInput, s.stage c = .evaluated psiInput → psiInput = b.psiValue c
  written : ∀ c, s.stage c ≠ .start → s.mOutputs c = b.outputs c
  alike : ∀ slot c, s.storedBy slot = some c → b.mPsiRecvOpen slot = true →
    b.outputs c = b.outputs slot
  fulfilled : ∀ slot, s.matched = some slot →
    s.mOutputProm = some (.ok slot) ∧ s.stage slot ≠ .start ∧ b.mPsiRecvOpen slot = true

theorem inv_initial : b.Inv initial where
  evaluated := fun _ psiInput here => nomatch (here : Stage.start = .evaluated psiInput)
  written := fun _ moved => absurd rfl moved
  alike := fun _ c stored => nomatch (stored : none = some c)
  fulfilled := fun slot isMatch => nomatch (isMatch : none = some slot)

/-- A thread past the start that only changes its stage, to one that is neither the start nor
    just after the evaluation, keeps the first two parts and every stage past the start. -/
theorem stages_of_update {s : EvalState B} (inv : b.Inv s) {c : Fin B} (stage : Stage B)
    (moved : s.stage c ≠ .start) (later : stage ≠ .start)
    (notEvaluated : ∀ psiInput, stage ≠ .evaluated psiInput) :
    (∀ d psiInput, update s.stage c stage d = .evaluated psiInput → psiInput = b.psiValue d) ∧
      (∀ d, update s.stage c stage d ≠ .start → s.mOutputs d = b.outputs d) ∧
      ∀ d, s.stage d ≠ .start → update s.stage c stage d ≠ .start := by
  refine ⟨fun d psiInput => ?_, fun d => ?_, fun d => ?_⟩ <;>
    by_cases same : d = c
  · rw [same, update_self]
    exact fun here => absurd here (notEvaluated psiInput)
  · rw [update_of_ne same]
    exact inv.evaluated d psiInput
  · rw [same]
    exact fun _ => inv.written c moved
  · rw [update_of_ne same]
    exact inv.written d
  · rw [same, update_self]
    exact fun _ => later
  · rw [update_of_ne same]
    exact id

theorem inv_of_update {s : EvalState B} (inv : b.Inv s) {c : Fin B} (stage : Stage B)
    (moved : s.stage c ≠ .start) (later : stage ≠ .start)
    (notEvaluated : ∀ psiInput, stage ≠ .evaluated psiInput)
    (promises : Fin B → Option Block) :
    b.Inv { s with stage := update s.stage c stage, mPsiInputPromise := promises } := by
  obtain ⟨evaluated, written, moves⟩ := b.stages_of_update inv stage moved later notEvaluated
  refine ⟨evaluated, written, inv.alike, fun slot isMatch => ?_⟩
  obtain ⟨prom, past, isOpen⟩ := inv.fulfilled slot isMatch
  exact ⟨prom, moves slot past, isOpen⟩

theorem inv_evalCircuit {s : EvalState B} (inv : b.Inv s) (c : Fin B) :
    b.Inv { s with
      stage := update s.stage c (.evaluated (b.psiValue c))
      mOutputs := update s.mOutputs c (b.outputs c) } where
  evaluated := by
    intro d psiInput (here : update s.stage c _ d = _)
    by_cases same : d = c
    · subst same
      rw [update_self] at here
      exact (Stage.evaluated.inj here).symm
    · rw [update_of_ne same] at here
      exact inv.evaluated d psiInput here
  written := by
    intro d (moved : update s.stage c _ d ≠ _)
    change update s.mOutputs c _ d = _
    by_cases same : d = c
    · subst same
      exact update_self _ _ _
    · rw [update_of_ne same] at moved ⊢
      exact inv.written d moved
  alike := inv.alike
  fulfilled := by
    intro slot isMatch
    obtain ⟨prom, past, isOpen⟩ := inv.fulfilled slot isMatch
    refine ⟨prom, ?_, isOpen⟩
    change update s.stage c _ slot ≠ _
    by_cases same : slot = c
    · rw [same, update_self]
      exact nofun
    · rw [update_of_ne same]
      exact past

theorem inv_store {s : EvalState B} (inv : b.Inv s) {c : Fin B} {psiInput : Block}
    {draws : Nat → Block} (here : s.stage c = .evaluated psiInput) (inside : s.mPSIIdxHead < B)
    (alike : b.StoredAlike s (.store c draws)) :
    b.Inv (b.storePsi s c psiInput draws ⟨s.mPSIIdxHead, inside⟩) := by
  have moved : s.stage c ≠ .start := by
    rw [here]
    exact nofun
  obtain ⟨evaluated, written, moves⟩ := b.stages_of_update inv
    (.stored (b.mPSIInputPermutes ⟨s.mPSIIdxHead, inside⟩)
      (replaceStored draws 0 psiInput (b.storedBlocks s))) moved nofun nofun
  refine ⟨evaluated, written, fun slot d stored isOpen => ?_, fun slot isMatch => ?_⟩
  · by_cases same : slot = b.mPSIInputPermutes ⟨s.mPSIIdxHead, inside⟩
    · subst same
      simp only [storePsi, update_self] at stored
      split at stored
      case isTrue => cases stored
      case isFalse new =>
        cases stored
        rw [inv.evaluated c psiInput here] at new
        exact alike inside new isOpen
    · simp only [storePsi, update_of_ne same] at stored
      exact inv.alike slot d stored isOpen
  · obtain ⟨prom, past, isOpen⟩ := inv.fulfilled slot isMatch
    exact ⟨prom, moves slot past, isOpen⟩

theorem inv_psiOpen {s : EvalState B} (inv : b.Inv s) {c : Fin B} (moved : s.stage c ≠ .start) :
    b.Inv (b.openPsi s c) := by
  obtain ⟨⟨stage, finished, stages⟩, outputs, stored, fulfilled⟩ := b.openPsi_cases s c
  obtain ⟨evaluated, written, moves⟩ := b.stages_of_update inv stage moved
    (by rcases finished with rfl | rfl <;> exact nofun)
    (by rcases finished with rfl | rfl <;> exact nofun)
  rw [← stages] at evaluated written moves
  rw [← outputs] at written
  refine ⟨evaluated, written, by rw [stored]; exact inv.alike, fun slot isMatch => ?_⟩
  rcases fulfilled with ⟨isOpen, _, prom, matched⟩ | ⟨matched, prom⟩
  · rw [matched] at isMatch
    cases isMatch
    exact ⟨prom, moves c moved, isOpen⟩
  · rw [matched] at isMatch
    obtain ⟨before, past, isOpen⟩ := inv.fulfilled slot isMatch
    refine ⟨?_, moves slot past, isOpen⟩
    rw [prom (by rw [before]; exact nofun), before]

theorem inv_step {s t : EvalState B} {a : EvalAction B} (inv : b.Inv s)
    (alike : b.StoredAlike s a) (taken : b.step s a = some t) : b.Inv t := by
  cases a with
  | evalCircuit c =>
    obtain ⟨_, rfl⟩ := evalCircuit_inv taken
    exact b.inv_evalCircuit inv c
  | store c draws =>
    obtain ⟨psiInput, here, inside, rfl⟩ := store_inv taken
    exact b.inv_store inv here inside alike
  | setValue c =>
    obtain ⟨moved, stage, promises, later, rfl⟩ := setValue_inv taken
    exact b.inv_of_update inv stage moved (by rcases later with rfl | rfl <;> exact nofun)
      (by rcases later with rfl | rfl <;> exact nofun) promises
  | get c =>
    obtain ⟨waiting, psiInput, _, rfl⟩ := get_inv taken
    exact b.inv_of_update inv (.received psiInput) (by rw [waiting]; exact nofun) nofun nofun _
  | throw c =>
    obtain ⟨⟨psiInput, received⟩, rfl⟩ := throw_inv taken
    exact b.inv_of_update inv .lost (by rw [received]; exact nofun) nofun nofun _
  | psiOpen c =>
    obtain ⟨⟨psiInput, received⟩, rfl⟩ := psiOpen_inv taken
    exact b.inv_psiOpen inv (by rw [received]; exact nofun)

theorem returnsMatched_of_inv {s : EvalState B} (inv : b.Inv s) : b.ReturnsMatched s := by
  intro slot c isMatch stored
  obtain ⟨prom, past, isOpen⟩ := inv.fulfilled slot isMatch
  unfold execute
  rw [prom]
  simp only
  rw [inv.written slot past, inv.alike slot c stored isOpen]

/-- In every run whose threads store their values alike, `execute` returns the outputs of the
    circuit whose value has matched. -/
theorem returns_matched_along {s : EvalState B}
    (run : Run.Along b.step b.StoredAlike initial s) : b.ReturnsMatched s :=
  b.returnsMatched_of_inv (run.invariant (fun _ _ _ => b.inv_step) b.inv_initial)

/-- Two circuits with different values, shuffled slots, and a match on slot 0 only. -/
def twoCircuits (outputs : Fin 2 → List Bool) : EvalBucket 2 where
  psiValue := fun c => BitVec.ofNat 128 c
  outputs := outputs
  mPSIInputPermutes := Equiv.swap 0 1
  mPsiRecvOpen := fun slot => slot == 0

/-- Thread 0 comes first and so stores in slot 1; then it is the one that opens slot 0. -/
def inOrder : List (EvalAction 2) :=
  [.evalCircuit 0, .evalCircuit 1, .store 0 fun _ => zeroBlock, .store 1 fun _ => zeroBlock,
    .setValue 0, .setValue 1, .get 0, .psiOpen 0]

theorem inOrder_matches (outputs : Fin 2 → List Bool) :
    ∃ s, Run.exec (twoCircuits outputs).step initial inOrder = some s ∧ s.matched = some 0 ∧
      s.storedBy 0 = some 1 ∧ execute s = some (outputs 0) :=
  ⟨_, rfl, rfl, rfl, rfl⟩

/-- Circuits with the same outputs may be confused. -/
theorem returns_matched_equal_outputs :
    ∃ s, Run.exec (twoCircuits fun _ => [true]).step initial inOrder = some s ∧
      s.matched = some 0 ∧ (twoCircuits fun _ => [true]).ReturnsMatched s := by
  obtain ⟨s, run, isMatch, _, _⟩ := inOrder_matches fun _ => [true]
  refine ⟨s, run, isMatch, returns_matched_along _ (.of_exec (fun a _ u => ?_) run)⟩
  cases a with
  | store c draws => exact fun _ _ _ => rfl
  | _ => trivial

/-- Slot 0 holds the value of circuit 1, and its match returns the outputs of circuit 0. -/
theorem returns_other_circuit :
    ∃ s, Run.Along (twoCircuits fun c => [c == 1]).step (fun _ _ => True) initial s ∧
      ¬ (twoCircuits fun c => [c == 1]).ReturnsMatched s := by
  obtain ⟨s, run, isMatch, stored, returned⟩ := inOrder_matches fun c => [c == 1]
  refine ⟨s, .of_exec (fun _ _ _ => trivial) run, fun agrees => ?_⟩
  have other := agrees 0 1 isMatch stored
  rw [returned] at other
  exact absurd (Option.some.inj other) (by decide)

end EvalBucket

end BatchDualEx
