import BatchDualEx.DualEx.Evaluation

/- The end of the online phase, whatever the order of the steps: when the circuits of the two
   parties have one value in common, both `execute` return outputs for it, and when they have none,
   both get the exception. -/
namespace BatchDualEx

open Function WriteOnce

variable {B : Nat} {Digest : Type}

theorem Role.eq_or_other (r r' : Role) : r' = r ∨ r' = r.other := by
  cases r <;> cases r' <;> simp [Role.other]

namespace Evaluation

section
variable (e : Evaluation B Digest) (s : EvaluationState B Digest)

/-- Circuit `c` of party `r` and circuit `d` of the other party have the same value, as far as the
    set intersection compares them. -/
def Meet (r : Role) (c d : Fin B) : Prop :=
  AgreeOn (e.psi r).wordSize (e.psiValue r.other d) (e.psiValue r c)

/-- The set intersections find what they should, and no draw of one party looks like a value or a
    draw of the other. -/
structure Intersects : Prop where
  correct : ∀ r, (e.psi r).Correct
  independent : ∀ r, (e.psi r).Independent
  injective : ∀ r, ∀ j < (e.psi r).inputSize, Injective fun b => PRF (e.psi r).aesFixedKey b j
  draws : ∀ r c d, ¬ AgreeOn (e.psi r).wordSize (e.draws r.other d 0) (e.draws r c 0)
  drawn : ∀ r c d, ¬ AgreeOn (e.psi r).wordSize (e.draws r.other d 0) (e.psiValue r c)
  valued : ∀ r c d, ¬ AgreeOn (e.psi r).wordSize (e.psiValue r.other d) (e.draws r c 0)

def Single : Prop := ∀ r c d c' d', e.Meet r c d → e.Meet r c' d' → e.psiValue r c = e.psiValue r c'

/-- Party `r` has fulfilled its promise with a slot that holds the common value, and returns the
    outputs of the circuit with the number of the slot. -/
def Gets (r : Role) : Prop := ∃ slot c d, (s.threads r).mOutputProm = some (.ok slot) ∧
  (s.threads r).mPSIInputBlocks slot = e.psiValue r c ∧ e.Meet r c d ∧
  EvalBucket.execute (s.threads r) = some (e.outputs r slot)

end

section
variable {e : Evaluation B Digest} {s t : EvaluationState B Digest} {r : Role} {c : Fin B}

/-- Nothing is opened before all blocks of both parties are in their slots. -/
theorem Inv.all_promised (inv : e.Inv s) (opened : (c : Nat) ∈ (s.psi r).made .receiverOpen)
    (r' : Role) (slot : Fin B) : (s.threads r').mPsiInputPromise slot ≠ none := by
  have mine := (inv.checks r c (inv.receiverOpen r c opened)).1
  have checked := inv.senderOpen r c ((inv.current r).answered opened) c
  have theirs := (inv.checks r.other c checked).1
  rw [Role.other_other] at theirs
  rcases Role.eq_or_other r r' with rfl | rfl
  · have promised := inv.opens r'.other mine slot
    rwa [Role.other_other] at promised
  · exact inv.opens r theirs slot

theorem Inv.filled (inv : e.Inv s) (opened : (c : Nat) ∈ (s.psi r).made .receiverOpen) (r' : Role) :
    (e.bucket r' (answered s r')).Filled (e.draws r') (s.threads r') := by
  obtain ⟨given, slots⟩ := (inv.steady r' _ (completes_answered s r')).slots
  exact slots.filled (inv.all_promised opened r')

theorem Inv.opened_of_answers (inv : e.Inv s) (returned : (s.psi r).answers c ≠ none) :
    (c : Nat) ∈ (s.psi r).made .receiverOpen := by
  by_contra unopened
  have value := (inv.current r).answers c
  rw [if_neg unopened] at value
  exact returned value

theorem Intersects.found_iff (intersects : e.Intersects) {recvSet sendSet : Nat → Block} {i : Nat}
    (element : i < (e.psi r).inputSize) : (e.setup r recvSet sendSet).found i = true ↔
      ∃ j < (e.psi r).inputSize, AgreeOn (e.psi r).wordSize (sendSet j) (recvSet i) := by
  have correct : (e.setup r recvSet sendSet).Correct := intersects.correct r
  have independent : (e.setup r recvSet sendSet).Independent := intersects.independent r
  constructor
  · exact PsiSetup.agree_of_found correct independent (intersects.injective r) element
  · rintro ⟨j, inside, agree⟩
    exact PsiSetup.found_of_agree correct element inside agree

theorem Inv.answered_iff (inv : e.Inv s) (started : e.Started) (intersects : e.Intersects)
    (opened : (c : Nat) ∈ (s.psi r).made .receiverOpen) : answered s r c = true ↔
      ∃ d d', (s.threads r).mPSIInputBlocks c = e.psiValue r d ∧ e.Meet r d d' := by
  have mine := inv.filled opened r
  have theirs := inv.filled opened r.other
  have answer := (inv.current r).answers c
  rw [if_pos opened] at answer
  have recv := elements_of_written (mine.promise c)
  have send (j : Fin B) := elements_of_written (theirs.promise j)
  have element : (c : Nat) < (e.psi r).inputSize := by
    rw [started.sized r]
    exact c.isLt
  unfold answered
  rw [answer, beq_iff_eq, Option.some.injEq, intersects.found_iff element, started.sized r, recv]
  constructor
  · rintro ⟨j, below, agree⟩
    rw [send ⟨j, below⟩] at agree
    obtain ⟨d, value | draw⟩ := mine.kept c
    · obtain ⟨d', value' | draw'⟩ := theirs.kept ⟨j, below⟩
      · rw [value, value'] at agree
        exact ⟨d, d', value, agree⟩
      · rw [value, draw'] at agree
        exact absurd agree (intersects.drawn r d d')
    · obtain ⟨d', value' | draw'⟩ := theirs.kept ⟨j, below⟩
      · rw [draw, value'] at agree
        exact absurd agree (intersects.valued r d d')
      · rw [draw, draw'] at agree
        exact absurd agree (intersects.draws r d d')
  · rintro ⟨d, d', value, meet⟩
    obtain ⟨slot, here⟩ := theirs.covers d'
    refine ⟨slot, slot.isLt, ?_⟩
    rw [send slot, here, value]
    exact meet

theorem Inv.answered_unique (inv : e.Inv s) (started : e.Started) (intersects : e.Intersects)
    (single : e.Single) {d : Fin B} (first : answered s r c = true)
    (second : answered s r d = true) : c = d := by
  have opened (c : Fin B) (isMatch : answered s r c = true) :
      (c : Nat) ∈ (s.psi r).made .receiverOpen := by
    refine inv.opened_of_answers fun none => ?_
    unfold answered at isMatch
    rw [none] at isMatch
    cases isMatch
  obtain ⟨x, x', value, meet⟩ := (inv.answered_iff started intersects (opened c first)).mp first
  obtain ⟨y, y', value', meet'⟩ := (inv.answered_iff started intersects (opened d second)).mp second
  exact (inv.filled (opened c first) r).distinct
    (value.trans ((single r x x' y y' meet meet').trans value'.symm))

theorem Inv.not_lost (inv : e.Inv s) (started : e.Started) (intersects : e.Intersects)
    (single : e.Single) : (s.threads r).stage c ≠ .lost := by
  intro lost
  have fits := (inv.steady r _ (completes_answered s r)).promise.fits c
  change PromiseState.Fits _ c ((s.threads r).stage c).promise at fits
  rw [lost] at fits
  obtain ⟨mine, d, apart, theirs⟩ := fits
  exact apart (inv.answered_unique started intersects single theirs mine)

section
variable [DecidableEq Digest] (inv : e.Inv s) (started : e.Started)
  (stuck : ∀ a, e.step s a = none)
include stuck

theorem stuck_move {m : ThreadMove} (ready : m = .report → (s.psi r).answers c ≠ none) :
    (e.bucket r (answered s r)).step (s.threads r) (e.action r c m) = none := by
  have still := stuck (.move r m c)
  simp only [step] at still
  rw [if_neg fun waits => ready waits.1 waits.2] at still
  exact Option.map_eq_none_iff.mp still

include inv

theorem Inv.delivered (r : Role) (c : Fin B) : ((s.threads r).stage c).Delivered := by
  obtain ⟨given, slots⟩ := (inv.steady r _ (completes_answered s r)).slots
  cases here : (s.threads r).stage c with
  | start =>
    have still := stuck_move (r := r) (c := c) (m := .evalCircuit) stuck (by simp)
    simp only [action, EvalBucket.step, here] at still
    cases still
  | evaluated psiInput =>
    have inside := slots.head_lt (c := c) (by rw [here]; exact id)
    have still := stuck_move (r := r) (c := c) (m := .store) stuck (by simp)
    simp only [action, EvalBucket.step, here, dif_pos inside] at still
    cases still
  | stored slot psiInput =>
    have still := stuck_move (r := r) (c := c) (m := .setValue) stuck (by simp)
    simp only [action, EvalBucket.step, here] at still
    split at still <;> cases still
  | _ => trivial

theorem Inv.fetched (r : Role) (c : Fin B) :
    (∃ psiInput, (s.threads r).stage c = .received psiInput) ∨
      ((s.threads r).stage c).promise ≠ .opening := by
  obtain ⟨given, slots⟩ := (inv.steady r _ (completes_answered s r)).slots
  have delivered := inv.delivered stuck r
  cases here : (s.threads r).stage c with
  | start | evaluated _ | stored _ _ =>
    have late := delivered c
    rw [here] at late
    exact late.elim
  | waiting =>
    obtain ⟨psiInput, written⟩ := Option.ne_none_iff_exists'.mp
      (slots.promised_of_delivered delivered c)
    have still := stuck_move (r := r) (c := c) (m := .get) stuck (by simp)
    simp only [action, EvalBucket.step, here, written] at still
    cases still
  | received psiInput => exact .inl ⟨psiInput, rfl⟩
  | finished | lost => exact .inr (by simp [Stage.promise])

include started

/-- A call that its thread has come to, and that does not have to wait, has been made. -/
theorem Inv.call_made {k : PsiStep} (reached : Reached s r c k)
    (ready : PsiRun.Ready (e.psi r).inputSize (s.psi r).made c k) :
    (c : Nat) ∈ (s.psi r).made k := by
  by_contra fresh
  have below : (c : Nat) < (e.psi r).inputSize := by
    rw [started.sized r]
    exact c.isLt
  obtain ⟨u, called, _⟩ := (inv.current r).call_ready below (started.word r) fresh ready
  have still := stuck (.psi r k c)
  simp only [Evaluation.step] at still
  rw [if_pos reached, inv.step_eq reached (completes_elements _) (completes_elements _)] at still
  unfold PsiRun.step at still
  rw [if_pos ⟨below, fresh⟩, called] at still
  cases still

/-- Each kind of call makes the next one possible. -/
theorem Inv.all_open (r : Role) (c : Fin B) : (c : Nat) ∈ (s.psi r).made .receiverOpen := by
  have every {r : Role} {k : PsiStep} (made : ∀ c : Fin B, (c : Nat) ∈ (s.psi r).made k) :
      ∀ i < (e.psi r).inputSize, i ∈ (s.psi r).made k := by
    intro i below
    rw [started.sized r] at below
    exact made ⟨i, below⟩
  have masked (r : Role) (c : Fin B) : (c : Nat) ∈ (s.psi r).made .receiverCommitSend := by
    rcases inv.fetched stuck r c with ⟨psiInput, here⟩ | handled
    · refine inv.call_made started stuck ?_ trivial
      change ((s.threads r).stage c).received?.isSome = true
      rw [here]
      rfl
    · have opened := inv.opened_of_answers (inv.reported r c handled)
      exact inv.masked r c (inv.checks r c (inv.receiverOpen r c opened)).2
  have permuted (r : Role) (c : Fin B) : (c : Nat) ∈ (s.psi r).made .senderCommitRecv :=
    inv.call_made started stuck trivial (masked r c)
  have promised (r : Role) (c : Fin B) : (s.threads r).mPsiInputPromise c ≠ none :=
    inv.committed r c (masked r c)
  have sent (r : Role) (c : Fin B) : (c : Nat) ∈ (s.psi r).made .senderCommitSend :=
    inv.call_made started stuck ⟨permuted r c, Option.isSome_iff_ne_none.mpr (promised r.other c)⟩
      (every (permuted r))
  have commits (r : Role) (c : Fin B) : (c : Nat) ∈ (s.psi r).made .receiverCommitRecv :=
    inv.call_made started stuck (masked r c) (sent r c)
  have opened (r : Role) : s.opened r = true := by
    by_contra closed
    have received : (s.psi r.other).sender.mRemainingInputCommits = 0 := by
      rw [(inv.current r.other).sender.remaining]
      exact Pending.pending_eq_zero_iff.mpr (every (permuted r.other))
    have committed : (s.psi r).receiver.mRemainingInputCommits = 0 := by
      rw [(inv.current r).receiver.remaining]
      exact Pending.pending_eq_zero_iff.mpr (every (commits r))
    have still := stuck (.openTranslation r)
    simp only [Evaluation.step] at still
    rw [if_pos ⟨Bool.eq_false_iff.mpr closed, received, committed⟩] at still
    cases still
  have checked (r : Role) (c : Fin B) : c ∈ s.checked r := by
    by_contra unchecked
    have still := stuck (.checkTranslation r c)
    simp only [Evaluation.step] at still
    rw [if_pos ⟨opened r.other, commits r c, unchecked⟩] at still
    cases still
  have rows (r : Role) (c : Fin B) : (c : Nat) ∈ (s.psi r).made .senderOpen :=
    inv.call_made started stuck ⟨sent r c, checked r.other⟩ (every (sent r))
  exact inv.call_made started stuck (checked r c) ⟨every (commits r), rows r c⟩

theorem Inv.all_finished (intersects : e.Intersects) (single : e.Single) (r : Role) (c : Fin B) :
    (s.threads r).stage c = .finished := by
  have answers : (s.psi r).answers c ≠ none := by
    rw [(inv.current r).answers c, if_pos (inv.all_open started stuck r c)]
    exact Option.some_ne_none _
  rcases inv.fetched stuck r c with ⟨psiInput, here⟩ | handled
  · have still := stuck_move (r := r) (c := c) (m := .report) stuck fun _ => answers
    simp only [action, EvalBucket.step, here] at still
    cases still
  · cases here : (s.threads r).stage c with
    | finished => rfl
    | lost => exact absurd here (inv.not_lost started intersects single)
    | _ =>
      rw [here] at handled
      exact absurd rfl handled

theorem Inv.promise_eq (intersects : e.Intersects) (single : e.Single) (r : Role) :
    ((∃ c d, e.Meet r c d) → e.Gets s r) ∧
      ((∀ c d, ¬ e.Meet r c d) →
        (s.threads r).mOutputProm = some (.error PromiseState.noItems)) := by
  have steady := inv.steady r _ (completes_answered s r)
  have finished := inv.all_finished started stuck intersects single r
  have opened := inv.all_open started stuck r
  have done (c : Fin B) :
      PromiseState.step (answered s r) (s.threads r).promise c = none := by
    have here : (s.threads r).promise.stage c = .finished := congrArg Stage.promise (finished c)
    simp only [PromiseState.step, here]
  have fulfilled := steady.promise.fulfilled done
  obtain ⟨value, prom⟩ := Option.ne_none_iff_exists'.mp fulfilled
  change (s.threads r).mOutputProm = some value at prom
  cases value with
  | ok slot =>
    have isMatch := (steady.promise.ok slot prom).1
    obtain ⟨c, d, block, meet⟩ := (inv.answered_iff started intersects (opened slot)).mp isMatch
    refine ⟨fun _ => ⟨slot, c, d, prom, block, meet, ?_⟩, fun none => absurd meet (none c d)⟩
    unfold EvalBucket.execute
    rw [prom]
    exact congrArg some (steady.written slot (by simp [finished slot]))
  | error fault =>
    obtain ⟨text, full, _⟩ := steady.promise.error fault prom
    rw [prom, text]
    refine ⟨?_, fun _ => rfl⟩
    rintro ⟨c, d, meet⟩
    obtain ⟨slot, block⟩ := (inv.filled (opened c) r).covers c
    have isMatch := (inv.answered_iff started intersects (opened slot)).mpr ⟨c, d, block, meet⟩
    have missed := (steady.promise.all_missed full slot).1
    exact absurd (isMatch.symm.trans missed) (by simp)

end

end

def leftOf (s : EvaluationState B Digest) (r : Role) : Nat :=
  ∑ c, EvalBucket.rank ((s.threads r).stage c) + PsiRun.left B (s.psi r).made +
    (if s.opened r then 0 else 1) + (B - (s.checked r).card)

def left (s : EvaluationState B Digest) : Nat := leftOf s .first + leftOf s .second

section
variable {e : Evaluation B Digest} {s t : EvaluationState B Digest} {r : Role}

theorem left_lt (others : ∀ r', r' ≠ r → leftOf t r' = leftOf s r')
    (lower : leftOf t r < leftOf s r) : left t < left s := by
  unfold left
  cases r with
  | first =>
    have same := others .second (by decide)
    omega
  | second =>
    have same := others .first (by decide)
    omega

theorem step_lowers [DecidableEq Digest] {a : EvaluationAction B} (taken : e.step s a = some t) :
    left t < left s := by
  cases a with
  | move r m c =>
    obtain ⟨_, u, moved, rfl⟩ := move_inv taken
    obtain ⟨others, _, _, lower⟩ := EvalBucket.step_moved moved
    rw [thread_action] at others lower
    have fewer : ∑ c, EvalBucket.rank (u.stage c) <
        ∑ c, EvalBucket.rank ((s.threads r).stage c) := by
      refine Finset.sum_lt_sum (fun d _ => ?_) ⟨c, Finset.mem_univ c, lower⟩
      by_cases mine : d = c
      · rw [mine]
        exact lower.le
      · rw [others d mine]
    refine left_lt (r := r) (fun r' other => ?_) ?_
    · unfold leftOf
      simp only [update_of_ne other]
    · unfold leftOf
      simp only [update_self]
      omega
  | psi r k c =>
    obtain ⟨_, u, called, rfl⟩ := psi_inv taken
    obtain ⟨⟨below, fresh⟩, v, _, same⟩ := PsiRun.step_some called
    have fewer : PsiRun.left B u.made < PsiRun.left B (s.psi r).made := by
      rw [same]
      exact PsiRun.left_mark c.isLt fresh
    refine left_lt (r := r) (fun r' other => ?_) ?_
    · unfold leftOf
      simp only [update_of_ne other]
    · unfold leftOf
      simp only [update_self]
      omega
  | openTranslation r =>
    simp only [step] at taken
    split at taken
    case isFalse => cases taken
    case isTrue waits =>
      cases taken
      refine left_lt (r := r) (fun r' other => ?_) ?_
      · unfold leftOf
        simp only [update_of_ne other]
      · unfold leftOf
        simp only [update_self, waits.1]
        simp
  | checkTranslation r c =>
    simp only [step] at taken
    split at taken
    case isFalse => cases taken
    case isTrue waits =>
      cases taken
      have grown := Finset.card_insert_of_notMem waits.2.2
      have bound := Finset.card_le_univ (insert c (s.checked r))
      rw [Fintype.card_fin] at bound
      refine left_lt (r := r) (fun r' other => ?_) ?_
      · unfold leftOf
        simp only [update_of_ne other]
      · unfold leftOf
        simp only [update_self]
        omega

end

/-- In every order of the steps no thread is lost, no call of a set intersection throws, and when
    nothing can move any more both parties have fulfilled their promises: with outputs for the
    value that they have in common, or with the exception when they have none. -/
theorem outcome_of_run [DecidableEq Digest] (e : Evaluation B Digest) (positive : 0 < B)
    (started : e.Started) (intersects : e.Intersects) (single : e.Single) :
    ∃ start, e.init = .ok start ∧
      (∀ as t, Run.exec e.step start as = some t → as.length ≤ 24 * B + 2) ∧
      ∀ s, Run.Along e.step (fun _ _ => True) start s →
        (∀ r c, (s.threads r).stage c ≠ .lost) ∧
        (∀ r k c fault, Reached s r c k → (s.psi r).due (e.current s r) (k, ↑c) →
          (s.psi r).call (e.current s r) k c ≠ some (.error fault)) ∧
        ((∀ a, e.step s a = none) → ∀ r,
          ((∃ c d, e.Meet r c d) → e.Gets s r) ∧
          ((∀ c d, ¬ e.Meet r c d) →
            (s.threads r).mOutputProm = some (.error PromiseState.noItems))) := by
  obtain ⟨start, run, inv, threads, made, opened, checked⟩ := init_inv positive started
  refine ⟨start, run, fun as t exec => ?_, fun s along => ?_⟩
  · have bound := Run.exec_length_le (fun _ _ _ taken => step_lowers taken) exec
    have ranks : ∑ _c : Fin B, EvalBucket.rank (.start : Stage B) = B * 5 := by
      rw [Finset.sum_const_nat fun _ _ => rfl, Finset.card_univ, Fintype.card_fin]
      rfl
    have whole (r : Role) : leftOf start r = 12 * B + 1 := by
      simp only [leftOf, threads, PsiRun.left, made, opened, checked, Pending.pending_empty,
        EvalBucket.initial, ranks, Finset.card_empty, Bool.false_eq_true, if_false]
      omega
    unfold left at bound
    rw [whole, whole] at bound
    omega
  · have inv := along.invariant (fun _ _ _ inv _ taken => inv.step started taken) inv
    refine ⟨fun r c => inv.not_lost started intersects single, ?_,
      fun stuck r => inv.promise_eq started stuck intersects single r⟩
    intro r k c fault reached isDue thrown
    rw [inv.call_eq reached (completes_elements _) (completes_elements _)] at thrown
    have honest : (PsiRun.system (e.setup r (elements (s.threads r).mPsiInputPromise)
        (elements (s.threads r.other).mPsiInputPromise))).Honest (PsiRun.Ready (e.psi r).inputSize)
        (PsiRun.Inv (e.setup r (elements (s.threads r).mPsiInputPromise)
          (elements (s.threads r.other).mPsiInputPromise))) := PsiRun.honest (started.word r)
    exact honest.not_thrown (inv.current r) isDue fault thrown

/-- Two circuits on each side with the same value, and draws with another low word for each
    party. -/
def twoParties : Evaluation 2 Block where
  psiValue _ _ := zeroBlock
  outputs _ _ := [true]
  mPSIInputPermutes _ := Fin.revPerm
  draws
    | .first, c, _ => BitVec.ofNat 128 (4 * c + 1)
    | .second, c, _ => BitVec.ofNat 128 (4 * c + 2)
  psi _ := PsiRun.twoWords

theorem outcome_of_run_two_parties : ∃ start, twoParties.init = .ok start ∧
    ∀ s, Run.Along twoParties.step (fun _ _ => True) start s →
      (∀ a, twoParties.step s a = none) →
        ∀ r, EvalBucket.execute (s.threads r) = some [true] := by
  have own (r : Role) : (∀ c d, twoParties.draws r c 0 = twoParties.draws r d 0 → c = d) ∧
      ∀ c, twoParties.draws r c 0 ≠ zeroBlock := by
    cases r <;> decide
  have started : twoParties.Started := {
    sized := fun _ => rfl
    word := fun _ => Nat.le_of_ble_eq_true rfl
    fresh := fun r _ => ⟨(own r).1, fun c _ => (own r).2 c⟩ }
  have apart (x y : Block) (differ : x.getLsbD 0 ≠ y.getLsbD 0 ∨ x.getLsbD 1 ≠ y.getLsbD 1) :
      ¬ AgreeOn 2 x y := by
    intro agree
    rcases differ with low | high
    · exact low (agree 0 (by decide))
    · exact high (agree 1 (by decide))
  have intersects : twoParties.Intersects := {
    correct := fun _ => PsiRun.twoWords_correct
    independent := fun _ => PsiRun.twoWords_independent
    injective := fun _ j _ => PsiRun.twoWords_injective j
    draws := fun r c d => apart _ _ (by revert c d; cases r <;> decide)
    drawn := fun r c d => apart _ _ (by revert c d; cases r <;> decide)
    valued := fun r c d => apart _ _ (by revert c d; cases r <;> decide) }
  obtain ⟨start, run, _, outcome⟩ := outcome_of_run twoParties (by decide) started intersects
    fun _ _ _ _ _ _ _ => rfl
  refine ⟨start, run, fun s along stuck r => ?_⟩
  obtain ⟨slot, c, d, _, _, _, returned⟩ :=
    ((outcome s along).2.2 stuck r).1 ⟨0, 0, fun _ _ => rfl⟩
  exact returned

end Evaluation

end BatchDualEx
