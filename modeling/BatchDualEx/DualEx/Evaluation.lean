import BatchDualEx.DualEx.Execution
import BatchDualEx.DualEx.ThreadPromise
import BatchDualEx.PSI.PsiOpen

/- One bucket of both parties once the circuits and labels have arrived: the threads of
   `evalThreadLoop` and `sendCircuitInputLoop` and both set intersections, with the values that are
   evaluated, stored, committed to and opened (`PARALLEL_PSI`, synchronous set intersection). -/
namespace BatchDualEx

open Function WriteOnce

variable {B : Nat} {Digest : Type}

/-- The block that `mPsiRecv.CommitSend` commits to. -/
def Stage.received? : Stage B → Option Block
  | .received psiInput => some psiInput
  | _ => none

/-- What the circuits of both parties evaluate to, how their slots are shuffled and what their
    threads draw. Party `r` is the receiver of `psi r`, whose sets are replaced by the blocks that
    the threads commit to. -/
structure Evaluation (B : Nat) (Digest : Type) where
  psiValue : Role → Fin B → Block
  outputs : Role → Fin B → List Bool
  mPSIInputPermutes : Role → Equiv.Perm (Fin B)
  draws : Role → Fin B → Nat → Block
  psi : Role → PsiSetup Digest

/-- `opened` are the parties whose `sendLoop` has opened the translation, `checked` the threads that
    are past `checkTranslation`. -/
structure EvaluationState (B : Nat) (Digest : Type) where
  threads : Role → EvalState B
  psi : Role → PsiRun Digest
  opened : Role → Bool
  checked : Role → Finset (Fin B)

/-- What a thread of `evalThreadLoop` does without the other party. -/
inductive ThreadMove where
  | evalCircuit
  | store
  | setValue
  | get
  | report
  deriving DecidableEq, Repr

inductive EvaluationAction (B : Nat) where
  | move (r : Role) (m : ThreadMove) (c : Fin B)
  | psi (r : Role) (k : PsiStep) (c : Fin B)
  | openTranslation (r : Role)
  | checkTranslation (r : Role) (c : Fin B)

namespace Evaluation

variable (e : Evaluation B Digest) (s : EvaluationState B Digest)

def bucket (r : Role) (mPsiRecvOpen : Fin B → Bool) : EvalBucket B :=
  ⟨e.psiValue r, e.outputs r, e.mPSIInputPermutes r, mPsiRecvOpen⟩

def setup (r : Role) (recvSet sendSet : Nat → Block) : PsiSetup Digest :=
  { e.psi r with
    recvSet := recvSet
    sendSet := sendSet }

def elements (cells : Fin B → Option Block) (i : Nat) : Block :=
  if inside : i < B then (cells ⟨i, inside⟩).getD zeroBlock else zeroBlock

/-- The receiver commits to the block that its thread has got, the sender to the promised one. -/
def current (r : Role) : PsiSetup Digest :=
  e.setup r (elements fun c => ((s.threads r).stage c).received?)
    (elements (s.threads r.other).mPsiInputPromise)

def answered (r : Role) (c : Fin B) : Bool := (s.psi r).answers c == some true

def action (r : Role) (c : Fin B) : ThreadMove → EvalAction B
  | .evalCircuit => .evalCircuit c
  | .store => .store c (e.draws r c)
  | .setValue => .setValue c
  | .get => .get c
  | .report => .psiOpen c

/-- The thread that makes a call of `psi r` has come to it. The last condition is its wait for
    `mTranslationCheckDoneFuture`. -/
def Reached (r : Role) (c : Fin B) : PsiStep → Prop
  | .receiverCommitSend => ((s.threads r).stage c).received?.isSome = true
  | .receiverCommitRecv => (c : Nat) ∈ (s.psi r).made .receiverCommitSend
  | .receiverOpen => c ∈ s.checked r
  | .senderCommitRecv => True
  | .senderCommitSend => (c : Nat) ∈ (s.psi r).made .senderCommitRecv ∧
    ((s.threads r.other).mPsiInputPromise c).isSome = true
  | .senderOpen => (c : Nat) ∈ (s.psi r).made .senderCommitSend ∧ ∀ d, d ∈ s.checked r.other

instance (r : Role) (c : Fin B) (k : PsiStep) : Decidable (Reached s r c k) :=
  match k with
  | .receiverCommitSend => inferInstanceAs (Decidable (_ = _))
  | .receiverCommitRecv => inferInstanceAs (Decidable (_ ∈ _))
  | .receiverOpen => inferInstanceAs (Decidable (_ ∈ _))
  | .senderCommitRecv => inferInstanceAs (Decidable True)
  | .senderCommitSend => inferInstanceAs (Decidable (_ ∧ _))
  | .senderOpen => inferInstanceAs (Decidable (_ ∧ _))

def init : Except Fault (EvaluationState B Digest) := do
  let psi ← Opening.bothRoles fun r =>
    PsiRun.init (e.setup r (fun _ => zeroBlock) fun _ => zeroBlock)
  return {
    threads := fun _ => EvalBucket.initial
    psi := psi
    opened := fun _ => false
    checked := fun _ => ∅ }

/-- One step of some thread, or `none` where it has to wait. `openTranslation` waits for both
    commitments of the party, `checkTranslation` for the seed that it opens. -/
def step [DecidableEq Digest] (e : Evaluation B Digest) (s : EvaluationState B Digest) :
    EvaluationAction B → Option (EvaluationState B Digest)
  | .move r m c =>
    if m = .report ∧ (s.psi r).answers c = none then none
    else ((e.bucket r (answered s r)).step (s.threads r) (e.action r c m)).map fun t =>
      { s with threads := update s.threads r t }
  | .psi r k c =>
    if Reached s r c k then
      (PsiRun.step (e.current s r) (s.psi r) (k, c)).map fun t => { s with psi := update s.psi r t }
    else none
  | .openTranslation r =>
    if s.opened r = false ∧ (s.psi r.other).sender.mRemainingInputCommits = 0 ∧
        (s.psi r).receiver.mRemainingInputCommits = 0 then
      some { s with opened := update s.opened r true }
    else none
  | .checkTranslation r c =>
    if s.opened r.other = true ∧ (c : Nat) ∈ (s.psi r).made .receiverCommitRecv ∧
        c ∉ s.checked r then
      some { s with checked := update s.checked r (insert c (s.checked r)) }
    else none

structure Started : Prop where
  sized : ∀ r, (e.psi r).inputSize = B
  word : ∀ r, (e.psi r).wordSize ≤ 128
  fresh : ∀ r mPsiRecvOpen, (e.bucket r mPsiRecvOpen).FreshDraws (e.draws r)

/-- What holds between the steps. The threads and the calls are in order for every way to complete
    the answers and the promises that are still missing. -/
structure Inv : Prop where
  steady : ∀ r found, Completes (fun c : Fin B => (s.psi r).answers c) found →
    (e.bucket r found).Steady (e.draws r) (s.threads r)
  calls : ∀ r recvSet sendSet,
    Completes (s.threads r).mPsiInputPromise (fun c => recvSet c) →
    Completes (s.threads r.other).mPsiInputPromise (fun c => sendSet c) →
    PsiRun.Inv (e.setup r recvSet sendSet) (s.psi r)
  received : ∀ r c psiInput, (s.threads r).stage c = .received psiInput →
    (s.threads r).mPsiInputPromise c = some psiInput
  committed : ∀ r (c : Fin B), (c : Nat) ∈ (s.psi r).made .receiverCommitSend →
    (s.threads r).mPsiInputPromise c ≠ none
  masked : ∀ r (c : Fin B), (c : Nat) ∈ (s.psi r).made .receiverCommitRecv →
    (c : Nat) ∈ (s.psi r).made .receiverCommitSend
  opens : ∀ r, s.opened r = true → ∀ c, (s.threads r.other).mPsiInputPromise c ≠ none
  checks : ∀ r c, c ∈ s.checked r →
    s.opened r.other = true ∧ (c : Nat) ∈ (s.psi r).made .receiverCommitRecv
  senderOpen : ∀ r (c : Fin B), (c : Nat) ∈ (s.psi r).made .senderOpen → ∀ d, d ∈ s.checked r.other
  receiverOpen : ∀ r (c : Fin B), (c : Nat) ∈ (s.psi r).made .receiverOpen → c ∈ s.checked r
  reported : ∀ r c, ((s.threads r).stage c).promise ≠ .opening → (s.psi r).answers c ≠ none

theorem elements_of_written {cells : Fin B → Option Block} {c : Fin B} {a : Block}
    (written : cells c = some a) : elements cells c = a := by
  unfold elements
  rw [dif_pos c.isLt, written]
  rfl

theorem completes_elements (cells : Fin B → Option Block) :
    Completes cells fun c => elements cells c :=
  fun _ _ written => elements_of_written written

theorem completes_answered (r : Role) :
    Completes (fun c : Fin B => (s.psi r).answers c) (answered s r) := by
  intro c a written
  change (s.psi r).answers c = some a at written
  change ((s.psi r).answers c == some true) = a
  rw [written]
  cases a <;> rfl

variable {e s} {t : EvaluationState B Digest} {r : Role} {c : Fin B} {k : PsiStep}

theorem Inv.current (inv : e.Inv s) (r : Role) :
    PsiRun.Inv (e.setup r (elements (s.threads r).mPsiInputPromise)
      (elements (s.threads r.other).mPsiInputPromise)) (s.psi r) :=
  inv.calls r _ _ (completes_elements _) (completes_elements _)

theorem mem_mark_iff {made : PsiStep → Finset Nat} {k k' : PsiStep} {i j : Nat} :
    j ∈ PsiRun.mark made k i k' ↔ j ∈ made k' ∨ k' = k ∧ j = i := by
  unfold PsiRun.mark
  by_cases same : k' = k
  · subst same
    simp [or_comm]
  · simp [same]

/-- A move takes the same step whatever the answers of the other threads. -/
theorem step_congr {found found' : Fin B → Bool} {m : ThreadMove}
    (same : m = .report → found c = found' c) (u : EvalState B) :
    (e.bucket r found).step u (e.action r c m) = (e.bucket r found').step u (e.action r c m) := by
  cases m with
  | report =>
    have result : (e.bucket r found).mPsiRecvOpen c = (e.bucket r found').mPsiRecvOpen c := same rfl
    have opens : (e.bucket r found).openPsi u c = (e.bucket r found').openPsi u c := by
      unfold EvalBucket.openPsi
      rw [result]
    simp only [action, EvalBucket.step, opens]
  | _ => rfl

theorem thread_action (m : ThreadMove) : EvalBucket.thread (e.action r c m) = c := by
  cases m <;> rfl

theorem action_calm (m : ThreadMove) (d : Fin B) : e.action r c m ≠ .throw d := by
  cases m <;> simp [action]

theorem action_drawsFrom (m : ThreadMove) :
    EvalBucket.DrawsFrom (e.draws r) (e.action r c m) := by
  cases m <;> first | rfl | trivial

section
variable [DecidableEq Digest]

theorem move_inv {m : ThreadMove} (taken : e.step s (.move r m c) = some t) :
    ¬ (m = .report ∧ (s.psi r).answers c = none) ∧
      ∃ u, (e.bucket r (answered s r)).step (s.threads r) (e.action r c m) = some u ∧
        t = { s with threads := update s.threads r u } := by
  simp only [step] at taken
  split at taken
  case isTrue => cases taken
  case isFalse waiting =>
    obtain ⟨u, moved, same⟩ := Option.map_eq_some_iff.mp taken
    exact ⟨waiting, u, moved, same.symm⟩

theorem psi_inv (taken : e.step s (.psi r k c) = some t) :
    Reached s r c k ∧ ∃ u, PsiRun.step (e.current s r) (s.psi r) (k, c) = some u ∧
      t = { s with psi := update s.psi r u } := by
  simp only [step] at taken
  split at taken
  case isTrue reached =>
    obtain ⟨u, called, same⟩ := Option.map_eq_some_iff.mp taken
    exact ⟨reached, u, called, same.symm⟩
  case isFalse => cases taken

/-- A call uses its own elements of the sets only. -/
theorem call_congr {recvSet sendSet recvSet' sendSet' : Nat → Block} {i : Nat}
    (recv : k = .receiverCommitSend → recvSet i = recvSet' i)
    (send : k = .senderCommitSend → sendSet i = sendSet' i) (u : PsiRun Digest) :
    u.call (e.setup r recvSet sendSet) k i = u.call (e.setup r recvSet' sendSet') k i := by
  cases k with
  | receiverCommitSend => simp only [PsiRun.call, setup, recv rfl]
  | senderCommitSend => simp only [PsiRun.call, setup, send rfl]
  | _ => rfl

/-- The call is the one of every set intersection whose sets agree with the promises. -/
theorem Inv.call_eq (inv : e.Inv s) (reached : Reached s r c k) {recvSet sendSet : Nat → Block}
    (recv : Completes (s.threads r).mPsiInputPromise fun c => recvSet c)
    (send : Completes (s.threads r.other).mPsiInputPromise fun c => sendSet c) :
    (s.psi r).call (e.current s r) k c = (s.psi r).call (e.setup r recvSet sendSet) k c := by
  refine call_congr ?_ ?_ _
  · rintro rfl
    cases here : (s.threads r).stage c with
    | received psiInput =>
      have known : ((s.threads r).stage c).received? = some psiInput := by
        rw [here]
        rfl
      exact (elements_of_written known).trans
        (recv c psiInput (inv.received r c psiInput here)).symm
    | _ =>
      change ((s.threads r).stage c).received?.isSome = true at reached
      rw [here] at reached
      cases reached
  · rintro rfl
    obtain ⟨psiInput, written⟩ := Option.isSome_iff_exists.mp reached.2
    exact (elements_of_written written).trans (send c psiInput written).symm

theorem Inv.step_eq (inv : e.Inv s) (reached : Reached s r c k) {recvSet sendSet : Nat → Block}
    (recv : Completes (s.threads r).mPsiInputPromise fun c => recvSet c)
    (send : Completes (s.threads r.other).mPsiInputPromise fun c => sendSet c) :
    PsiRun.step (e.current s r) (s.psi r) (k, c) =
      PsiRun.step (e.setup r recvSet sendSet) (s.psi r) (k, c) := by
  unfold PsiRun.step
  rw [inv.call_eq reached recv send]
  rfl

theorem Inv.move (inv : e.Inv s) (started : e.Started) {m : ThreadMove}
    (taken : e.step s (.move r m c) = some t) : e.Inv t := by
  obtain ⟨waiting, u, moved, rfl⟩ := move_inv taken
  have effect := EvalBucket.step_moved moved
  obtain ⟨others, promises, received, _⟩ := effect
  rw [thread_action] at others received
  have grows (r' : Role) : Extends (update s.threads r u r').mPsiInputPromise
      (s.threads r').mPsiInputPromise := by
    rcases eq_or_ne r' r with rfl | other
    · rw [update_self]
      exact promises
    · rw [update_of_ne other]
      exact fun _ _ written => written
  refine { inv with steady := ?_, calls := ?_, received := ?_, committed := ?_, opens := ?_,
                    reported := ?_ }
  · intro r' found completes
    rcases eq_or_ne r' r with rfl | other
    · have same (isReport : m = .report) : answered s r' c = found c := by
        obtain ⟨a, written⟩ := Option.ne_none_iff_exists'.mp fun none => waiting ⟨isReport, none⟩
        exact (completes_answered s r' c a written).trans (completes c a written).symm
      rw [step_congr same] at moved
      change (e.bucket r' found).Steady _ (update s.threads r' u r')
      rw [update_self]
      exact (inv.steady r' found completes).step (started.fresh r' found) (action_drawsFrom m)
        (action_calm m) moved
    · change (e.bucket r' found).Steady _ (update s.threads r u r')
      rw [update_of_ne other]
      exact inv.steady r' found completes
  · exact fun r' recvSet sendSet recv send =>
      inv.calls r' recvSet sendSet ((grows r').completes recv) ((grows r'.other).completes send)
  · intro r' c' psiInput here
    change (update s.threads r u r').stage c' = _ at here
    change (update s.threads r u r').mPsiInputPromise c' = _
    rcases eq_or_ne r' r with rfl | other
    · rw [update_self] at here ⊢
      by_cases mine : c' = c
      · subst mine
        exact received psiInput here
      · rw [others c' mine] at here
        exact promises c' psiInput (inv.received r' c' psiInput here)
    · rw [update_of_ne other] at here ⊢
      exact inv.received r' c' psiInput here
  · exact fun r' c' member => (grows r').written (inv.committed r' c' member)
  · exact fun r' isOpen c' => (grows r'.other).written (inv.opens r' isOpen c')
  · intro r' c' past
    change ((update s.threads r u r').stage c').promise ≠ _ at past
    rcases eq_or_ne r' r with rfl | other
    · rw [update_self] at past
      by_cases mine : c' = c
      · subst mine
        by_cases isReport : m = .report
        · exact fun none => waiting ⟨isReport, none⟩
        · have before (d : Fin B) : e.action r' c' m ≠ .psiOpen d := by
            cases m with
            | report => exact absurd rfl isReport
            | _ => simp [action]
          have opening := (inv.steady r' _ (completes_answered s r')).opening (action_calm m) before
            moved
          rw [thread_action] at opening
          exact absurd opening past
      · rw [others c' mine] at past
        exact inv.reported r' c' past
    · rw [update_of_ne other] at past
      exact inv.reported r' c' past

theorem Inv.psi (inv : e.Inv s) (started : e.Started) (taken : e.step s (.psi r k c) = some t) :
    e.Inv t := by
  obtain ⟨reached, u, called, rfl⟩ := psi_inv taken
  have made : u.made = PsiRun.mark (s.psi r).made k c := by
    obtain ⟨_, v, _, rfl⟩ := PsiRun.step_some called
    rfl
  have calls (recvSet sendSet : Nat → Block)
      (recv : Completes (s.threads r).mPsiInputPromise fun c => recvSet c)
      (send : Completes (s.threads r.other).mPsiInputPromise fun c => sendSet c) :
      PsiRun.Inv (e.setup r recvSet sendSet) u := by
    have honest : (PsiRun.system (e.setup r recvSet sendSet)).Honest
        (PsiRun.Ready (e.setup r recvSet sendSet).inputSize)
        (PsiRun.Inv (e.setup r recvSet sendSet)) := PsiRun.honest (started.word r)
    rw [inv.step_eq reached recv send] at called
    exact honest.step (inv.calls r recvSet sendSet recv send) called
  have member (r' : Role) (k' : PsiStep) (i : Nat) (listed : i ∈ (update s.psi r u r').made k') :
      i ∈ (s.psi r').made k' ∨ r' = r ∧ k' = k ∧ i = c := by
    rcases eq_or_ne r' r with rfl | other
    · rw [update_self, made, mem_mark_iff] at listed
      exact listed.imp_right fun new => ⟨rfl, new⟩
    · rw [update_of_ne other] at listed
      exact .inl listed
  have grows (r' : Role) (k' : PsiStep) (i : Nat) (listed : i ∈ (s.psi r').made k') :
      i ∈ (update s.psi r u r').made k' := by
    rcases eq_or_ne r' r with rfl | other
    · rw [update_self, made, mem_mark_iff]
      exact .inl listed
    · rw [update_of_ne other]
      exact listed
  have answers (r' : Role) : Extends (fun i : Fin B => (update s.psi r u r').answers i)
      (fun i : Fin B => (s.psi r').answers i) := by
    intro i a before
    change (s.psi r').answers i = some a at before
    change (update s.psi r u r').answers i = some a
    rcases eq_or_ne r' r with rfl | other
    · have earlier := (inv.current r').answers i
      have later := (calls _ _ (completes_elements _) (completes_elements _)).answers i
      have opened : (i : Nat) ∈ (s.psi r').made .receiverOpen := by
        by_contra unopened
        rw [if_neg unopened, before] at earlier
        cases earlier
      have still := grows r' _ _ opened
      rw [update_self] at still ⊢
      rw [if_pos opened] at earlier
      rw [if_pos still] at later
      rw [later, ← earlier, before]
    · rw [update_of_ne other]
      exact before
  refine { inv with steady := ?_, calls := ?_, committed := ?_, masked := ?_, checks := ?_,
                    senderOpen := ?_, receiverOpen := ?_, reported := ?_ }
  · exact fun r' found completes => inv.steady r' found ((answers r').completes completes)
  · intro r' recvSet sendSet recv send
    change PsiRun.Inv _ (update s.psi r u r')
    rcases eq_or_ne r' r with rfl | other
    · rw [update_self]
      exact calls recvSet sendSet recv send
    · rw [update_of_ne other]
      exact inv.calls r' recvSet sendSet recv send
  · intro r' c' listed
    rcases member r' _ _ listed with old | ⟨rfl, rfl, same⟩
    · exact inv.committed r' c' old
    · obtain rfl := Fin.ext same
      cases here : (s.threads r').stage c' with
      | received psiInput =>
        change (s.threads r').mPsiInputPromise c' ≠ none
        rw [inv.received r' c' psiInput here]
        exact Option.some_ne_none _
      | _ =>
        change ((s.threads r').stage c').received?.isSome = true at reached
        rw [here] at reached
        cases reached
  · intro r' c' listed
    rcases member r' _ _ listed with old | ⟨rfl, rfl, same⟩
    · exact grows r' _ _ (inv.masked r' c' old)
    · obtain rfl := Fin.ext same
      exact grows r' _ _ reached
  · exact fun r' c' listed =>
      ⟨(inv.checks r' c' listed).1, grows r' _ _ (inv.checks r' c' listed).2⟩
  · intro r' c' listed
    rcases member r' _ _ listed with old | ⟨rfl, rfl, _⟩
    · exact inv.senderOpen r' c' old
    · exact reached.2
  · intro r' c' listed
    rcases member r' _ _ listed with old | ⟨rfl, rfl, same⟩
    · exact inv.receiverOpen r' c' old
    · obtain rfl := Fin.ext same
      exact reached
  · exact fun r' c' past => (answers r').written (inv.reported r' c' past)

theorem Inv.openTranslation (inv : e.Inv s) (started : e.Started)
    (taken : e.step s (.openTranslation r) = some t) : e.Inv t := by
  simp only [step] at taken
  split at taken
  case isFalse => cases taken
  case isTrue waits =>
    obtain ⟨_, received, _⟩ := waits
    cases taken
    refine { inv with opens := ?_, checks := ?_ }
    · intro r' isOpen c
      change update s.opened r true r' = true at isOpen
      rcases eq_or_ne r' r with rfl | other
      · have current := inv.current r'.other
        rw [current.sender.remaining] at received
        have all := Pending.pending_eq_zero_iff.mp received c ((started.sized _).symm ▸ c.isLt)
        exact inv.committed r'.other c (current.received all)
      · rw [update_of_ne other] at isOpen
        exact inv.opens r' isOpen c
    · intro r' c listed
      obtain ⟨isOpen, commits⟩ := inv.checks r' c listed
      refine ⟨?_, commits⟩
      change update s.opened r true r'.other = true
      rcases eq_or_ne r'.other r with same | other
      · rw [same, update_self]
      · rw [update_of_ne other]
        exact isOpen

theorem Inv.checkTranslation (inv : e.Inv s)
    (taken : e.step s (.checkTranslation r c) = some t) : e.Inv t := by
  simp only [step] at taken
  split at taken
  case isFalse => cases taken
  case isTrue waits =>
    obtain ⟨isOpen, commits, _⟩ := waits
    cases taken
    have grows (r' : Role) (d : Fin B) (listed : d ∈ s.checked r') :
        d ∈ update s.checked r (insert c (s.checked r)) r' := by
      rcases eq_or_ne r' r with rfl | other
      · rw [update_self]
        exact Finset.mem_insert_of_mem listed
      · rw [update_of_ne other]
        exact listed
    refine { inv with checks := ?_, senderOpen := ?_, receiverOpen := ?_ }
    · intro r' d listed
      change d ∈ update s.checked r (insert c (s.checked r)) r' at listed
      rcases eq_or_ne r' r with rfl | other
      · rw [update_self] at listed
        rcases Finset.mem_insert.mp listed with rfl | old
        · exact ⟨isOpen, commits⟩
        · exact inv.checks r' d old
      · rw [update_of_ne other] at listed
        exact inv.checks r' d listed
    · exact fun r' d listed d' => grows r'.other d' (inv.senderOpen r' d listed d')
    · exact fun r' d listed => grows r' d (inv.receiverOpen r' d listed)

theorem Inv.step (inv : e.Inv s) (started : e.Started) {a : EvaluationAction B}
    (taken : e.step s a = some t) : e.Inv t := by
  cases a with
  | move r m c => exact inv.move started taken
  | psi r k c => exact inv.psi started taken
  | openTranslation r => exact inv.openTranslation started taken
  | checkTranslation r c => exact inv.checkTranslation taken

end

theorem init_inv (positive : 0 < B) (started : e.Started) : ∃ start, e.init = .ok start ∧
    e.Inv start ∧ (∀ r, start.threads r = EvalBucket.initial) ∧ (∀ r k, (start.psi r).made k = ∅) ∧
      (∀ r, start.opened r = false) ∧ ∀ r, start.checked r = ∅ := by
  have started_psi (r : Role) (recvSet sendSet : Nat → Block) :
      ∃ u, PsiRun.init (e.setup r recvSet sendSet) = .ok u ∧
        PsiRun.Inv (e.setup r recvSet sendSet) u := PsiRun.init_inv (started.word r)
  have spec (r : Role) : ∃ u, PsiRun.init (e.setup r (fun _ => zeroBlock) fun _ => zeroBlock) =
      .ok u ∧ (∀ recvSet sendSet, PsiRun.Inv (e.setup r recvSet sendSet) u) ∧
        ∀ k, u.made k = ∅ := by
    obtain ⟨u, made, _⟩ := started_psi r (fun _ => zeroBlock) fun _ => zeroBlock
    refine ⟨u, made, fun recvSet sendSet => ?_, ?_⟩
    · obtain ⟨u', made', inv⟩ := started_psi r recvSet sendSet
      cases made.symm.trans made'
      exact inv
    · obtain ⟨receiver, _, same⟩ := Result.bind_ok made
      cases same
      exact fun _ => rfl
  obtain ⟨psi, run, each⟩ := Opening.bothRoles_spec spec
  refine ⟨⟨fun _ => EvalBucket.initial, psi, fun _ => false, fun _ => ∅⟩, ?_, ?_, fun _ => rfl,
    fun r => (each r).2, fun _ => rfl, fun _ => rfl⟩
  · unfold init
    rw [run]
    rfl
  · have nothing (r : Role) (k : PsiStep) (i : Nat) : i ∉ (psi r).made k := by
      rw [(each r).2 k]
      exact Finset.notMem_empty i
    exact {
      steady := fun r found _ => EvalBucket.steady_initial positive
      calls := fun r recvSet sendSet _ _ => (each r).1 recvSet sendSet
      received := fun _ _ psiInput here => by
        cases (here : Stage.start = .received psiInput)
      committed := fun r c listed => absurd listed (nothing r _ _)
      masked := fun r c listed => absurd listed (nothing r _ _)
      opens := fun _ isOpen => absurd isOpen Bool.false_ne_true
      checks := fun r c listed => absurd listed (Finset.notMem_empty c)
      senderOpen := fun r c listed => absurd listed (nothing r _ _)
      receiverOpen := fun r c listed => absurd listed (nothing r _ _)
      reported := fun r c past => absurd rfl past }

end Evaluation

end BatchDualEx
