import BatchDualEx.Lib.Threads
import BatchDualEx.Common.Block
import Mathlib.Data.Fintype.Card
import Mathlib.Data.List.FinRange
import Mathlib.Logic.Equiv.Basic

/- The online phase: for each of `P` slots the caller of `execute`, the thread of `sendLoop`, and
   `B` threads each of `sendCircuitInputLoop` and `evalThreadLoop`, which take the buckets `p`,
   `p + P`, ... one after the other (`PARALLEL_PSI`, synchronous set intersection). A thread may
   throw anywhere; an exception out of `execute` leaves it to the caller to go on. -/
namespace BatchDualEx.Online

open Threads

inductive Kind (B : Nat) where
  | execute
  | sendLoop
  | sendCircuitInputLoop (c : Fin B)
  | evalThreadLoop (c : Fin B)
  deriving DecidableEq, Repr

inductive BucketProm (B : Nat) where
  | mInputPromise
  | mTheirInputCorrectionPromise
  | mTheirInputLabelsProm (c : Fin B)
  | mTheirOutputLabelsProm
  | psiSendCommited
  | psiSendPSIValsComputed
  | psiRecvCommited
  | mTranslationCheckDoneProm
  | mPsiInputPromise (slot : Fin B)
  | mOutputProm
  deriving DecidableEq, Repr

inductive BucketCounter where
  | psiSendRemainingInputCommits
  | psiSendRemainingPSIVals
  | psiRecvRemainingInputCommits
  | mTransCheckRemaining
  | mPSIIdxHead
  | mOutputMissCount
  deriving DecidableEq, Repr

/-- The channels of a slot in one direction: those of the main threads, from
    `sendCircuitInputLoop` to `evalThreadLoop`, and back. -/
inductive Link (B : Nat) where
  | toSendLoop
  | toExecute
  | toEval (c : Fin B)
  | toSend (c : Fin B)
  deriving DecidableEq, Repr

inductive Label where
  | inputCorrection
  | outputLabelSeed
  | adaptiveSecureSeed
  | inputLabels
  | labelCorrections
  | psiPermute
  | psiCommits
  | psiOpening
  | checkInputLabels
  | fillOutLabels
  | evaluate
  | checkTranslation
  deriving DecidableEq, Repr

abbrev Thread (P B : Nat) := Role × Fin P × Kind B
abbrev Prom (B : Nat) := Role × Nat × BucketProm B
abbrev Counter := Role × Nat × BucketCounter
abbrev Chan (P B : Nat) := Role × Fin P × Link B
abbrev OnlineOp (P B : Nat) := Op (Prom B) Counter (Chan P B) Label

def bucketIdx {P : Nat} (p : Fin P) (k : Nat) : Nat := p + P * k

def rounds (mNumExe : Nat) {P : Nat} (p : Fin P) : Nat := (mNumExe - p + (P - 1)) / P

section
variable {P B : Nat}

theorem rounds_iff (mNumExe : Nat) (p : Fin P) (k : Nat) :
    k < rounds mNumExe p ↔ bucketIdx p k < mNumExe := by
  have positive : 0 < P := p.pos
  unfold rounds bucketIdx
  rw [Nat.lt_div_iff_mul_lt positive, Nat.mul_comm]
  omega

theorem bucketIdx_mod (p : Fin P) (k : Nat) : bucketIdx p k % P = p := by
  unfold bucketIdx
  rw [Nat.add_mul_mod_self_left, Nat.mod_eq_of_lt p.isLt]

theorem bucketIdx_inj {p q : Fin P} {k l : Nat} (same : bucketIdx p k = bucketIdx q l) :
    p = q ∧ k = l := by
  have slots := congrArg (· % P) same
  simp only [bucketIdx_mod] at slots
  have slot : p = q := Fin.ext slots
  subst slot
  unfold bucketIdx at same
  exact ⟨rfl, Nat.eq_of_mul_eq_mul_left p.pos (Nat.add_left_cancel same)⟩

variable (role : Role) (p : Fin P) (k : Nat)

def executeOps : List (OnlineOp P B) :=
  let bucket := bucketIdx p k
  [.set (role, bucket, .mInputPromise),
    -- `Bucket::evaluate`
    .send (role, p, .toSendLoop) .inputCorrection,
    .wait (role, bucket, .mTheirInputCorrectionPromise)] ++
  (List.finRange B).map (fun c => .wait (role, bucket, .mTheirInputLabelsProm c)) ++
  [.act .checkInputLabels,
    .recv (role.other, p, .toExecute) .outputLabelSeed,
    .act .fillOutLabels,
    .set (role, bucket, .mTheirOutputLabelsProm),
    .wait (role, bucket, .mOutputProm)]

def sendLoopOps : List (OnlineOp P B) :=
  let bucket := bucketIdx p k
  [.recv (role.other, p, .toSendLoop) .inputCorrection,
    .set (role, bucket, .mTheirInputCorrectionPromise),
    .wait (role, bucket, .psiSendCommited),
    .wait (role, bucket, .psiRecvCommited),
    -- `Bucket::openTranslation`
    .send (role, p, .toExecute) .outputLabelSeed]

def sendCircuitInputOps (c : Fin B) : List (OnlineOp P B) :=
  let bucket := bucketIdx p k
  [.wait (role, bucket, .mInputPromise),
    -- `Bucket::sendCircuitInputs`
    .wait (role, bucket, .mTheirInputCorrectionPromise),
    .send (role, p, .toEval c) .adaptiveSecureSeed,
    .send (role, p, .toEval c) .inputLabels,
    .send (role, p, .toEval c) .labelCorrections,
    -- `PsiSender::CommitRecv`
    .recv (role.other, p, .toSend c) .psiPermute,
    .bump (role, bucket, .psiSendRemainingInputCommits),
    .wait (role, bucket, .mPsiInputPromise c),
    -- `PsiSender::CommitSend`, which sends synchronously
    .waitAll (role, bucket, .psiSendRemainingInputCommits) (role, bucket, .psiSendCommited),
    .send (role, p, .toEval c) .psiCommits,
    .flush (role, p, .toEval c),
    .bump (role, bucket, .psiSendRemainingPSIVals),
    .wait (role, bucket, .mTranslationCheckDoneProm),
    -- `PsiSender::open`
    .waitAll (role, bucket, .psiSendRemainingPSIVals) (role, bucket, .psiSendPSIValsComputed),
    .send (role, p, .toEval c) .psiOpening]

def evalThreadOps (c : Fin B) : List (OnlineOp P B) :=
  let bucket := bucketIdx p k
  -- `Bucket::evalCircuit`
  [.recv (role.other, p, .toEval c) .adaptiveSecureSeed,
    .recv (role.other, p, .toEval c) .inputLabels,
    .set (role, bucket, .mTheirInputLabelsProm c),
    .recv (role.other, p, .toEval c) .labelCorrections,
    .act .evaluate,
    .bump (role, bucket, .mPSIIdxHead),
    .wait (role, bucket, .mPsiInputPromise c),
    -- `PsiReceiver::CommitSend` and `PsiReceiver::CommitRecv`
    .send (role, p, .toSend c) .psiPermute,
    .recv (role.other, p, .toEval c) .psiCommits,
    .bump (role, bucket, .psiRecvRemainingInputCommits),
    -- `Bucket::checkTranslation`
    .wait (role, bucket, .mTheirOutputLabelsProm),
    .act .checkTranslation,
    .bump (role, bucket, .mTransCheckRemaining),
    -- `PsiReceiver::open`
    .waitAll (role, bucket, .psiRecvRemainingInputCommits) (role, bucket, .psiRecvCommited),
    .recv (role.other, p, .toEval c) .psiOpening,
    .report (role, bucket, .mOutputProm) (role, bucket, .mOutputMissCount)]

def ops : Kind B → List (OnlineOp P B)
  | .execute => executeOps role p k
  | .sendLoop => sendLoopOps role p k
  | .sendCircuitInputLoop c => sendCircuitInputOps role p k c
  | .evalThreadLoop c => evalThreadOps role p k c

/-- The promise set by the last of the `B` threads, and the slots of the shuffle. -/
def ticket (permutes : Role → Nat → Equiv.Perm (Fin B)) : Counter → Nat → Option (Prom B)
  | (role, bucket, .psiSendRemainingInputCommits), n =>
    if n + 1 = B then some (role, bucket, .psiSendCommited) else none
  | (role, bucket, .psiSendRemainingPSIVals), n =>
    if n + 1 = B then some (role, bucket, .psiSendPSIValsComputed) else none
  | (role, bucket, .psiRecvRemainingInputCommits), n =>
    if n + 1 = B then some (role, bucket, .psiRecvCommited) else none
  | (role, bucket, .mTransCheckRemaining), n =>
    if n + 1 = B then some (role, bucket, .mTranslationCheckDoneProm) else none
  | (role, bucket, .mPSIIdxHead), n =>
    if inside : n < B then some (role, bucket, .mPsiInputPromise (permutes role bucket ⟨n, inside⟩))
    else none
  | (_, _, .mOutputMissCount), _ => none

/-- The threads of the honest parties. A party that is not honest may send anything at any
    time. -/
def online (P B mNumExe : Nat) (permutes : Role → Nat → Equiv.Perm (Fin B))
    (honest : Role → Bool) : System (Thread P B) (Prom B) Counter (Chan P B) Label where
  blocks := fun t => if honest t.1 then rounds mNumExe t.2.1 else 0
  prog := fun t k => ops t.1 t.2.1 k t.2.2
  total := fun _ => B
  ticket := ticket permutes
  external := fun ch => !honest ch.1
  resumes := fun t => t.2.2 == .execute

def setter : BucketProm B → Option (Kind B)
  | .mInputPromise | .mTheirOutputLabelsProm => some .execute
  | .mTheirInputCorrectionPromise => some .sendLoop
  | .mTheirInputLabelsProm c => some (.evalThreadLoop c)
  | _ => none

def bumper : BucketCounter → Option (Fin B → Kind B)
  | .psiSendRemainingInputCommits | .psiSendRemainingPSIVals => some .sendCircuitInputLoop
  | .psiRecvRemainingInputCommits | .mTransCheckRemaining | .mPSIIdxHead => some .evalThreadLoop
  | .mOutputMissCount => none

def latchOf : BucketProm B → Option BucketCounter
  | .psiSendCommited => some .psiSendRemainingInputCommits
  | .psiSendPSIValsComputed => some .psiSendRemainingPSIVals
  | .psiRecvCommited => some .psiRecvRemainingInputCommits
  | .mTranslationCheckDoneProm => some .mTransCheckRemaining
  | _ => none

theorem ops_nodup (kind : Kind B) : (ops role p k kind).Nodup := by
  cases kind with
  | execute =>
    have waits : ((List.finRange B).map fun c => (Op.wait (role, bucketIdx p k,
        BucketProm.mTheirInputLabelsProm c) : OnlineOp P B)).Nodup :=
      (List.nodup_finRange B).map fun c d same => by simpa using same
    simp [ops, executeOps, List.nodup_append, waits]
  | _ => simp [ops, sendLoopOps, sendCircuitInputOps, evalThreadOps]

theorem set_mem_ops {r : Role} {i : Nat} {x : BucketProm B} {kind : Kind B} :
    .set (r, i, x) ∈ ops role p k kind ↔
      r = role ∧ i = bucketIdx p k ∧ setter x = some kind := by
  cases kind <;> cases x <;>
    simp [ops, executeOps, sendLoopOps, sendCircuitInputOps, evalThreadOps, setter]

theorem bump_mem_ops {r : Role} {i : Nat} {x : BucketCounter} {kind : Kind B} :
    .bump (r, i, x) ∈ ops role p k kind ↔
      r = role ∧ i = bucketIdx p k ∧ ∃ f, bumper x = some f ∧ ∃ c, kind = f c := by
  cases kind <;> cases x <;>
    simp [ops, executeOps, sendLoopOps, sendCircuitInputOps, evalThreadOps, bumper]

theorem report_mem_ops {q : Prom B} {c : Counter} {kind : Kind B} :
    .report q c ∈ ops role p k kind ↔ q = (role, bucketIdx p k, .mOutputProm) ∧
      c = (role, bucketIdx p k, .mOutputMissCount) ∧ ∃ d, kind = .evalThreadLoop d := by
  cases kind <;> simp [ops, executeOps, sendLoopOps, sendCircuitInputOps, evalThreadOps]

theorem latch_not_set {x : BucketProm B} {y : BucketCounter} (latch : latchOf x = some y) :
    setter x = none := by
  cases x <;> first | rfl | cases latch

theorem ticket_some {permutes : Role → Nat → Equiv.Perm (Fin B)} {c : Counter} {n : Nat}
    {q : Prom B} (mine : ticket permutes c n = some q) :
    (q.1 = c.1 ∧ q.2.1 = c.2.1 ∧ latchOf q.2.2 = some c.2.2 ∧ n + 1 = B) ∨
      (c.2.2 = .mPSIIdxHead ∧ ∃ slot, q.2.2 = .mPsiInputPromise slot) := by
  obtain ⟨r, i, y⟩ := c
  cases y with
  | mPSIIdxHead =>
    obtain ⟨_, same⟩ := Option.dite_none_right_eq_some.mp mine
    cases same
    exact .inr ⟨rfl, _, rfl⟩
  | mOutputMissCount => cases mine
  | _ =>
    obtain ⟨last, same⟩ := Option.ite_none_right_eq_some.mp mine
    cases same
    exact .inl ⟨rfl, rfl, rfl, last⟩

def crew (role : Role) (p : Fin P) (kind : Fin B → Kind B) : Finset (Thread P B) :=
  Finset.univ.image fun c => (role, p, kind c)

theorem bumper_injective {x : BucketCounter} {kind : Fin B → Kind B}
    (known : bumper x = some kind) : Function.Injective kind := by
  cases x <;> cases known <;> intro c d same <;> cases same <;> rfl

theorem bumper_stops {x : BucketCounter} {kind : Fin B → Kind B} (known : bumper x = some kind)
    (c : Fin B) : kind c ≠ .execute := by
  cases x <;> cases known <;> exact nofun

theorem card_crew {x : BucketCounter} {kind : Fin B → Kind B} (known : bumper x = some kind) :
    (crew role p kind).card = B := by
  unfold crew
  rw [Finset.card_image_of_injective, Finset.card_fin]
  intro c d same
  exact bumper_injective known (congrArg (·.2.2) same)

end

section
variable {P B mNumExe : Nat} {permutes : Role → Nat → Equiv.Perm (Fin B)} {honest : Role → Bool}
  {s : State (Thread P B) (Prom B) Counter (Chan P B)} {role : Role} {p : Fin P} {k : Nat}

theorem bumpedBy (role : Role) (p : Fin P) (k : Nat) {x : BucketCounter} {kind : Fin B → Kind B}
    (known : bumper x = some kind) :
    BumpedBy (online P B mNumExe permutes honest) (role, bucketIdx p k, x)
      (crew role p kind) k where
  bumps := by
    rintro ⟨r, q, kind'⟩ l
    change _ ∈ ops r q l kind' ↔ _
    rw [bump_mem_ops]
    simp only [known, crew, Finset.mem_image, Finset.mem_univ, true_and, Option.some.injEq,
      exists_eq_left', Prod.mk.injEq]
    constructor
    · rintro ⟨rfl, same, c, rfl⟩
      obtain ⟨rfl, rfl⟩ := bucketIdx_inj same
      exact ⟨⟨c, rfl, rfl, rfl⟩, rfl⟩
    · rintro ⟨⟨c, rfl, rfl, rfl⟩, rfl⟩
      exact ⟨rfl, rfl, c, rfl⟩
  nodup := fun t k => ops_nodup t.1 t.2.1 k t.2.2
  noReport := by
    intro t l q member
    have miss := ((report_mem_ops t.1 t.2.1 l).mp member).2.1
    cases congrArg (·.2.2) miss
    cases known
  stops := by
    intro t member
    obtain ⟨c, _, rfl⟩ := Finset.mem_image.mp member
    exact beq_false_of_ne (bumper_stops known c)

/-- A promise with a thread of its own has been set by it. -/
theorem did_set {x : BucketProm B} {kind : Kind B}
    (safe : Safe (online P B mNumExe permutes honest) s) (known : setter x = some kind)
    (fulfilled : s.fulfilled (role, bucketIdx p k, x) = true) :
    (online P B mNumExe permutes honest).Did s (role, p, kind) k
      (.set (role, bucketIdx p k, x)) := by
  cases safe.origin _ fulfilled with
  | set t l did =>
    obtain ⟨r, q, kind'⟩ := t
    obtain ⟨rfl, same, setter'⟩ := (set_mem_ops _ q l).mp (System.did_mem did)
    obtain ⟨rfl, rfl⟩ := bucketIdx_inj same
    rw [known] at setter'
    cases setter'
    exact did
  | ticket c n _ mine =>
    rcases ticket_some mine with ⟨_, _, latch, _⟩ | ⟨_, slot⟩
    · cases (latch_not_set latch).symm.trans known
    · dsimp only at slot
      obtain ⟨slot, rfl⟩ := slot
      cases known
  | report t l c did =>
    cases congrArg (·.2.2) ((report_mem_ops _ _ l).mp (System.did_mem did)).1
    cases known

/-- A promise that the last of the threads sets has been reached by all of them. -/
theorem all_reached {x : BucketProm B} {y : BucketCounter} {kind : Fin B → Kind B}
    {meets : State (Thread P B) (Prom B) Counter (Chan P B) → Action (Thread P B) (Chan P B) → Prop}
    (run : Run.Along (online P B mNumExe permutes honest).step meets State.initial s)
    (latch : latchOf x = some y) (known : bumper y = some kind)
    (fulfilled : s.fulfilled (role, bucketIdx p k, x) = true) (c : Fin B) :
    (online P B mNumExe permutes honest).Reached s (role, p, kind c) k
      (.bump (role, bucketIdx p k, y)) := by
  have safe := Safe.along run
  have counted := Counted.along (bumpedBy role p k known) run
  have all : B ≤ s.count (role, bucketIdx p k, y) := by
    cases safe.origin _ fulfilled with
    | set t l did =>
      have known := ((set_mem_ops _ _ l).mp (System.did_mem did)).2.2
      cases (latch_not_set latch).symm.trans known
    | report t l c did =>
      cases congrArg (·.2.2) ((report_mem_ops _ _ l).mp (System.did_mem did)).1
      cases latch
    | ticket c n given mine =>
      rcases ticket_some mine with ⟨sameRole, sameBucket, counter, last⟩ | ⟨_, slot⟩
      · cases latch.symm.trans counter
        have same : c = (role, bucketIdx p k, c.2.2) :=
          Prod.ext sameRole.symm (Prod.ext sameBucket.symm rfl)
        rw [← same]
        omega
      · dsimp only at slot
        obtain ⟨slot, rfl⟩ := slot
        cases latch
  refine (counted.complete (by rwa [card_crew role p known]) _ ?_).reached
  exact Finset.mem_image.mpr ⟨c, Finset.mem_univ c, rfl⟩

end

end BatchDualEx.Online
