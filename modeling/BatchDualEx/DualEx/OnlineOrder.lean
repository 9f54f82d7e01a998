import BatchDualEx.DualEx.Online

/- What the promises of the online phase put in order, whatever the other party sends and also if
   threads throw: commitments come before the openings, and the label buffers of a slot are not
   written for a later bucket while an earlier one still reads them. -/
namespace BatchDualEx.Online

open Threads

/-- The buffers of a party that the buckets of one slot share. -/
inductive Buffer (B : Nat) where
  | mOutLabels (slot : Nat)
  | mLabels (slot : Nat) (c : Fin B)
  deriving DecidableEq, Repr

section
variable {P B : Nat}

/-- `execute` finds its buffers by `evalIdx % mLabels.size()`, the threads by their
    `bucketOffset`. -/
def writes (k : Nat) : Thread P B → OnlineOp P B → List (Role × Buffer B)
  | (role, p, .execute), .act .fillOutLabels => [(role, .mOutLabels (bucketIdx p k % P))]
  | (role, p, .evalThreadLoop c), .recv _ .inputLabels => [(role, .mLabels p c)]
  | (role, p, .evalThreadLoop c), .recv _ .labelCorrections => [(role, .mLabels p c)]
  | (role, p, .evalThreadLoop c), .act .evaluate => [(role, .mLabels p c)]
  | _, _ => []

def reads (k : Nat) : Thread P B → OnlineOp P B → List (Role × Buffer B)
  | (role, p, .execute), .act .checkInputLabels =>
    (List.finRange B).map fun c => (role, .mLabels (bucketIdx p k % P) c)
  | (role, p, .evalThreadLoop c), .act .evaluate => [(role, .mLabels p c)]
  | (role, p, .evalThreadLoop _), .act .checkTranslation =>
    [(role, .mOutLabels (bucketIdx p k % P))]
  | _, _ => []

theorem mem_writes {k : Nat} {t : Thread P B} {o : OnlineOp P B} {buffer : Role × Buffer B}
    (write : buffer ∈ writes k t o) :
    (o = .act .fillOutLabels ∧ ∃ p, t = (buffer.1, p, .execute) ∧ buffer.2 = .mOutLabels p) ∨
      ∃ p c, t = (buffer.1, p, .evalThreadLoop c) ∧ buffer.2 = .mLabels p c := by
  unfold writes at write
  split at write
  case h_5 => cases write
  case h_1 =>
    cases List.mem_singleton.mp write
    exact .inl ⟨rfl, _, rfl, congrArg _ (bucketIdx_mod _ k)⟩
  all_goals
    cases List.mem_singleton.mp write
    exact .inr ⟨_, _, rfl, rfl⟩

theorem mem_reads {k : Nat} {t : Thread P B} {o : OnlineOp P B} {buffer : Role × Buffer B}
    (read : buffer ∈ reads k t o) :
    (o = .act .checkInputLabels ∧
        ∃ p c, t = (buffer.1, p, .execute) ∧ buffer.2 = .mLabels p c) ∨
      ∃ p c, t = (buffer.1, p, .evalThreadLoop c) ∧
        (buffer.2 = .mLabels p c ∨ buffer.2 = .mOutLabels p) := by
  unfold reads at read
  split at read
  case h_4 => cases read
  case h_1 =>
    obtain ⟨c, _, rfl⟩ := List.mem_map.mp read
    exact .inl ⟨rfl, _, c, rfl, by rw [bucketIdx_mod]⟩
  case h_2 =>
    cases List.mem_singleton.mp read
    exact .inr ⟨_, _, rfl, .inl rfl⟩
  case h_3 =>
    cases List.mem_singleton.mp read
    exact .inr ⟨_, _, rfl, .inr (congrArg _ (bucketIdx_mod _ k))⟩

variable {mNumExe : Nat} {permutes : Role → Nat → Equiv.Perm (Fin B)} {honest : Role → Bool}
  {s : State (Thread P B) (Prom B) Counter (Chan P B)} {role : Role} {p : Fin P} {k : Nat}
  {meets : State (Thread P B) (Prom B) Counter (Chan P B) → Action (Thread P B) (Chan P B) → Prop}

/-- The peer's output labels are known once its input commitments have been accepted. -/
theorem accepted_before_output_labels
    (safe : Safe (online P B mNumExe permutes honest) s)
    (fulfilled : s.fulfilled (role, bucketIdx p k, .mTheirOutputLabelsProm) = true) :
    (online P B mNumExe permutes honest).Did s (role, p, .execute) k (.act .checkInputLabels) := by
  refine System.did_before (j := B + 6) (ops_nodup role p k .execute) ?_
    (.inl (did_set safe rfl fulfilled)) _ ?_
  · simp [online, ops, executeOps]
  · simp [online, ops, executeOps, List.take_append]

/-- All `B` commitments in both directions come before the seed of the output labels, and the
    checks of the inputs and of all `B` translations before a PSI opening. -/
theorem opened_after_checks
    (run : Run.Along (online P B mNumExe permutes honest).step (fun _ _ => True) State.initial s)
    (role : Role) (p : Fin P) (k : Nat) :
    ((online P B mNumExe permutes honest).Reached s (role, p, .sendLoop) k
        (.send (role, p, .toExecute) .outputLabelSeed) →
      ∀ c, (online P B mNumExe permutes honest).Did s (role, p, .sendCircuitInputLoop c) k
          (.recv (role.other, p, .toSend c) .psiPermute) ∧
        (online P B mNumExe permutes honest).Did s (role, p, .evalThreadLoop c) k
          (.recv (role.other, p, .toEval c) .psiCommits)) ∧
    ∀ c, (online P B mNumExe permutes honest).Reached s (role, p, .sendCircuitInputLoop c) k
        (.send (role, p, .toEval c) .psiOpening) →
      (online P B mNumExe permutes honest).Did s (role, p, .execute) k (.act .checkInputLabels) ∧
      ∀ c', (online P B mNumExe permutes honest).Did s (role, p, .evalThreadLoop c') k
        (.act .checkTranslation) := by
  have safe := Safe.along run
  have nodup (t : Thread P B) (l : Nat) :
      ((online P B mNumExe permutes honest).prog t l).Nodup := ops_nodup t.1 t.2.1 l t.2.2
  constructor
  · intro reached c
    have before := System.did_before (j := 4) (nodup _ k) rfl reached
    have permutes_in := safe.waited (role, p, .sendLoop) k (role, bucketIdx p k, .psiSendCommited)
      (before _ (by simp [online, ops, sendLoopOps]))
    have commits_in := safe.waited (role, p, .sendLoop) k (role, bucketIdx p k, .psiRecvCommited)
      (before _ (by simp [online, ops, sendLoopOps]))
    constructor
    · have bump := all_reached run rfl rfl permutes_in c
      exact System.did_before (j := 6) (nodup _ k) rfl bump _
        (by simp [online, ops, sendCircuitInputOps])
    · have bump := all_reached run rfl rfl commits_in c
      exact System.did_before (j := 9) (nodup _ k) rfl bump _
        (by simp [online, ops, evalThreadOps])
  · intro c reached
    have checked := safe.waited (role, p, .sendCircuitInputLoop c) k
      (role, bucketIdx p k, .mTranslationCheckDoneProm)
      (System.did_before (j := 14) (nodup _ k) rfl reached _
        (by simp [online, ops, sendCircuitInputOps]))
    have before (c' : Fin B) := System.did_before (j := 12) (nodup _ k) rfl
      (all_reached run rfl rfl checked c')
    constructor
    · have labels := safe.waited (role, p, .evalThreadLoop c) k
        (role, bucketIdx p k, .mTheirOutputLabelsProm)
        (before c _ (by simp [online, ops, evalThreadOps]))
      exact accepted_before_output_labels safe labels
    · exact fun c' => before c' _ (by simp [online, ops, evalThreadOps])

def pair (mNumExe : Nat) : System (Thread 1 2) (Prom 2) Counter (Chan 1 2) Label :=
  online 1 2 mNumExe (fun _ _ => Equiv.refl _) (· == .first)

def go (kind : Kind 2) (times : Nat) : List (Action (Thread 1 2) (Chan 1 2)) :=
  List.replicate times (.finish (.first, 0, kind) true)

def goTwice (kind : Kind 2) : List (Action (Thread 1 2) (Chan 1 2)) :=
  [.start (.first, 0, kind), .finish (.first, 0, kind) true]

def arrive (role : Role) (link : Link 2) (times : Nat) : List (Action (Thread 1 2) (Chan 1 2)) :=
  List.replicate times (.deliver (role, 0, link))

def both (actions : Fin 2 → List (Action (Thread 1 2) (Chan 1 2))) :
    List (Action (Thread 1 2) (Chan 1 2)) :=
  actions ⟨0, Nat.zero_lt_two⟩ ++ actions ⟨1, Nat.one_lt_two⟩

/-- To the seed of the output labels and the PSI openings of the first bucket. -/
def toOpenings : List (Action (Thread 1 2) (Chan 1 2)) :=
  go .execute 2 ++ arrive .second .toSendLoop 1 ++ go .sendLoop 2 ++
  both (fun c => arrive .second (.toEval c) 4 ++ go (.evalThreadLoop c) 5 ++
    goTwice (.evalThreadLoop c) ++ go (.evalThreadLoop c) 3 ++ goTwice (.evalThreadLoop c)) ++
  both (fun c => arrive .second (.toSend c) 1 ++ go (.sendCircuitInputLoop c) 6 ++
    goTwice (.sendCircuitInputLoop c)) ++
  go .sendLoop 2 ++ arrive .second .toExecute 1 ++ go .execute 7 ++
  both (fun c => go (.evalThreadLoop c) 2 ++ goTwice (.evalThreadLoop c)) ++
  both (fun c => go (.sendCircuitInputLoop c) 1 ++ goTwice (.sendCircuitInputLoop c) ++
    go (.sendCircuitInputLoop c) 1 ++ arrive .first (.toEval c) 4 ++
    go (.sendCircuitInputLoop c) 1 ++ goTwice (.sendCircuitInputLoop c)) ++
  both (fun c => go (.sendCircuitInputLoop c) 1 ++ goTwice (.sendCircuitInputLoop c))

set_option maxRecDepth 2000 in
theorem opened_after_checks_pair : ∃ s,
    Run.exec (pair 1).step State.initial toOpenings = some s ∧
    (∀ c, (pair 1).Did s (.first, 0, .sendCircuitInputLoop c) 0
      (.recv (.second, 0, .toSend c) .psiPermute)) ∧
    ∀ c, (pair 1).position s (.first, 0, .sendCircuitInputLoop c) =
        some (.send (.first, 0, .toEval c) .psiOpening) ∧
      (pair 1).Did s (.first, 0, .execute) 0 (.act .checkInputLabels) ∧
      ∀ c', (pair 1).Did s (.first, 0, .evalThreadLoop c') 0 (.act .checkTranslation) := by
  obtain ⟨s, run, seed, block, opening⟩ : ∃ s,
      Run.exec (pair 1).step State.initial toOpenings = some s ∧
      (s.block (.first, 0, .sendLoop) = 0 ∧ (pair 1).position s (.first, 0, .sendLoop) =
        some (.send (.first, 0, .toExecute) .outputLabelSeed)) ∧
      (∀ c, s.block (.first, 0, .sendCircuitInputLoop c) = 0) ∧
      ∀ c, (pair 1).position s (.first, 0, .sendCircuitInputLoop c) =
        some (.send (.first, 0, .toEval c) .psiOpening) :=
    ⟨_, rfl, ⟨rfl, rfl⟩, Fin.forall_fin_two.mpr ⟨rfl, rfl⟩, Fin.forall_fin_two.mpr ⟨rfl, rfl⟩⟩
  obtain ⟨sends, opens⟩ :=
    opened_after_checks (Run.Along.of_exec (fun _ _ _ => trivial) run) .first 0 0
  refine ⟨s, run, fun c => (sends (.inr seed) c).1, fun c => ?_⟩
  exact ⟨opening c, opens c (.inr ⟨block c, opening c⟩)⟩

/-- A thread at a write to a shared buffer for a later bucket: every read of the buffer for an
    earlier bucket is over. -/
theorem written_after_reads
    (run : Run.Along (online P B mNumExe permutes honest).step (fun _ _ => True) State.initial s)
    {t t' : Thread P B} {o o' : OnlineOp P B} {buffer : Role × Buffer B}
    (here : (online P B mNumExe permutes honest).position s t = some o)
    (write : buffer ∈ writes (s.block t) t o) (earlier : k < s.block t)
    (member : o' ∈ (online P B mNumExe permutes honest).prog t' k)
    (read : buffer ∈ reads k t' o') :
    (online P B mNumExe permutes honest).Did s t' k o' := by
  have safe := Safe.along run
  have nodup (t : Thread P B) (l : Nat) :
      ((online P B mNumExe permutes honest).prog t l).Nodup := ops_nodup t.1 t.2.1 l t.2.2
  have stops (role : Role) (p : Fin P) (c : Fin B) :
      (online P B mNumExe permutes honest).resumes (role, p, .evalThreadLoop c) = false := rfl
  obtain ⟨role, buffer⟩ := buffer
  rcases mem_writes write with ⟨rfl, p, rfl, slot⟩ | ⟨p, c, rfl, slot⟩
  · rcases mem_reads read with ⟨_, q, d, _, slot'⟩ | ⟨q, d, rfl, slot'⟩
    · cases slot.symm.trans slot'
    · -- `execute` waits for the input labels that thread `d` receives in the same bucket
      have same : p = q := by
        rcases slot' with other | same
        · cases slot.symm.trans other
        · exact Fin.ext (Buffer.mOutLabels.inj (slot.symm.trans same))
      subst same
      have waited := safe.waited (role, p, .execute) _
        (role, bucketIdx p (s.block (role, p, .execute)), .mTheirInputLabelsProm d)
        (System.did_before (j := B + 5) (nodup _ _) (by simp [online, ops, executeOps])
          (.inr ⟨rfl, here⟩) _
          (by simp [online, ops, executeOps, List.take_append, List.take_of_length_le]))
      have set := safe.did_block (did_set safe rfl waited)
      exact safe.did_earlier (stops role p d) (Nat.lt_of_lt_of_le earlier set) member
  · -- the evaluating thread has left the earlier bucket, for which it needed the output labels
    have whole {o : OnlineOp P B} (member : o ∈ evalThreadOps role p k c) :=
      safe.did_earlier (stops role p c) earlier (o := o) member
    rcases mem_reads read with ⟨rfl, q, d, rfl, slot'⟩ | ⟨q, d, rfl, slot'⟩
    · have same : p = q ∧ c = d := by
        have := Buffer.mLabels.inj (slot.symm.trans slot')
        exact ⟨Fin.ext this.1, this.2⟩
      obtain ⟨rfl, rfl⟩ := same
      exact accepted_before_output_labels safe
        (safe.waited _ k _ (whole (by simp [evalThreadOps])))
    · have same : p = q ∧ c = d := by
        rcases slot' with same | other
        · have := Buffer.mLabels.inj (slot.symm.trans same)
          exact ⟨Fin.ext this.1, this.2⟩
        · cases slot.symm.trans other
      obtain ⟨rfl, rfl⟩ := same
      exact whole member

/-- On to the labels and the output labels of the second bucket. The first circuit has a match, on
    which `execute` returns while the thread of the second has yet to report. -/
def toSecondBucket : List (Action (Thread 1 2) (Chan 1 2)) :=
  toOpenings ++
  both (fun c => goTwice (.evalThreadLoop c) ++ arrive .second (.toEval c) 1 ++
    go (.evalThreadLoop c) 1) ++
  go (.evalThreadLoop ⟨0, Nat.zero_lt_two⟩) 1 ++ go .execute 1 ++
  [.next (.first, 0, .execute)] ++ go .execute 2 ++
  [.finish (.first, 0, .evalThreadLoop ⟨1, Nat.one_lt_two⟩) false] ++
  go .sendLoop 1 ++ [.next (.first, 0, .sendLoop)] ++
  arrive .second .toSendLoop 1 ++ go .sendLoop 2 ++
  both (fun c => [.next (.first, 0, .evalThreadLoop c)] ++ arrive .second (.toEval c) 3 ++
    go (.evalThreadLoop c) 3) ++
  go .execute 4 ++ arrive .second .toExecute 1 ++ go .execute 1

set_option maxRecDepth 3000 in
theorem written_after_reads_pair : ∃ s,
    Run.exec (pair 2).step State.initial toSecondBucket = some s ∧
    ∀ c, (pair 2).Did s (.first, 0, .evalThreadLoop c) 0 (.act .checkTranslation) ∧
      (pair 2).Did s (.first, 0, .execute) 0 (.act .checkInputLabels) := by
  obtain ⟨s, run, block, fills, block', receives⟩ : ∃ s,
      Run.exec (pair 2).step State.initial toSecondBucket = some s ∧
      s.block (.first, 0, .execute) = 1 ∧
      (pair 2).position s (.first, 0, .execute) = some (.act .fillOutLabels) ∧
      (∀ c, s.block (.first, 0, .evalThreadLoop c) = 1) ∧
      ∀ c, (pair 2).position s (.first, 0, .evalThreadLoop c) =
        some (.recv (.second, 0, .toEval c) .labelCorrections) :=
    ⟨_, rfl, rfl, rfl, Fin.forall_fin_two.mpr ⟨rfl, rfl⟩, Fin.forall_fin_two.mpr ⟨rfl, rfl⟩⟩
  have along : Run.Along (pair 2).step (fun _ _ => True) State.initial s :=
    Run.Along.of_exec (fun _ _ _ => trivial) run
  have outLabels : (Role.first, Buffer.mOutLabels 0) ∈
      writes (B := 2) (s.block (.first, 0, .execute)) (.first, (0 : Fin 1), .execute)
        (.act .fillOutLabels) := by
    rw [block]
    decide
  have labels (c : Fin 2) : (Role.first, Buffer.mLabels 0 c) ∈
      writes (s.block (.first, 0, .evalThreadLoop c)) (.first, (0 : Fin 1), .evalThreadLoop c)
        (.recv (.second, 0, .toEval c) .labelCorrections) := by
    rw [block' c]
    revert c
    decide
  refine ⟨s, run, fun c => ⟨?_, ?_⟩⟩
  · exact written_after_reads along fills outLabels (by rw [block]; decide)
      (by simp [online, ops, evalThreadOps]) (by revert c; decide)
  · exact written_after_reads along (receives c) (labels c) (by rw [block' c]; decide) (by decide)
      (by revert c; decide)

end

end BatchDualEx.Online
