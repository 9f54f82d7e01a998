import BatchDualEx.DualEx.Online
import BatchDualEx.Lib.ThreadsProgress

/- Two honest parties in the online phase never come to a standstill: the operations of a bucket
   have stages such that every thread waits for earlier stages only. -/
namespace BatchDualEx.Online

open Threads

section
variable {P B : Nat}

/-- Sends and receives of the main threads around those of the circuits. -/
def stage : Kind B → OnlineOp P B → Nat
  | .execute, .set (_, _, .mInputPromise) => 1
  | .execute, .send _ _ => 1
  | .execute, .wait (_, _, .mTheirInputCorrectionPromise) => 4
  | .execute, .wait (_, _, .mOutputProm) => 26
  | .execute, .wait _ => 8
  | .execute, .act .checkInputLabels => 8
  | .execute, _ => 19
  | .sendLoop, .recv _ _ => 2
  | .sendLoop, .set _ => 3
  | .sendLoop, .wait _ => 17
  | .sendLoop, _ => 18
  | .sendCircuitInputLoop _, .wait (_, _, .mInputPromise) => 2
  | .sendCircuitInputLoop _, .wait (_, _, .mTheirInputCorrectionPromise) => 4
  | .sendCircuitInputLoop _, .recv _ _ => 11
  | .sendCircuitInputLoop _, .bump (_, _, .psiSendRemainingInputCommits) => 12
  | .sendCircuitInputLoop _, .wait (_, _, .mPsiInputPromise _) => 13
  | .sendCircuitInputLoop _, .waitAll (_, _, .psiSendRemainingInputCommits) _ => 13
  | .sendCircuitInputLoop _, .send _ .psiCommits => 14
  | .sendCircuitInputLoop _, .flush _ => 14
  | .sendCircuitInputLoop _, .bump _ => 14
  | .sendCircuitInputLoop _, .wait _ => 22
  | .sendCircuitInputLoop _, .waitAll _ _ => 22
  | .sendCircuitInputLoop _, .send _ .psiOpening => 23
  | .sendCircuitInputLoop _, _ => 5
  | .evalThreadLoop _, .recv _ .adaptiveSecureSeed => 6
  | .evalThreadLoop _, .recv _ .inputLabels => 6
  | .evalThreadLoop _, .set _ => 7
  | .evalThreadLoop _, .recv _ .labelCorrections => 7
  | .evalThreadLoop _, .act .evaluate => 7
  | .evalThreadLoop _, .bump (_, _, .mPSIIdxHead) => 8
  | .evalThreadLoop _, .wait (_, _, .mPsiInputPromise _) => 9
  | .evalThreadLoop _, .send _ _ => 10
  | .evalThreadLoop _, .recv _ .psiCommits => 15
  | .evalThreadLoop _, .bump (_, _, .psiRecvRemainingInputCommits) => 16
  | .evalThreadLoop _, .wait _ => 20
  | .evalThreadLoop _, .act _ => 20
  | .evalThreadLoop _, .bump _ => 21
  | .evalThreadLoop _, .waitAll _ _ => 22
  | .evalThreadLoop _, .recv _ _ => 24
  | .evalThreadLoop _, _ => 25

def hit (matching : Role → Nat → Fin B) : Thread P B → Nat → Bool
  | (role, p, .evalThreadLoop c), k => c == matching role (bucketIdx p k)
  | _, _ => false

def sends : Link B → Kind B
  | .toSendLoop => .execute
  | .toExecute => .sendLoop
  | .toEval c => .sendCircuitInputLoop c
  | .toSend c => .evalThreadLoop c

def receives : Link B → Kind B
  | .toSendLoop => .sendLoop
  | .toExecute => .execute
  | .toEval c => .evalThreadLoop c
  | .toSend c => .sendCircuitInputLoop c

variable {role : Role} {p : Fin P} {k : Nat} {kind : Kind B}

def stages (B : Nat) : Kind B → List Nat
  | .execute => [1, 1, 4] ++ List.replicate B 8 ++ [8, 19, 19, 19, 26]
  | .sendLoop => [2, 3, 17, 17, 18]
  | .sendCircuitInputLoop _ => [2, 4, 5, 5, 5, 11, 12, 13, 13, 14, 14, 14, 22, 22, 23]
  | .evalThreadLoop _ => [6, 6, 7, 7, 7, 8, 9, 10, 15, 16, 20, 20, 21, 22, 24, 25]

theorem map_stage (role : Role) (p : Fin P) (k : Nat) (kind : Kind B) :
    (ops role p k kind).map (stage kind) = stages B kind := by
  cases kind with
  | execute =>
    have waits : ((List.finRange B).map fun c => (Op.wait (role, bucketIdx p k,
        BucketProm.mTheirInputLabelsProm c) : OnlineOp P B)).map (stage .execute) =
        List.replicate B 8 := by
      rw [List.map_map]
      exact List.map_const'.trans (by rw [List.length_finRange])
    simp only [ops, executeOps, List.map_append, waits]
    rfl
  | _ => rfl

theorem stages_lt (kind : Kind B) : ∀ n ∈ stages B kind, n < 27 := by
  cases kind with
  | execute => simp +contextual [stages, or_imp]
  | _ => simp [stages]

theorem stages_ordered (kind : Kind B) : (stages B kind).Pairwise (· ≤ ·) := by
  cases kind with
  | execute =>
    simp only [stages, List.pairwise_append, List.pairwise_replicate, List.mem_append,
      List.mem_replicate]
    simp
    omega
  | _ => simp [stages]

theorem send_mem_ops {r : Role} {q : Fin P} {link : Link B} {what : Label}
    (member : .send (r, q, link) what ∈ ops role p k kind) :
    (role, p, kind) = (r, q, sends link) := by
  cases kind <;> cases link <;>
    simp [ops, executeOps, sendLoopOps, sendCircuitInputOps, evalThreadOps, sends] at member ⊢ <;>
    grind

theorem recv_mem_ops {r : Role} {q : Fin P} {link : Link B} {what : Label}
    (member : .recv (r, q, link) what ∈ ops role p k kind) :
    (role, p, kind) = (r.other, q, receives link) := by
  cases kind <;> cases link <;>
    simp [ops, executeOps, sendLoopOps, sendCircuitInputOps, evalThreadOps, receives]
      at member ⊢ <;>
    grind [Role.other_other]

theorem recv_stage {role : Role} {r : Role} {q : Fin P} {link : Link B} {what : Label}
    (member : .recv (r, q, link) what ∈ ops role p k (receives link)) :
    stage (sends link) (.send (r, q, link) what : OnlineOp P B) <
      stage (receives link) (.recv (r, q, link) what : OnlineOp P B) := by
  cases link <;>
    simp [ops, receives, executeOps, sendLoopOps, sendCircuitInputOps, evalThreadOps] at member
  case toEval c =>
    rcases member with ⟨_, rfl⟩ | ⟨_, rfl⟩ | ⟨_, rfl⟩ | ⟨_, rfl⟩ | ⟨_, rfl⟩ <;>
      exact Nat.le_of_ble_eq_true rfl
  all_goals
    obtain ⟨_, rfl⟩ := member
    exact Nat.le_of_ble_eq_true rfl

theorem wait_mem_ops {r : Role} {i : Nat} {x : BucketProm B}
    (member : .wait (r, i, x) ∈ ops role p k kind) : r = role ∧ i = bucketIdx p k := by
  cases kind <;>
    simp [ops, executeOps, sendLoopOps, sendCircuitInputOps, evalThreadOps] at member <;>
    grind

def fulfilledAt : BucketProm B → Nat
  | .mInputPromise => 1
  | .mTheirInputCorrectionPromise => 3
  | .mTheirInputLabelsProm _ => 7
  | .mTheirOutputLabelsProm => 19
  | .psiSendCommited => 12
  | .psiSendPSIValsComputed => 14
  | .psiRecvCommited => 16
  | .mTranslationCheckDoneProm => 21
  | .mPsiInputPromise _ => 8
  | .mOutputProm => 25

theorem stage_set {x : BucketProm B} {i : Nat} (known : setter x = some kind) :
    stage kind (.set (role, i, x) : OnlineOp P B) = fulfilledAt x := by
  cases x <;> cases known <;> rfl

theorem stage_bump {x : BucketProm B} {y : BucketCounter} {crew : Fin B → Kind B} {i : Nat}
    (latch : latchOf x = some y) (known : bumper y = some crew) (c : Fin B) :
    stage (crew c) (.bump (role, i, y) : OnlineOp P B) = fulfilledAt x := by
  cases x <;> cases latch <;> cases known <;> rfl

theorem wait_stage {r : Role} {i : Nat} {x : BucketProm B}
    (member : .wait (r, i, x) ∈ ops role p k kind) :
    fulfilledAt x < stage kind (.wait (r, i, x) : OnlineOp P B) := by
  cases kind <;> cases x <;>
    simp [ops, executeOps, sendLoopOps, sendCircuitInputOps, evalThreadOps] at member <;>
    exact Nat.le_of_ble_eq_true rfl

theorem waitAll_mem_ops {q : Prom B} {c : Counter}
    (member : .waitAll c q ∈ ops role p k kind) :
    (q.1 = role ∧ q.2.1 = bucketIdx p k) ∧
      fulfilledAt q.2.2 < stage kind (.waitAll c q : OnlineOp P B) := by
  cases kind <;>
    simp [ops, executeOps, sendLoopOps, sendCircuitInputOps, evalThreadOps] at member
  case sendCircuitInputLoop =>
    rcases member with ⟨rfl, rfl⟩ | ⟨rfl, rfl⟩ <;>
      exact ⟨⟨rfl, rfl⟩, Nat.le_of_ble_eq_true rfl⟩
  case evalThreadLoop =>
    obtain ⟨rfl, rfl⟩ := member
    exact ⟨⟨rfl, rfl⟩, Nat.le_of_ble_eq_true rfl⟩

variable {mNumExe : Nat} {permutes : Role → Nat → Equiv.Perm (Fin B)}
  {matching : Role → Nat → Fin B}

def honestParties (P B mNumExe : Nat) (permutes : Role → Nat → Equiv.Perm (Fin B)) :
    System (Thread P B) (Prom B) Counter (Chan P B) Label :=
  online P B mNumExe permutes fun _ => true

theorem set_no_ticket {x : BucketProm B} {c : Counter} {n i : Nat} {role : Role}
    (set : setter x = some kind) : ticket permutes c n ≠ some (role, i, x) := by
  intro mine
  rcases ticket_some mine with ⟨_, _, latch, _⟩ | ⟨_, slot, same⟩
  · cases (latch_not_set latch).symm.trans set
  · dsimp only at same
    subst same
    cases set

theorem ticket_once {q : Prom B} {c c' : Counter} {n n' : Nat}
    (mine : ticket permutes c n = some q) (mine' : ticket permutes c' n' = some q) :
    c = c' ∧ n = n' := by
  obtain ⟨r, i, y⟩ := c
  obtain ⟨r', i', y'⟩ := c'
  rcases ticket_some mine with ⟨role, bucket, latch, last⟩ | ⟨rfl, slot, isSlot⟩
  · rcases ticket_some mine' with ⟨role', bucket', latch', last'⟩ | ⟨_, slot', isSlot'⟩
    · cases latch.symm.trans latch'
      exact ⟨Prod.ext (role.symm.trans role') (Prod.ext (bucket.symm.trans bucket') rfl), by omega⟩
    · rw [isSlot'] at latch
      cases latch
  · rcases ticket_some mine' with ⟨_, _, latch', _⟩ | ⟨rfl, _⟩
    · rw [isSlot] at latch'
      cases latch'
    · obtain ⟨inside, same⟩ := Option.dite_none_right_eq_some.mp mine
      obtain ⟨inside', same'⟩ := Option.dite_none_right_eq_some.mp mine'
      have both := same.trans same'.symm
      simp only [Option.some.injEq, Prod.mk.injEq, BucketProm.mPsiInputPromise.injEq] at both
      obtain ⟨rfl, rfl, slots⟩ := both
      have := (permutes r i).injective slots
      exact ⟨rfl, congrArg Fin.val this⟩

theorem reportedBy (role : Role) (p : Fin P) (k : Nat) :
    ReportedBy (honestParties P B mNumExe permutes) (role, bucketIdx p k, .mOutputMissCount)
      (crew role p .evalThreadLoop) k where
  reports := by
    rintro ⟨r, q, kind⟩ l prom member
    obtain ⟨_, same, c, rfl⟩ := (report_mem_ops r q l).mp member
    cases congrArg (·.1) same
    obtain ⟨rfl, rfl⟩ := bucketIdx_inj (congrArg (·.2.1) same)
    exact ⟨Finset.mem_image.mpr ⟨c, Finset.mem_univ c, rfl⟩, rfl⟩
  single := by
    intro t l prom prom' member member'
    exact ((report_mem_ops _ _ l).mp member).1.trans ((report_mem_ops _ _ l).mp member').1.symm
  noBump := by
    intro t l member
    obtain ⟨_, _, _, known, _⟩ := (bump_mem_ops _ _ l).mp member
    cases known

theorem discipline : Discipline (honestParties P B mNumExe permutes) (hit (P := P) matching) where
  internal := fun _ => rfl
  nodup := fun t k => ops_nodup t.1 t.2.1 k t.2.2
  setOnce := by
    rintro ⟨r, i, x⟩ ⟨role, p, kind⟩ k ⟨role', p', kind'⟩ k' member member'
    obtain ⟨rfl, rfl, set⟩ := (set_mem_ops role p k).mp member
    obtain ⟨rfl, same, set'⟩ := (set_mem_ops role' p' k').mp member'
    obtain ⟨rfl, rfl⟩ := bucketIdx_inj same
    cases set.symm.trans set'
    exact ⟨rfl, rfl⟩
  setNoTicket := by
    rintro ⟨r, i, x⟩ t k c n member
    exact set_no_ticket ((set_mem_ops _ _ k).mp member).2.2
  setNoReport := by
    rintro ⟨r, i, x⟩ t k c t' k' member member'
    cases congrArg (·.2.2) ((report_mem_ops _ _ k').mp member').1
    cases ((set_mem_ops _ _ k).mp member).2.2
  ticketOnce := ticket_once
  ticketNoReport := by
    intro q c n c' t k mine member
    have output := congrArg (·.2.2) ((report_mem_ops _ _ k).mp member).1
    rcases ticket_some mine with ⟨_, _, latch, _⟩ | ⟨_, slot, same⟩
    · rw [show q.2.2 = .mOutputProm from output] at latch
      cases latch
    · cases output.symm.trans same
  reportNoTicket := by
    intro q c t k n member
    rw [((report_mem_ops _ _ k).mp member).2.1]
    rfl
  hitOnce := by
    rintro q c ⟨role, p, kind⟩ k c' ⟨role', p', kind'⟩ k' member isHit member' isHit'
    obtain ⟨rfl, rfl, d, rfl⟩ := (report_mem_ops _ _ k).mp member
    obtain ⟨same, rfl, d', rfl⟩ := (report_mem_ops _ _ k').mp member'
    cases congrArg (·.1) same
    obtain ⟨rfl, rfl⟩ := bucketIdx_inj (congrArg (·.2.1) same)
    have here : d = matching role (bucketIdx p k) := eq_of_beq isHit
    have there : d' = matching role (bucketIdx p k) := eq_of_beq isHit'
    exact ⟨by rw [here, there], rfl, rfl⟩
  matched := by
    rintro q c ⟨role, p, kind⟩ k member _
    obtain ⟨rfl, rfl, d, rfl⟩ := (report_mem_ops _ _ k).mp member
    refine ⟨crew role p .evalThreadLoop, k, reportedBy role p k,
      ⟨_, Finset.mem_image.mpr ⟨matching role (bucketIdx p k), Finset.mem_univ _, rfl⟩, ?_⟩, ?_⟩
    · exact beq_self_eq_true _
    · exact (card_crew role p (x := .mPSIIdxHead) rfl).le

theorem source (x : BucketProm B) : (∃ kind, setter x = some kind) ∨
    (∃ y kind, latchOf x = some y ∧ bumper (B := B) y = some kind) ∨
    (∃ slot, x = .mPsiInputPromise slot) ∨ x = .mOutputProm := by
  cases x with
  | mInputPromise | mTheirInputCorrectionPromise | mTheirInputLabelsProm
  | mTheirOutputLabelsProm => exact .inl ⟨_, rfl⟩
  | psiSendCommited | psiSendPSIValsComputed | psiRecvCommited
  | mTranslationCheckDoneProm => exact .inr (.inl ⟨_, _, rfl, rfl⟩)
  | mPsiInputPromise slot => exact .inr (.inr (.inl ⟨slot, rfl⟩))
  | mOutputProm => exact .inr (.inr (.inr rfl))

/-- Every promise of a bucket is fulfilled at its stage. -/
theorem supply {x : BucketProm B} {n : Nat} (positive : 0 < B) (inside : k < rounds mNumExe p)
    (lower : fulfilledAt x < n) :
    Supply (honestParties P B mNumExe permutes) (hit matching)
      (rankBy (fun t => stage t.2.2) 27) (role, bucketIdx p k, x) (k * 27 + n) := by
  rcases source x with ⟨kind, set⟩ | ⟨y, kind, latch, known⟩ | ⟨slot, rfl⟩ | rfl
  · exact .set (role, p, kind) k ((set_mem_ops role p k).mpr ⟨rfl, rfl, set⟩) inside
      (Nat.add_lt_add_left ((stage_set set).trans_lt lower) _)
  · refine .ticket (role, bucketIdx p k, y) (B - 1) (crew role p kind) k ?_
      (bumpedBy role p k known) (by rw [card_crew role p known]; omega) ?_
    · cases x <;> cases latch <;> exact if_pos (by omega)
    · intro t member
      obtain ⟨c, _, rfl⟩ := Finset.mem_image.mp member
      exact ⟨inside, Nat.add_lt_add_left ((stage_bump latch known c).trans_lt lower) _⟩
  · refine .ticket (role, bucketIdx p k, .mPSIIdxHead)
      ((permutes role (bucketIdx p k)).symm slot) (crew role p .evalThreadLoop) k ?_
      (bumpedBy role p k rfl) ?_ ?_
    · simp [honestParties, online, ticket]
    · rw [card_crew role p (x := .mPSIIdxHead) rfl]
      exact Fin.isLt _
    · intro t member
      obtain ⟨c, _, rfl⟩ := Finset.mem_image.mp member
      exact ⟨inside, Nat.add_lt_add_left lower _⟩
  · exact .report (role, p, .evalThreadLoop (matching role (bucketIdx p k))) k
      (role, bucketIdx p k, .mOutputMissCount)
      ((report_mem_ops role p k).mpr ⟨rfl, rfl, _, rfl⟩) (beq_self_eq_true _) inside
      (Nat.add_lt_add_left lower _)

theorem joins (role : Role) (p : Fin P) (link : Link B) :
    Joins (honestParties P B mNumExe permutes) (role, p, link) (role, p, sends link)
      (role.other, p, receives link) where
  sends := fun member => send_mem_ops member
  recvs := fun member => recv_mem_ops member
  agree := by
    intro k
    cases link <;>
      simp [honestParties, online, ops, receives, sends, executeOps, sendLoopOps,
        sendCircuitInputOps, evalThreadOps, List.filterMap_cons, Op.recvOn, Op.sendOn]
  blocks := rfl

theorem schedule : Schedule (honestParties P B mNumExe permutes) (hit matching)
    (fun t => stage t.2.2) 27 where
  toDiscipline := discipline
  below := by
    intro t k o member
    exact stages_lt t.2.2 _ (map_stage t.1 t.2.1 k t.2.2 ▸ List.mem_map_of_mem member)
  ordered := by
    intro t k
    rw [← List.pairwise_map (R := (· ≤ ·))]
    exact (map_stage t.1 t.2.1 k t.2.2).symm ▸ stages_ordered t.2.2
  waits := by
    rintro ⟨role, p, kind⟩ k ⟨r, i, x⟩ member inside
    obtain ⟨rfl, rfl⟩ := wait_mem_ops member
    exact supply (matching r 0).pos inside (wait_stage member)
  waitAlls := by
    rintro ⟨role, p, kind⟩ k c ⟨r, i, x⟩ member inside
    obtain ⟨⟨sameRole, sameBucket⟩, lower⟩ := waitAll_mem_ops member
    dsimp only at sameRole sameBucket
    subst sameRole sameBucket
    exact supply (matching r 0).pos inside lower
  joins := by
    rintro ⟨role, p, kind⟩ k ⟨r, q, link⟩ what member
    obtain ⟨rfl, rfl, rfl⟩ := recv_mem_ops member
    exact ⟨_, joins r p link, recv_stage member⟩

/-- As long as a call of `execute` has not returned, some thread or message can go on. -/
theorem execute_progress
    {s : State (Thread P B) (Prom B) Counter (Chan P B)}
    (run : Run.Along (honestParties P B mNumExe permutes).step (Calm (hit matching))
      State.initial s)
    (unfinished : ∃ (role : Role) (p : Fin P), s.block (role, p, .execute) < rounds mNumExe p) :
    ∃ a u, Calm (hit matching) s a ∧ (honestParties P B mNumExe permutes).step s a = some u := by
  obtain ⟨role, p, unfinished⟩ := unfinished
  exact schedule.progress run unfinished

/-- Both parties with two circuits in the bucket: both have called `execute` and the first has
    received the input correction of the second. -/
def bothStart : List (Action (Thread 1 2) (Chan 1 2)) :=
  [.finish (.first, Fin.last 0, .execute) false, .finish (.second, Fin.last 0, .execute) false,
    .finish (.second, Fin.last 0, .execute) false, .deliver (.second, Fin.last 0, .toSendLoop),
    .finish (.first, Fin.last 0, .sendLoop) false]

theorem execute_progress_start : ∃ s,
    Run.exec (honestParties 1 2 1 fun _ _ => Equiv.swap 0 1).step State.initial bothStart =
      some s ∧
    ∃ a u, Calm (hit fun _ _ => 1) s a ∧
      (honestParties 1 2 1 fun _ _ => Equiv.swap 0 1).step s a = some u := by
  obtain ⟨s, run, calling⟩ : ∃ s,
      Run.exec (honestParties 1 2 1 fun _ _ => Equiv.swap 0 1).step State.initial bothStart =
        some s ∧ s.block (.second, 0, .execute) = 0 := ⟨_, rfl, rfl⟩
  have calm : ∀ a ∈ bothStart, ∀ s : State (Thread 1 2) (Prom 2) Counter (Chan 1 2),
      Calm (hit fun _ _ => (1 : Fin 2)) s a := by
    simp [bothStart, Calm, hit]
  exact ⟨s, run, execute_progress (.of_exec calm run) ⟨.second, 0, by rw [calling]; decide⟩⟩

end

end BatchDualEx.Online
