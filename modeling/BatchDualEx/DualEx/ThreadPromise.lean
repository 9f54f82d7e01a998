import BatchDualEx.DualEx.OutputPromise
import BatchDualEx.DualEx.PsiSlots
import BatchDualEx.Lib.WriteOnce

/- What the threads of one party bring about, whatever their set intersections answer: the slots
   hold every value once, and how the answers are handled is a run of the threads that fulfil the
   promise. -/
namespace BatchDualEx

open Function WriteOnce

variable {B : Nat}

def Stage.promise : Stage B → PromiseStage
  | .finished => .finished
  | .lost => .futureError
  | _ => .opening

def EvalState.promise (s : EvalState B) : PromiseState B :=
  ⟨Stage.promise ∘ s.stage, s.mOutputMissCount, s.mOutputProm⟩

namespace EvalBucket

variable {b : EvalBucket B} {draws : Fin B → Nat → Block} {given : List (Fin B × Fin B)}
  {s t : EvalState B} {c : Fin B}

theorem Slots.all_given (slots : b.Slots draws given s)
    (promised : ∀ slot, s.mPsiInputPromise slot ≠ none) :
    (∀ slot, ∃ c, (c, slot) ∈ given) ∧ ∀ c, ∃ slot, (c, slot) ∈ given := by
  have occupied (slot : Fin B) : slot ∈ given.map Prod.snd := by
    by_contra absent
    exact promised slot (slots.untouched slot absent)
  have length : given.length = B := by
    have all : (given.map Prod.snd).toFinset = Finset.univ :=
      Finset.eq_univ_of_forall fun slot => List.mem_toFinset.mpr (occupied slot)
    have card := List.toFinset_card_of_nodup slots.nodup_slots
    rw [all, Finset.card_univ, Fintype.card_fin, List.length_map] at card
    exact card.symm
  have entered : (given.map Prod.fst).toFinset = Finset.univ := by
    refine Finset.eq_univ_of_card _ ?_
    rw [List.toFinset_card_of_nodup slots.threads, List.length_map, length, Fintype.card_fin]
  constructor
  · intro slot
    obtain ⟨⟨c, slot⟩, member, rfl⟩ := List.mem_map.mp (occupied slot)
    exact ⟨c, member⟩
  · intro c
    have listed : c ∈ given.map Prod.fst := by
      rw [← List.mem_toFinset, entered]
      exact Finset.mem_univ c
    obtain ⟨⟨c, slot⟩, member, rfl⟩ := List.mem_map.mp listed
    exact ⟨slot, member⟩

structure Filled (b : EvalBucket B) (draws : Fin B → Nat → Block) (s : EvalState B) : Prop where
  promise : ∀ slot, s.mPsiInputPromise slot = some (s.mPSIInputBlocks slot)
  distinct : Injective s.mPSIInputBlocks
  kept : ∀ slot, ∃ c, s.mPSIInputBlocks slot = b.psiValue c ∨ s.mPSIInputBlocks slot = draws c 0
  covers : ∀ c, ∃ slot, s.mPSIInputBlocks slot = b.psiValue c

theorem Slots.filled (slots : b.Slots draws given s)
    (promised : ∀ slot, s.mPsiInputPromise slot ≠ none) : b.Filled draws s := by
  obtain ⟨threads, places⟩ := slots.all_given promised
  refine ⟨fun slot => ?_, fun slot slot' same => ?_, fun slot => ?_, fun c => ?_⟩
  · obtain ⟨c, member⟩ := threads slot
    cases here : s.stage c with
    | start | evaluated _ =>
      have entered := (slots.entered c).mp ⟨slot, member⟩
      rw [here] at entered
      exact entered.elim
    | stored slot' psiInput =>
      obtain ⟨mine, _, unset⟩ := slots.holding c slot' psiInput here
      cases slots.slot_unique member mine
      exact absurd unset (promised slot)
    | _ => exact slots.promised c slot member (by rw [here]; trivial)
  · obtain ⟨c, here⟩ := threads slot
    obtain ⟨d, there⟩ := threads slot'
    have nodup := slots.distinct
    rw [slots.storedBlocks_eq] at nodup
    exact congrArg Prod.snd (List.inj_on_of_nodup_map nodup here there same)
  · obtain ⟨c, member⟩ := threads slot
    exact ⟨c, slots.kept c slot member⟩
  · obtain ⟨slot, member⟩ := places c
    have stored := slots.covers c slot member
    rw [slots.storedBlocks_eq] at stored
    obtain ⟨pair, _, value⟩ := List.mem_map.mp stored
    exact ⟨pair.2, value⟩

/-- Threads that are past `set_value` have fulfilled the promises of all slots. -/
theorem Slots.promised_of_delivered (slots : b.Slots draws given s)
    (delivered : ∀ c, (s.stage c).Delivered) (slot : Fin B) : s.mPsiInputPromise slot ≠ none := by
  have threads : (given.map Prod.fst).toFinset = Finset.univ := by
    refine Finset.eq_univ_of_forall fun c => List.mem_toFinset.mpr ?_
    obtain ⟨slot, member⟩ := (slots.entered c).mpr (delivered c).entered
    exact List.mem_map_of_mem member
  have occupied : (given.map Prod.snd).toFinset = Finset.univ := by
    have card := List.toFinset_card_of_nodup slots.threads
    rw [threads, List.length_map] at card
    refine Finset.eq_univ_of_card _ ?_
    rw [List.toFinset_card_of_nodup slots.nodup_slots, List.length_map, ← card, Finset.card_univ]
  have listed : slot ∈ given.map Prod.snd := by
    rw [← List.mem_toFinset, occupied]
    exact Finset.mem_univ slot
  obtain ⟨⟨c, slot⟩, member, rfl⟩ := List.mem_map.mp listed
  rw [slots.promised c slot member (delivered c)]
  exact Option.some_ne_none _

theorem Slots.head_lt (slots : b.Slots draws given s) (outside : ¬ (s.stage c).Entered) :
    s.mPSIIdxHead < B := by
  have fewer : (given.map Prod.fst).toFinset.card < B := by
    have missing : (given.map Prod.fst).toFinset ≠ Finset.univ := by
      intro all
      have listed : c ∈ given.map Prod.fst := by
        rw [← List.mem_toFinset, all]
        exact Finset.mem_univ c
      obtain ⟨⟨c, slot⟩, member, rfl⟩ := List.mem_map.mp listed
      exact outside ((slots.entered c).mp ⟨slot, member⟩)
    have below := Finset.card_lt_card ((Finset.ssubset_univ_iff).mpr missing)
    rwa [Finset.card_univ, Fintype.card_fin] at below
  rw [List.toFinset_card_of_nodup slots.threads, List.length_map] at fewer
  have order := congrArg List.length slots.order
  rw [List.length_map, List.length_map, List.length_take, List.length_finRange] at order
  omega

theorem promise_of_stage {stage : Stage B} (stages : t.stage = update s.stage c stage)
    (same : stage.promise = (s.stage c).promise) (count : t.mOutputMissCount = s.mOutputMissCount)
    (prom : t.mOutputProm = s.mOutputProm) : t.promise = s.promise := by
  unfold EvalState.promise
  rw [stages, comp_update, same, count, prom]
  exact congrArg (PromiseState.mk · _ _) (update_eq_self c (Stage.promise ∘ s.stage))

theorem promise_inv_of_stage {results : Fin B → Bool} (inv : PromiseState.Inv results s.promise)
    {stage : Stage B} (stages : t.stage = update s.stage c stage)
    (same : stage.promise = (s.stage c).promise) (count : t.mOutputMissCount = s.mOutputMissCount)
    (prom : t.mOutputProm = s.mOutputProm) : PromiseState.Inv results t.promise := by
  rw [promise_of_stage stages same count prom]
  exact inv

/-- A thread that handles its answer takes the steps of the thread that fulfils the promise. -/
theorem promise_openPsi (opening : (s.stage c).promise = .opening) :
    Run.Along (PromiseState.step b.mPsiRecvOpen) (fun _ _ => True) s.promise
      (b.openPsi s c).promise := by
  have first : PromiseState.step b.mPsiRecvOpen s.promise c =
      some ⟨update (Stage.promise ∘ s.stage) c (if b.mPsiRecvOpen c then .matched else .missed),
        s.mOutputMissCount, s.mOutputProm⟩ := by
    have here : s.promise.stage c = .opening := opening
    simp only [PromiseState.step, here]
    rfl
  by_cases isMatch : b.mPsiRecvOpen c = true
  · rw [if_pos isMatch] at first
    have second : PromiseState.step b.mPsiRecvOpen ⟨update (Stage.promise ∘ s.stage) c .matched,
        s.mOutputMissCount, s.mOutputProm⟩ c = some (b.openPsi s c).promise := by
      simp only [PromiseState.step, update_self]
      cases prom : s.mOutputProm <;>
        simp [PromiseState.fulfil, openPsi, EvalState.promise, isMatch, prom, comp_update,
          Stage.promise]
    have run : Run.exec (PromiseState.step b.mPsiRecvOpen) s.promise [c, c] =
        some (b.openPsi s c).promise := by
      simp only [Run.exec, first, second, Option.bind_some]
    exact .of_exec (fun _ _ _ => trivial) run
  · rw [if_neg isMatch] at first
    have second : PromiseState.step b.mPsiRecvOpen ⟨update (Stage.promise ∘ s.stage) c .missed,
        s.mOutputMissCount, s.mOutputProm⟩ c = some ⟨update (Stage.promise ∘ s.stage) c
          (.counted (s.mOutputMissCount + 1)), s.mOutputMissCount + 1, s.mOutputProm⟩ := by
      simp [PromiseState.step]
    have third : PromiseState.step b.mPsiRecvOpen ⟨update (Stage.promise ∘ s.stage) c
          (.counted (s.mOutputMissCount + 1)), s.mOutputMissCount + 1, s.mOutputProm⟩ c =
        some (b.openPsi s c).promise := by
      simp only [PromiseState.step, update_self]
      by_cases last : s.mOutputMissCount + 1 = B
      · cases prom : s.mOutputProm <;>
          simp [PromiseState.fulfil, openPsi, EvalState.promise, isMatch, prom, comp_update,
            Stage.promise, last, PromiseState.noItems]
      · simp [openPsi, EvalState.promise, isMatch, comp_update, Stage.promise, last]
    have run : Run.exec (PromiseState.step b.mPsiRecvOpen) s.promise [c, c, c] =
        some (b.openPsi s c).promise := by
      simp only [Run.exec, first, second, third, Option.bind_some]
    exact .of_exec (fun _ _ _ => trivial) run

/-- What holds of the threads of a party between their steps, as long as none of them throws. -/
structure Steady (b : EvalBucket B) (draws : Fin B → Nat → Block) (s : EvalState B) : Prop where
  slots : ∃ given, b.Slots draws given s
  promise : PromiseState.Inv b.mPsiRecvOpen s.promise
  written : ∀ c, s.stage c ≠ .start → s.mOutputs c = b.outputs c

theorem steady_initial (positive : 0 < B) : b.Steady draws initial where
  slots := ⟨[], slots_initial⟩
  promise := PromiseState.inv_initial positive
  written _ moved := absurd rfl moved

theorem written_of_update (written : ∀ c, s.stage c ≠ .start → s.mOutputs c = b.outputs c)
    {stage : Stage B} (moved : s.stage c ≠ .start) (stages : t.stage = update s.stage c stage)
    (outputs : t.mOutputs = s.mOutputs) : ∀ d, t.stage d ≠ .start → t.mOutputs d = b.outputs d := by
  intro d past
  rw [outputs]
  by_cases same : d = c
  · rw [same]
    exact written c moved
  · rw [stages, update_of_ne same] at past
    exact written d past

theorem Steady.step (steady : b.Steady draws s) (fresh : b.FreshDraws draws) {a : EvalAction B}
    (own : DrawsFrom draws a) (calm : ∀ c, a ≠ .throw c) (taken : b.step s a = some t) :
    b.Steady draws t := by
  obtain ⟨given, slots⟩ := steady.slots
  have later : ∃ given, b.Slots draws given t := ⟨_, slots_step slots fresh own taken⟩
  cases a with
  | evalCircuit c =>
    obtain ⟨at_start, rfl⟩ := evalCircuit_inv taken
    refine ⟨later, ?_, fun d past => ?_⟩
    · exact promise_inv_of_stage (c := c) steady.promise rfl (by rw [at_start]; rfl) rfl rfl
    · by_cases same : d = c
      · subst same
        exact update_self _ _ _
      · simp only [update_of_ne same] at past ⊢
        exact steady.written d past
  | store c drawn =>
    obtain ⟨psiInput, here, inside, rfl⟩ := store_inv taken
    refine ⟨later, ?_, written_of_update (c := c) steady.written (by simp [here]) rfl rfl⟩
    exact promise_inv_of_stage (c := c) steady.promise rfl (by rw [here]; rfl) rfl rfl
  | setValue c =>
    have waiting := (slots_setValue slots taken).1
    obtain ⟨moved, stage, promises, _, rfl⟩ := setValue_inv taken
    refine ⟨later, ?_, written_of_update (c := c) steady.written moved rfl rfl⟩
    have opening : (s.stage c).promise = .opening := by
      simp only [EvalBucket.step] at taken
      split at taken
      case h_1 _ slot psiInput stored => rw [stored]; rfl
      case h_2 => cases taken
    have stage_eq : stage = .waiting := (update_self c stage s.stage).symm.trans waiting
    exact promise_inv_of_stage (c := c) steady.promise rfl (by rw [opening, stage_eq]; rfl) rfl rfl
  | get c =>
    obtain ⟨waiting, psiInput, _, rfl⟩ := get_inv taken
    refine ⟨later, ?_, written_of_update (c := c) steady.written (by simp [waiting]) rfl rfl⟩
    exact promise_inv_of_stage (c := c) steady.promise rfl (by rw [waiting]; rfl) rfl rfl
  | throw c => exact absurd rfl (calm c)
  | psiOpen c =>
    obtain ⟨⟨psiInput, received⟩, rfl⟩ := psiOpen_inv taken
    obtain ⟨⟨stage, _, stages⟩, outputs, _⟩ := b.openPsi_cases s c
    refine ⟨later, ?_, written_of_update steady.written (by simp [received]) stages outputs⟩
    have run := promise_openPsi (b := b) (s := s) (c := c) (by rw [received]; rfl)
    exact run.invariant (fun _ _ _ inv _ taken => inv.step taken) steady.promise

def thread : EvalAction B → Fin B
  | .evalCircuit c | .store c _ | .setValue c | .get c | .throw c | .psiOpen c => c

def rank : Stage B → Nat
  | .start => 5
  | .evaluated _ => 4
  | .stored _ _ => 3
  | .waiting => 2
  | .received _ => 1
  | .finished | .lost => 0

structure Moved (s t : EvalState B) (a : EvalAction B) : Prop where
  others : ∀ d, d ≠ thread a → t.stage d = s.stage d
  grows : Extends t.mPsiInputPromise s.mPsiInputPromise
  received : ∀ psiInput, t.stage (thread a) = .received psiInput →
    t.mPsiInputPromise (thread a) = some psiInput
  lower : rank (t.stage (thread a)) < rank (s.stage (thread a))

theorem moved_of_stage {a : EvalAction B} {stage : Stage B}
    (stages : t.stage = update s.stage (thread a) stage)
    (promises : t.mPsiInputPromise = s.mPsiInputPromise)
    (received : ∀ psiInput, stage = .received psiInput →
      s.mPsiInputPromise (thread a) = some psiInput)
    (lower : rank stage < rank (s.stage (thread a))) : Moved s t a := by
  refine ⟨fun d other => by rw [stages, update_of_ne other], ?_, ?_, ?_⟩
  · rw [promises]
    exact fun _ _ written => written
  · rw [stages, update_self, promises]
    exact received
  · rw [stages, update_self]
    exact lower

theorem step_moved {a : EvalAction B} (taken : b.step s a = some t) : Moved s t a := by
  cases a with
  | evalCircuit c =>
    obtain ⟨at_start, rfl⟩ := evalCircuit_inv taken
    exact moved_of_stage (s := s) rfl rfl (by simp) (by simp [thread, at_start, rank])
  | store c drawn =>
    obtain ⟨psiInput, here, inside, rfl⟩ := store_inv taken
    exact moved_of_stage (s := s) rfl rfl (by simp) (by simp [thread, here, rank])
  | setValue c =>
    simp only [EvalBucket.step] at taken
    split at taken
    case h_2 => cases taken
    case h_1 _ slot psiInput stored =>
      split at taken
      case h_1 unset =>
        cases taken
        refine ⟨fun d other => update_of_ne other _ _, extends_update unset _, ?_, ?_⟩
        · intro psiInput (received : update s.stage c .waiting c = _)
          rw [update_self] at received
          cases received
        · simp [thread, stored, rank]
      case h_2 =>
        cases taken
        exact moved_of_stage (s := s) rfl rfl (by simp) (by simp [thread, stored, rank])
  | get c =>
    obtain ⟨waiting, psiInput, fulfilled, rfl⟩ := get_inv taken
    refine moved_of_stage (s := s) rfl rfl ?_ (by simp [thread, waiting, rank])
    intro psiInput' same
    cases same
    exact fulfilled
  | throw c =>
    obtain ⟨⟨psiInput, received⟩, rfl⟩ := throw_inv taken
    exact moved_of_stage (s := s) rfl rfl (by simp) (by simp [thread, received, rank])
  | psiOpen c =>
    obtain ⟨⟨psiInput, received⟩, rfl⟩ := psiOpen_inv taken
    obtain ⟨⟨stage, ends, stages⟩, _⟩ := b.openPsi_cases s c
    refine moved_of_stage stages (openPsi_frame s c).2.2 ?_ ?_
    · intro psiInput same
      rcases ends with rfl | rfl <;> cases same
    · rcases ends with rfl | rfl <;> simp [thread, received, rank]

/-- A thread that has not handled its answer yet has not thrown. -/
theorem Steady.opening (steady : b.Steady draws s) {a : EvalAction B} (calm : ∀ c, a ≠ .throw c)
    (before : ∀ c, a ≠ .psiOpen c) (taken : b.step s a = some t) :
    (t.stage (thread a)).promise = .opening := by
  obtain ⟨given, slots⟩ := steady.slots
  cases a with
  | evalCircuit c =>
    obtain ⟨_, rfl⟩ := evalCircuit_inv taken
    exact congrArg Stage.promise (update_self c _ s.stage)
  | store c drawn =>
    obtain ⟨psiInput, _, inside, rfl⟩ := store_inv taken
    exact congrArg Stage.promise (update_self c _ s.stage)
  | setValue c => exact congrArg Stage.promise (slots_setValue slots taken).1
  | get c =>
    obtain ⟨_, psiInput, _, rfl⟩ := get_inv taken
    exact congrArg Stage.promise (update_self c _ s.stage)
  | throw c => exact absurd rfl (calm c)
  | psiOpen c => exact absurd rfl (before c)

end EvalBucket

end BatchDualEx
