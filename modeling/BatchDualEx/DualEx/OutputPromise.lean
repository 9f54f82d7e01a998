import BatchDualEx.Circuit.Circuit
import BatchDualEx.Lib.Run
import Mathlib.Data.Fintype.Card
import Mathlib.Algebra.BigOperators.Group.Finset.Basic
import Mathlib.Algebra.Order.BigOperators.Group.Finset

/- The last part of `evalThreadLoop` for the `B` threads of one bucket: each gets the result of
   its set intersection, a match fulfils `mOutputProm`, and the last miss sets the exception. The
   steps of the threads interleave, also between the counting of a miss and the exception. -/
namespace BatchDualEx

open Run Function

/-- `matched` and `missed` are before the match and the miss are handled. A second value for the
    promise throws `future_error` out of the thread. -/
inductive PromiseStage where
  | opening
  | matched
  | missed
  | counted (missCount : Nat)
  | finished
  | futureError
  deriving DecidableEq, Repr

/-- The fields of the bucket that the threads share. The value of the promise is the circuit
    whose outputs it points to. -/
structure PromiseState (B : Nat) where
  stage : Fin B → PromiseStage
  mOutputMissCount : Nat
  mOutputProm : Option (Except Fault (Fin B))

namespace PromiseState

variable {B : Nat}

def initial : PromiseState B := ⟨fun _ => .opening, 0, none⟩

def fulfil (s : PromiseState B) (c : Fin B) (value : Except Fault (Fin B)) : PromiseState B :=
  match s.mOutputProm with
  | none => { s with
      stage := update s.stage c .finished
      mOutputProm := some value }
  | some _ => { s with stage := update s.stage c .futureError }

def noItems : Fault := .thrown "No items found in the intersection "

def step (results : Fin B → Bool) (s : PromiseState B) (c : Fin B) : Option (PromiseState B) :=
  match s.stage c with
  | .opening =>
    some { s with stage := update s.stage c (if results c then .matched else .missed) }
  | .matched => some (s.fulfil c (.ok c))
  | .missed =>
    some { s with
      stage := update s.stage c (.counted (s.mOutputMissCount + 1))
      mOutputMissCount := s.mOutputMissCount + 1 }
  | .counted missCount =>
    if missCount = B then some (s.fulfil c (.error noItems))
    else some { s with stage := update s.stage c .finished }
  | .finished => none
  | .futureError => none

/-- What is asked of all interleavings: every run ends, no thread is lost to `future_error`, the
    promise keeps its first value, this value is right, and in the end there is one. -/
structure FulfilledOnce (results : Fin B → Bool) : Prop where
  bounded : ∃ bound, ∀ cs s, exec (step results) initial cs = some s → cs.length ≤ bound
  safe : ∀ s, Along (step results) (fun _ _ => True) initial s → ∀ c, s.stage c ≠ .futureError
  kept : ∀ s, Along (step results) (fun _ _ => True) initial s → s.mOutputProm ≠ none →
    ∀ c t, step results s c = some t → t.mOutputProm = s.mOutputProm
  matched : ∀ s, Along (step results) (fun _ _ => True) initial s →
    ∀ c, s.mOutputProm = some (.ok c) → results c = true
  missed : ∀ s, Along (step results) (fun _ _ => True) initial s →
    ∀ fault, s.mOutputProm = some (.error fault) → fault = noItems ∧ ∀ c, results c = false
  fulfilled : ∀ s, Along (step results) (fun _ _ => True) initial s →
    (∀ c, step results s c = none) → s.mOutputProm ≠ none

def Passed : PromiseStage → Bool
  | .opening => false
  | .matched => false
  | .missed => false
  | .counted _ => true
  | .finished => true
  | .futureError => true

section
variable (results : Fin B → Bool)

def missCounted (stage : Fin B → PromiseStage) : Finset (Fin B) :=
  Finset.univ.filter fun c => results c = false ∧ Passed (stage c) = true

theorem missCounted_card_le (stage : Fin B → PromiseStage) :
    (missCounted results stage).card ≤ B := by
  have le := Finset.card_le_univ (missCounted results stage)
  rwa [Fintype.card_fin] at le

theorem all_missed {stage : Fin B → PromiseStage} (full : (missCounted results stage).card = B)
    (c : Fin B) : results c = false ∧ Passed (stage c) = true := by
  have univ := Finset.eq_univ_of_card _ (full.trans (Fintype.card_fin B).symm)
  have member : c ∈ missCounted results stage := by
    rw [univ]
    exact Finset.mem_univ c
  exact (Finset.mem_filter.mp member).2

theorem missCounted_update_same {stage : Fin B → PromiseStage} {c : Fin B} {next : PromiseStage}
    (same : results c = true ∨ Passed next = Passed (stage c)) :
    missCounted results (update stage c next) = missCounted results stage := by
  unfold missCounted
  apply Finset.filter_congr
  intro d _
  by_cases self : d = c
  · subst self
    rw [update_self]
    rcases same with missed | passed
    · simp [missed]
    · rw [passed]
  · rw [update_of_ne self]

theorem missCounted_update_new {stage : Fin B → PromiseStage} {c : Fin B} {next : PromiseStage}
    (miss : results c = false) (before : Passed (stage c) = false) (after : Passed next = true) :
    (missCounted results (update stage c next)).card = (missCounted results stage).card + 1 := by
  have new : c ∉ missCounted results stage := by
    unfold missCounted
    simp [before]
  rw [← Finset.card_insert_of_notMem new]
  congr 1
  ext d
  unfold missCounted
  by_cases self : d = c
  · subst self
    simp [miss, after]
  · simp [self]

end

def Fits (results : Fin B → Bool) (c : Fin B) : PromiseStage → Prop
  | .opening => True
  | .matched => results c = true
  | .missed => results c = false
  | .counted _ => results c = false
  | .finished => True
  | .futureError => results c = true ∧ ∃ d, d ≠ c ∧ results d = true

/-- What holds between the steps, for any results. -/
structure Inv (results : Fin B → Bool) (s : PromiseState B) : Prop where
  fits : ∀ c, Fits results c (s.stage c)
  bound : ∀ c k, s.stage c = .counted k → k ≤ s.mOutputMissCount
  count : s.mOutputMissCount = (missCounted results s.stage).card
  ok : ∀ c, s.mOutputProm = some (.ok c) → results c = true ∧ s.stage c = .finished
  error : ∀ fault, s.mOutputProm = some (.error fault) →
    fault = noItems ∧ s.mOutputMissCount = B ∧ ∀ c, s.stage c ≠ .counted B
  matches_done : ∀ c, results c = true → Passed (s.stage c) = true → s.mOutputProm ≠ none
  misses_done : s.mOutputMissCount = B → s.mOutputProm = none →
    ∃ c, s.stage c = .counted B ∧ ∀ d, s.stage d = .counted B → d = c

variable {results : Fin B → Bool} {s : PromiseState B}

theorem inv_initial (some : 0 < B) : Inv results (initial : PromiseState B) where
  fits := fun _ => trivial
  bound := nofun
  count := by simp [initial, missCounted, Passed]
  ok := nofun
  error := nofun
  matches_done := nofun
  misses_done := fun full => absurd full (Nat.ne_of_lt some)

theorem fulfil_none (c : Fin B) (value : Except Fault (Fin B)) (empty : s.mOutputProm = none) :
    s.fulfil c value = { s with
      stage := update s.stage c .finished
      mOutputProm := some value } := by
  unfold fulfil
  rw [empty]

theorem fulfil_some (c : Fin B) (value : Except Fault (Fin B)) (full : s.mOutputProm ≠ none) :
    s.fulfil c value = { s with stage := update s.stage c .futureError } := by
  unfold fulfil
  cases prom : s.mOutputProm with
  | none => exact absurd prom full
  | some _ => rfl

section
variable (inv : Inv results s)
include inv

theorem Inv.count_le : s.mOutputMissCount ≤ B :=
  inv.count ▸ missCounted_card_le results s.stage

theorem Inv.all_missed (full : s.mOutputMissCount = B) (c : Fin B) :
    results c = false ∧ Passed (s.stage c) = true :=
  PromiseState.all_missed results (inv.count.symm.trans full) c

theorem Inv.full_of_counted {c : Fin B} (last : s.stage c = .counted B) :
    s.mOutputMissCount = B :=
  Nat.le_antisymm inv.count_le (inv.bound c B last)

theorem Inv.fits_update {c : Fin B} {next : PromiseStage} (fit : Fits results c next) :
    ∀ d, Fits results d (update s.stage c next d) := by
  intro d
  by_cases self : d = c
  · subst self
    rwa [update_self]
  · rw [update_of_ne self]
    exact inv.fits d

theorem Inv.bound_update {c : Fin B} {next : PromiseStage} {count : Nat}
    (more : s.mOutputMissCount ≤ count) (fit : ∀ k, next = .counted k → k ≤ count) :
    ∀ d k, update s.stage c next d = .counted k → k ≤ count := by
  intro d k
  by_cases self : d = c
  · subst self
    rw [update_self]
    exact fit k
  · rw [update_of_ne self]
    exact fun there => (inv.bound d k there).trans more

theorem Inv.opening {c : Fin B} (here : s.stage c = .opening) :
    Inv results { s with
      stage := update s.stage c (if results c then .matched else .missed) } := by
  have notFull : s.mOutputMissCount ≠ B := fun full => by
    have passed := (inv.all_missed full c).2
    rw [here] at passed
    cases passed
  obtain ⟨next, chosen, fit, silent⟩ : ∃ next,
      (if results c then PromiseStage.matched else .missed) = next ∧ Fits results c next ∧
        Passed next = false := by
    cases result : results c
    · exact ⟨_, rfl, result, rfl⟩
    · exact ⟨_, rfl, result, rfl⟩
  rw [chosen]
  refine ⟨inv.fits_update fit, inv.bound_update (le_refl _) ?_, ?_, ?_, ?_, ?_, ?_⟩
  · rintro k rfl
    cases silent
  · rw [missCounted_update_same results (.inr (by rw [silent, here, Passed]))]
    exact inv.count
  · intro d value
    obtain ⟨result, finished⟩ := inv.ok d value
    have apart : d ≠ c := fun same => by rw [same, here] at finished; cases finished
    exact ⟨result, (update_of_ne apart _ _).trans finished⟩
  · exact fun fault value => absurd (inv.error fault value).2.1 notFull
  · intro d result done
    by_cases self : d = c
    · subst self
      simp only [update_self, silent] at done
      cases done
    · simp only [update_of_ne self] at done
      exact inv.matches_done d result done
  · exact fun full => absurd full notFull

/-- The first match fulfils the promise, and a later one is lost. -/
theorem Inv.matching {c : Fin B} (here : s.stage c = .matched) :
    Inv results (s.fulfil c (.ok c)) := by
  have result : results c = true := by
    have fit := inv.fits c
    rwa [here] at fit
  have notFull : s.mOutputMissCount ≠ B := fun full => by
    rw [(inv.all_missed full c).1] at result
    cases result
  cases prom : s.mOutputProm with
  | none =>
    rw [fulfil_none c _ prom]
    refine ⟨inv.fits_update trivial, inv.bound_update (le_refl _) nofun, ?_, ?_, nofun, nofun, ?_⟩
    · rw [missCounted_update_same results (.inl result)]
      exact inv.count
    · intro d value
      cases value
      exact ⟨result, update_self _ _ _⟩
    · exact fun full => absurd full notFull
  | some value =>
    have other : ∃ d, d ≠ c ∧ results d = true := by
      cases value with
      | error fault => exact absurd (inv.error fault prom).2.1 notFull
      | ok d =>
        obtain ⟨isMatch, finished⟩ := inv.ok d prom
        refine ⟨d, fun same => ?_, isMatch⟩
        rw [same, here] at finished
        cases finished
    have full : s.mOutputProm ≠ none := by
      rw [prom]
      exact nofun
    rw [fulfil_some c _ full]
    refine ⟨inv.fits_update ⟨result, other⟩, inv.bound_update (le_refl _) nofun, ?_, ?_, ?_, ?_, ?_⟩
    · rw [missCounted_update_same results (.inl result)]
      exact inv.count
    · intro d value'
      obtain ⟨isMatch, finished⟩ := inv.ok d value'
      have apart : d ≠ c := fun same => by rw [same, here] at finished; cases finished
      exact ⟨isMatch, (update_of_ne apart _ _).trans finished⟩
    · exact fun fault value' => absurd (inv.error fault value').2.1 notFull
    · exact fun _ _ _ => full
    · exact fun full => absurd full notFull

/-- A miss is counted; the thread that counts the last one is the only one to know. -/
theorem Inv.missing {c : Fin B} (here : s.stage c = .missed) :
    Inv results { s with
      stage := update s.stage c (.counted (s.mOutputMissCount + 1))
      mOutputMissCount := s.mOutputMissCount + 1 } := by
  have result : results c = false := by
    have fit := inv.fits c
    rwa [here] at fit
  have notFull : s.mOutputMissCount ≠ B := fun full => by
    have passed := (inv.all_missed full c).2
    rw [here] at passed
    cases passed
  have counts : (missCounted results
      (update s.stage c (.counted (s.mOutputMissCount + 1)))).card = _ :=
    missCounted_update_new results result (by rw [here, Passed]) rfl
  refine ⟨inv.fits_update result, inv.bound_update (Nat.le_succ _) ?_, ?_, ?_, ?_, ?_, ?_⟩
  · intro k next
    cases next
    exact le_refl _
  · rw [counts, ← inv.count]
  · intro d value
    obtain ⟨isMatch, finished⟩ := inv.ok d value
    have apart : d ≠ c := fun same => by rw [same, here] at finished; cases finished
    exact ⟨isMatch, (update_of_ne apart _ _).trans finished⟩
  · exact fun fault value => absurd (inv.error fault value).2.1 notFull
  · intro d isMatch done
    have apart : d ≠ c := fun same => by rw [same, result] at isMatch; cases isMatch
    simp only [update_of_ne apart] at done
    exact inv.matches_done d isMatch done
  · intro full _
    refine ⟨c, (update_self _ _ _).trans (congrArg _ full), fun d last => ?_⟩
    by_contra apart
    simp only [update_of_ne apart] at last
    exact notFull (inv.full_of_counted last)

theorem Inv.counting {c : Fin B} {k : Nat} (here : s.stage c = .counted k) (earlier : k ≠ B) :
    Inv results { s with stage := update s.stage c .finished } := by
  have result : results c = false := by
    have fit := inv.fits c
    rwa [here] at fit
  have notLast : s.stage c ≠ .counted B := fun last => by
    rw [here] at last
    exact earlier (PromiseStage.counted.inj last)
  have same : ∀ d, update s.stage c .finished d = .counted B ↔ s.stage d = .counted B := by
    intro d
    by_cases self : d = c
    · subst self
      rw [update_self]
      exact ⟨nofun, fun last => absurd last notLast⟩
    · rw [update_of_ne self]
  refine ⟨inv.fits_update trivial, inv.bound_update (le_refl _) nofun, ?_, ?_, ?_, ?_, ?_⟩
  · rw [missCounted_update_same results (.inr (by rw [here, Passed, Passed]))]
    exact inv.count
  · intro d value
    obtain ⟨isMatch, finished⟩ := inv.ok d value
    have apart : d ≠ c := fun same => by rw [same, here] at finished; cases finished
    exact ⟨isMatch, (update_of_ne apart _ _).trans finished⟩
  · intro fault value
    obtain ⟨text, full, none⟩ := inv.error fault value
    exact ⟨text, full, fun d last => none d ((same d).mp last)⟩
  · intro d isMatch done
    have apart : d ≠ c := fun same => by rw [same, result] at isMatch; cases isMatch
    simp only [update_of_ne apart] at done
    exact inv.matches_done d isMatch done
  · intro full none
    obtain ⟨last, there, unique⟩ := inv.misses_done full none
    exact ⟨last, (same last).mpr there, fun d there => unique d ((same d).mp there)⟩

theorem Inv.last {c : Fin B} (here : s.stage c = .counted B) :
    s.mOutputProm = none ∧ Inv results (s.fulfil c (.error noItems)) := by
  have full := inv.full_of_counted here
  have empty : s.mOutputProm = none := by
    cases prom : s.mOutputProm with
    | none => rfl
    | some value =>
      cases value with
      | error fault => exact absurd here ((inv.error fault prom).2.2 c)
      | ok d =>
        have isMatch := (inv.ok d prom).1
        rw [(inv.all_missed full d).1] at isMatch
        cases isMatch
  obtain ⟨only, _, unique⟩ := inv.misses_done full empty
  refine ⟨empty, ?_⟩
  rw [fulfil_none c _ empty]
  refine ⟨inv.fits_update trivial, inv.bound_update (le_refl _) nofun, ?_, nofun, ?_, nofun, nofun⟩
  · rw [missCounted_update_same results (.inr (by rw [here, Passed, Passed]))]
    exact inv.count
  · intro fault value
    cases value
    refine ⟨rfl, full, fun d there => ?_⟩
    by_cases self : d = c
    · subst self
      simp only [update_self] at there
      cases there
    · simp only [update_of_ne self] at there
      exact self ((unique d there).trans (unique c here).symm)

theorem Inv.step {c : Fin B} {t : PromiseState B}
    (taken : PromiseState.step results s c = some t) : Inv results t := by
  cases here : s.stage c with
  | opening =>
    simp only [PromiseState.step, here] at taken
    cases taken
    exact inv.opening here
  | matched =>
    simp only [PromiseState.step, here] at taken
    cases taken
    exact inv.matching here
  | missed =>
    simp only [PromiseState.step, here] at taken
    cases taken
    exact inv.missing here
  | counted k =>
    simp only [PromiseState.step, here] at taken
    by_cases last : k = B
    · rw [if_pos last] at taken
      cases taken
      exact (inv.last (last ▸ here)).2
    · rw [if_neg last] at taken
      cases taken
      exact inv.counting here last
  | finished =>
    simp only [PromiseState.step, here] at taken
    cases taken
  | futureError =>
    simp only [PromiseState.step, here] at taken
    cases taken

end

theorem step_kept {c : Fin B} {t : PromiseState B} (full : s.mOutputProm ≠ none)
    (taken : step results s c = some t) : t.mOutputProm = s.mOutputProm := by
  cases here : s.stage c with
  | matched =>
    simp only [step, here, fulfil_some c _ full] at taken
    cases taken
    rfl
  | counted k =>
    simp only [step, here, fulfil_some c _ full] at taken
    split at taken <;> cases taken <;> rfl
  | _ =>
    simp only [step, here] at taken
    cases taken <;> rfl

theorem Inv.fulfilled (inv : Inv results s) (stuck : ∀ c, PromiseState.step results s c = none) :
    s.mOutputProm ≠ none := by
  have passed : ∀ c, Passed (s.stage c) = true ∧ ∀ k, s.stage c ≠ .counted k := by
    intro c
    have still := stuck c
    cases here : s.stage c with
    | finished => exact ⟨rfl, nofun⟩
    | futureError => exact ⟨rfl, nofun⟩
    | counted k =>
      simp only [PromiseState.step, here] at still
      split at still <;> cases still
    | _ =>
      simp only [PromiseState.step, here] at still
      cases still
  by_cases some : ∃ c, results c = true
  · obtain ⟨c, isMatch⟩ := some
    exact inv.matches_done c isMatch (passed c).1
  · have all : missCounted results s.stage = Finset.univ := by
      unfold missCounted
      apply Finset.filter_true_of_mem
      intro c _
      exact ⟨Bool.eq_false_iff.mpr fun isMatch => some ⟨c, isMatch⟩, (passed c).1⟩
    have full := inv.count
    rw [all, Finset.card_univ, Fintype.card_fin] at full
    intro none
    obtain ⟨c, last, _⟩ := inv.misses_done full none
    exact (passed c).2 B last

def stepsLeft : PromiseStage → Nat
  | .opening => 3
  | .matched => 1
  | .missed => 2
  | .counted _ => 1
  | .finished => 0
  | .futureError => 0

def totalLeft (s : PromiseState B) : Nat := ∑ c, stepsLeft (s.stage c)

theorem totalLeft_update {t : PromiseState B} {c : Fin B} {next : PromiseStage}
    (moved : t.stage = update s.stage c next) (less : stepsLeft next < stepsLeft (s.stage c)) :
    t.totalLeft < s.totalLeft := by
  unfold totalLeft
  rw [moved]
  apply Finset.sum_lt_sum
  · intro d _
    by_cases self : d = c
    · subst self
      rw [update_self]
      exact Nat.le_of_lt less
    · rw [update_of_ne self]
  · exact ⟨c, Finset.mem_univ c, by rw [update_self]; exact less⟩

theorem fulfil_stage (s : PromiseState B) (c : Fin B) (value : Except Fault (Fin B)) :
    ∃ next, stepsLeft next = 0 ∧ (s.fulfil c value).stage = update s.stage c next := by
  by_cases empty : s.mOutputProm = none
  · rw [fulfil_none c value empty]
    exact ⟨_, rfl, rfl⟩
  · rw [fulfil_some c value empty]
    exact ⟨_, rfl, rfl⟩

theorem step_decreases (s : PromiseState B) (c : Fin B) (t : PromiseState B)
    (taken : step results s c = some t) : t.totalLeft < s.totalLeft := by
  cases here : s.stage c with
  | opening =>
    simp only [step, here] at taken
    cases taken
    refine totalLeft_update rfl ?_
    rw [here]
    cases results c <;> decide
  | matched =>
    simp only [step, here] at taken
    cases taken
    obtain ⟨next, last, moved⟩ := s.fulfil_stage c (.ok c)
    exact totalLeft_update moved (by rw [last, here]; decide)
  | missed =>
    simp only [step, here] at taken
    cases taken
    exact totalLeft_update rfl (by rw [here]; exact Nat.lt_succ_self 1)
  | counted k =>
    simp only [step, here] at taken
    split at taken
    · cases taken
      obtain ⟨next, last, moved⟩ := s.fulfil_stage c (.error noItems)
      exact totalLeft_update moved (by rw [last, here]; exact Nat.zero_lt_one)
    · cases taken
      exact totalLeft_update rfl (by rw [here]; exact Nat.zero_lt_one)
  | finished =>
    simp only [step, here] at taken
    cases taken
  | futureError =>
    simp only [step, here] at taken
    cases taken

/-- Two threads with a match: the second one is lost. -/
theorem second_match_lost {c d : Fin B} (isMatch : results c = true) (other : results d = true)
    (apart : d ≠ c) : ∃ s, exec (step results) initial [c, d, c, d] = some s ∧
      s.stage d = .futureError := by
  have both : update (update (fun _ => PromiseStage.opening) c .matched) d .matched c =
      .matched := by
    rw [update_of_ne (Ne.symm apart), update_self]
  have first : step results (initial : PromiseState B) c =
      some ⟨update (fun _ => .opening) c .matched, 0, none⟩ := by
    simp [step, initial, isMatch]
  have second : step results ⟨update (fun _ => .opening) c .matched, 0, none⟩ d =
      some ⟨update (update (fun _ => .opening) c .matched) d .matched, 0, none⟩ := by
    simp [step, other, update_of_ne apart]
  have third : step results
      ⟨update (update (fun _ => .opening) c .matched) d .matched, 0, none⟩ c =
      some ⟨update (update (update (fun _ => .opening) c .matched) d .matched) c .finished, 0,
        some (.ok c)⟩ := by
    simp only [step, both]
    rfl
  have fourth : step results
      ⟨update (update (update (fun _ => .opening) c .matched) d .matched) c .finished, 0,
        some (.ok c)⟩ d =
      some ⟨update (update (update (update (fun _ => .opening) c .matched) d .matched) c
        .finished) d .futureError, 0, some (.ok c)⟩ := by
    simp only [step, update_of_ne apart, update_self]
    rfl
  have run : exec (step results) initial [c, d, c, d] =
      some ⟨update (update (update (update (fun _ => .opening) c .matched) d .matched) c
        .finished) d .futureError, 0, some (.ok c)⟩ := by
    simp only [exec, first, second, third, fourth, Option.bind_some]
  refine ⟨_, run, ?_⟩
  simp only [update_self]

/-- The promise is fulfilled once in every interleaving exactly when at most one thread has a
    match. -/
theorem fulfilled_once_iff (some : 0 < B) (results : Fin B → Bool) :
    FulfilledOnce results ↔ ∀ c d, results c = true → results d = true → d = c := by
  have invariant : ∀ s, Along (step results) (fun _ _ => True) initial s → Inv results s :=
    fun s run => run.invariant (fun _ _ _ inv _ taken => inv.step taken) (inv_initial some)
  constructor
  · intro once c d isMatch other
    by_contra apart
    obtain ⟨s, run, lost⟩ := second_match_lost isMatch other apart
    exact once.safe s (.of_exec (fun _ _ _ => trivial) run) d lost
  · intro unique
    refine ⟨⟨totalLeft (initial : PromiseState B), fun cs s run => ?_⟩, ?_, ?_, ?_, ?_, ?_⟩
    · have := exec_length_le step_decreases run
      omega
    · intro s run c lost
      have fit := (invariant s run).fits c
      rw [lost] at fit
      obtain ⟨isMatch, d, apart, other⟩ := fit
      exact apart (unique c d isMatch other)
    · exact fun s _ full c t taken => step_kept full taken
    · exact fun s run c value => ((invariant s run).ok c value).1
    · intro s run fault value
      obtain ⟨text, full, _⟩ := (invariant s run).error fault value
      exact ⟨text, fun c => ((invariant s run).all_missed full c).1⟩
    · exact fun s run stuck => (invariant s run).fulfilled stuck

/-- One match among three threads. -/
theorem fulfilled_once_one_match : FulfilledOnce (B := 3) fun c => c == 1 :=
  (fulfilled_once_iff (by decide) _).mpr (by decide)

/-- Two matches: the thread that comes second throws `future_error`. -/
theorem not_fulfilled_once_two_matches : ¬FulfilledOnce (B := 2) fun _ => true := by
  intro once
  obtain ⟨s, run, lost⟩ := @second_match_lost 2 (fun _ => true) 0 1 rfl rfl (by decide)
  exact once.safe s (.of_exec (fun _ _ _ => trivial) run) 1 lost

end PromiseState

end BatchDualEx
