import Mathlib.Data.List.Basic
import Mathlib.Data.List.Forall2
import Mathlib.Data.List.GetD

/- Runs of programs that may fail: what is known once a sequence of steps has succeeded. -/
namespace Result

variable {ε α β : Type}

theorem ok_bind (a : α) (second : α → Except ε β) : (Except.ok a >>= second) = second a := rfl

theorem bind_ok {first : Except ε α} {second : α → Except ε β} {b : β}
    (run : first >>= second = .ok b) : ∃ a, first = .ok a ∧ second a = .ok b := by
  rcases first with fault | a
  · cases run
  · exact ⟨a, rfl, run⟩

theorem mapM_ok {f : α → Except ε β} {as : List α} {bs : List β} (run : as.mapM f = .ok bs) :
    List.Forall₂ (fun a b => f a = .ok b) as bs := by
  induction as generalizing bs with
  | nil =>
    cases run
    exact .nil
  | cons a as ih =>
    rw [List.mapM_cons] at run
    obtain ⟨b, first, run⟩ := bind_ok run
    obtain ⟨rest, later, run⟩ := bind_ok run
    cases run
    exact .cons first (ih later)

theorem mapM_ok_getD {f : α → Except ε β} {as : List α} {bs : List β}
    (run : as.mapM f = .ok bs) (a : α) (b : β) :
    bs.length = as.length ∧ ∀ i < as.length, f (as.getD i a) = .ok (bs.getD i b) := by
  have steps := mapM_ok run
  refine ⟨steps.length_eq.symm, fun i below => ?_⟩
  rw [List.getD_eq_getElem _ _ below,
    List.getD_eq_getElem _ _ (by rw [← steps.length_eq]; exact below)]
  exact steps.get _ _

theorem mapM_total {f : α → Except ε β} {as : List α} (each : ∀ a ∈ as, ∃ b, f a = .ok b) :
    ∃ bs, as.mapM f = .ok bs := by
  induction as with
  | nil => exact ⟨[], rfl⟩
  | cons a as ih =>
    obtain ⟨b, first⟩ := each a List.mem_cons_self
    obtain ⟨bs, rest⟩ := ih fun a later => each a (List.mem_cons_of_mem _ later)
    refine ⟨b :: bs, ?_⟩
    rw [List.mapM_cons, first, rest]
    rfl

theorem mapM_eq_map {f : α → Except ε β} {g : α → β} {as : List α}
    (each : ∀ a ∈ as, f a = .ok (g a)) : as.mapM f = .ok (as.map g) := by
  induction as with
  | nil => rfl
  | cons a as ih =>
    rw [List.mapM_cons, each a List.mem_cons_self,
      ih fun b later => each b (List.mem_cons_of_mem _ later)]
    rfl

theorem mapM_range_total {f : Nat → Except ε β} {n : Nat} (each : ∀ i < n, ∃ b, f i = .ok b) :
    ∃ bs, (List.range n).mapM f = .ok bs :=
  mapM_total fun i inside => each i (List.mem_range.mp inside)

theorem mapM_range_ok {f : Nat → Except ε β} {n : Nat} {bs : List β}
    (run : (List.range n).mapM f = .ok bs) (b : β) :
    bs.length = n ∧ ∀ i < n, f i = .ok (bs.getD i b) := by
  obtain ⟨sized, each⟩ := mapM_ok_getD run 0 b
  rw [List.length_range] at sized each
  refine ⟨sized, fun i below => ?_⟩
  have step := each i below
  rwa [List.getD_eq_getElem _ _ (by simpa using below), List.getElem_range] at step

theorem mapM_range_spec {P : Nat → β → Prop} {f : Nat → Except ε β} {n : Nat}
    (each : ∀ i < n, ∃ b, f i = .ok b ∧ P i b) :
    ∃ bs, (List.range n).mapM f = .ok bs ∧ bs.length = n ∧ ∀ i b, bs[i]? = some b → P i b := by
  obtain ⟨bs, run⟩ := mapM_range_total fun i below => (each i below).imp fun _ spec => spec.1
  have steps := mapM_ok run
  have sized : bs.length = n := by rw [← steps.length_eq, List.length_range]
  refine ⟨bs, run, sized, fun i b entry => ?_⟩
  obtain ⟨inside, rfl⟩ := List.getElem?_eq_some_iff.mp entry
  obtain ⟨b', done, spec⟩ := each i (sized ▸ inside)
  have step := steps.get (by rw [List.length_range]; omega) inside
  rw [List.get_eq_getElem, List.get_eq_getElem, List.getElem_range, done] at step
  cases step
  exact spec

theorem bind_ok_iff {first : Except ε α} {second : α → Except ε β} {b : β} :
    first >>= second = .ok b ↔ ∃ a, first = .ok a ∧ second a = .ok b := by
  constructor
  · exact bind_ok
  · rintro ⟨a, rfl, run⟩
    exact run

theorem ok_of_toBool {run : Except ε α} (passes : run.toBool = true) : ∃ a, run = .ok a := by
  cases run with
  | error fault => cases passes
  | ok a => exact ⟨a, rfl⟩

/-- A check whose failure ends the program. -/
def require (condition : Prop) [Decidable condition] (fault : ε) : Except ε Unit :=
  if condition then .ok () else .error fault

theorem require_ok_iff {condition : Prop} [Decidable condition] {fault : ε} :
    require condition fault = .ok () ↔ condition := by
  unfold require
  by_cases holds : condition <;> simp [holds]

theorem then_ok_iff {first : Except ε Unit} {second : Except ε β} {b : β} :
    (first >>= fun _ => second) = .ok b ↔ first = .ok () ∧ second = .ok b := by
  rw [bind_ok_iff]
  constructor
  · rintro ⟨⟨⟩, run⟩
    exact run
  · exact fun run => ⟨(), run⟩

theorem forM_ok_iff {f : α → Except ε Unit} {as : List α} :
    as.forM f = .ok () ↔ ∀ a ∈ as, f a = .ok () := by
  induction as with
  | nil => exact ⟨fun _ _ listed => absurd listed List.not_mem_nil, fun _ => rfl⟩
  | cons a as ih =>
    change (f a >>= fun _ => as.forM f) = _ ↔ _
    rw [List.forall_mem_cons, ← ih, then_ok_iff]

/-- What every step of a successful loop establishes between its states holds of the loop. -/
theorem foldlM_ok {R : β → β → Prop} (refl : ∀ b, R b b)
    (trans : ∀ {a b c}, R a b → R b c → R a c) {f : β → α → Except ε β} {as : List α}
    (step : ∀ a ∈ as, ∀ b c, f b a = .ok c → R b c) {b c : β} (run : as.foldlM f b = .ok c) :
    R b c := by
  induction as generalizing b with
  | nil =>
    cases run
    exact refl _
  | cons a as ih =>
    rw [List.foldlM_cons] at run
    obtain ⟨next, first, run⟩ := bind_ok run
    exact trans (step a List.mem_cons_self _ _ first)
      (ih (fun a later => step a (List.mem_cons_of_mem _ later)) run)

theorem foldlM_total (Inv : List α → β → Prop) {f : β → α → Except ε β}
    (step : ∀ a as b, Inv (a :: as) b → ∃ c, f b a = .ok c ∧ Inv as c) {as : List α} {b : β}
    (start : Inv as b) : ∃ c, as.foldlM f b = .ok c ∧ Inv [] c := by
  induction as generalizing b with
  | nil => exact ⟨b, rfl, start⟩
  | cons a as ih =>
    obtain ⟨next, first, inv⟩ := step a as b start
    obtain ⟨c, rest, finished⟩ := ih inv
    refine ⟨c, ?_, finished⟩
    rw [List.foldlM_cons, first]
    exact rest

theorem foldlM_range_ok (Inv : Nat → β → Prop) {f : β → Nat → Except ε β} {n : Nat}
    (step : ∀ k < n, ∀ b c, Inv k b → f b k = .ok c → Inv (k + 1) c) {b c : β}
    (run : (List.range n).foldlM f b = .ok c) (start : Inv 0 b) : Inv n c := by
  induction n generalizing c with
  | zero =>
    cases run
    exact start
  | succ n ih =>
    rw [List.range_succ, List.foldlM_append] at run
    obtain ⟨a, before, last⟩ := bind_ok run
    rw [List.foldlM_cons] at last
    obtain ⟨c', last, done⟩ := bind_ok last
    cases done
    exact step n (Nat.lt_succ_self n) a _
      (ih (fun k below => step k (Nat.lt_succ_of_lt below)) before) last

theorem foldlM_range_total (Inv : Nat → β → Prop) {f : β → Nat → Except ε β} {n : Nat}
    (step : ∀ k < n, ∀ b, Inv k b → ∃ c, f b k = .ok c ∧ Inv (k + 1) c) {b : β}
    (start : Inv 0 b) : ∃ c, (List.range n).foldlM f b = .ok c ∧ Inv n c := by
  induction n with
  | zero => exact ⟨b, rfl, start⟩
  | succ n ih =>
    obtain ⟨a, before, inv⟩ := ih fun k below => step k (Nat.lt_succ_of_lt below)
    obtain ⟨c, last, inv⟩ := step n (Nat.lt_succ_self n) a inv
    refine ⟨c, ?_, inv⟩
    rw [List.range_succ, List.foldlM_append, before]
    change (f a n >>= pure) = _
    rw [last]
    rfl

theorem foldlM_range_eq {f : β → Nat → Except ε β} (state : Nat → β) {n : Nat}
    (step : ∀ k < n, f (state k) k = .ok (state (k + 1))) :
    (List.range n).foldlM f (state 0) = .ok (state n) := by
  induction n with
  | zero => rfl
  | succ n ih =>
    have before := ih fun k below => step k (Nat.lt_succ_of_lt below)
    rw [List.range_succ, List.foldlM_append, before]
    change (f (state n) n >>= pure) = _
    rw [step n (Nat.lt_succ_self n)]
    rfl

theorem foldlM_done_ok (Inv : List α → β → Prop) {f : β → α → Except ε β} {as done : List α}
    (step : ∀ done a b c, Inv done b → f b a = .ok c → Inv (a :: done) c) {b c : β}
    (run : as.foldlM f b = .ok c) (start : Inv done b) : Inv (as.reverse ++ done) c := by
  induction as generalizing b done with
  | nil =>
    cases run
    exact start
  | cons a as ih =>
    rw [List.foldlM_cons] at run
    obtain ⟨next, first, run⟩ := bind_ok run
    have later := ih run (step done a b next start first)
    rwa [List.reverse_cons, List.append_assoc]

/-- A loop over distinct items with an invariant that knows which are done. -/
theorem foldlM_nodup_ok (Inv : List α → β → Prop) {f : β → α → Except ε β} {as done : List α}
    (step : ∀ done, ∀ a ∈ as, ∀ b c, a ∉ done → Inv done b → f b a = .ok c → Inv (a :: done) c)
    (nodup : as.Nodup) (fresh : ∀ a ∈ as, a ∉ done) {b c : β} (run : as.foldlM f b = .ok c)
    (start : Inv done b) : Inv (as.reverse ++ done) c := by
  induction as generalizing b done with
  | nil =>
    cases run
    exact start
  | cons a as ih =>
    rw [List.foldlM_cons] at run
    obtain ⟨next, first, run⟩ := bind_ok run
    obtain ⟨new, nodup⟩ := List.nodup_cons.mp nodup
    have later : Inv (as.reverse ++ a :: done) c := by
      refine ih (fun done a listed => step done a (List.mem_cons_of_mem _ listed)) nodup ?_ run
        (step done a List.mem_cons_self _ _ (fresh a List.mem_cons_self) start first)
      intro a' listed earlier
      rcases List.mem_cons.mp earlier with rfl | old
      · exact new listed
      · exact fresh a' (List.mem_cons_of_mem _ listed) old
    rw [List.reverse_cons, List.append_assoc]
    exact later

end Result
