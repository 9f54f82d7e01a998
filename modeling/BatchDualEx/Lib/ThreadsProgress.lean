import BatchDualEx.Lib.Threads
import Mathlib.Data.Nat.Find

/- Threads that never throw and whose programs can be scheduled: every operation that is waited
   for has a lower rank. Then a state in which some thread has not ended has an enabled step. -/
namespace Threads

open Function

set_option linter.unusedSectionVars false

variable {T Prom Counter Chan Label : Type} [DecidableEq T] [DecidableEq Prom]
  [DecidableEq Counter] [DecidableEq Chan]

/-- No exceptions, and the report in block `k` of `t` is a match if `hit t k` is. -/
def Calm (hit : T → Nat → Bool) (s : State T Prom Counter Chan) : Action T Chan → Prop
  | .throw _ => False
  | .finish t isMatch => isMatch = hit t (s.block t)
  | _ => True

/-- `t` has read the value `n` of `c` and not yet finished the increment. -/
def System.Holds (sys : System T Prom Counter Chan Label) (s : State T Prom Counter Chan) (t : T)
    (c : Counter) (n : Nat) : Prop :=
  sys.position s t = some (.bump c) ∧ s.mid t = some n

section
variable {sys : System T Prom Counter Chan Label} {hit : T → Nat → Bool}
  {s u : State T Prom Counter Chan} {t : T}

theorem System.position_next {t' : T} (other : t' ≠ t) :
    sys.position { s with block := update s.block t (s.block t + 1) } t' = sys.position s t' :=
  System.position_congr (update_of_ne other _ _) rfl

theorem System.position_advance {v : State T Prom Counter Chan} {t' : T} (other : t' ≠ t)
    (same : SameThreads s v) : sys.position (v.advance t) t' = sys.position s t' := by
  refine System.position_congr (congrFun same.block t') ?_
  simp only [State.advance, same.done, update_of_ne other]

theorem System.Holds.before {a : Action T Chan} {c : Counter} {n : Nat} (shape : Shape sys s)
    (calm : Calm hit s a) (taken : sys.step s a = some u) (holds : sys.Holds u t c n) :
    sys.Holds s t c n ∨ (a = .start t ∧ n = s.count c ∧ u.count c = s.count c + 1) := by
  obtain ⟨here, read⟩ := holds
  cases a with
  | start t' =>
    obtain ⟨_, _, ⟨d, at_bump, rfl⟩ | ⟨d, p, at_wait, rfl⟩⟩ := System.start_inv taken
    · rcases eq_or_ne t t' with rfl | other
      · have same : Op.bump d = Op.bump c := Option.some.inj (at_bump.symm.trans here)
        cases same
        simp only [update_self, Option.some.injEq] at read
        exact .inr ⟨rfl, read.symm, update_self _ _ _⟩
      · simp only [update_of_ne other] at read
        exact .inl ⟨here, read⟩
    · rcases eq_or_ne t t' with rfl | other
      · cases at_wait.symm.trans here
      · simp only [update_of_ne other] at read
        exact .inl ⟨here, read⟩
  | finish t' isMatch =>
    obtain ⟨_, o, v, _, effect, rfl⟩ := System.finish_inv taken
    have same := (System.effect_inv effect).same
    rcases eq_or_ne t t' with rfl | other
    · simp [State.advance] at read
    · rw [System.position_advance other same] at here
      simp only [State.advance, same.mid, update_of_ne other] at read
      exact .inl ⟨here, read⟩
  | next t' =>
    obtain ⟨_, below, whole, rfl⟩ := System.next_inv taken
    rcases eq_or_ne t t' with rfl | other
    · have unread := shape.halfway t (by
        unfold System.position
        rw [if_pos below, whole, List.getElem?_length])
      cases unread.symm.trans read
    · rw [System.position_next other] at here
      exact .inl ⟨here, read⟩
  | throw t' => exact calm.elim
  | deliver ch =>
    obtain ⟨_, rfl⟩ := System.deliver_inv taken
    exact .inl ⟨here, read⟩

theorem System.Holds.after {a : Action T Chan} {c : Counter} {n : Nat} (calm : Calm hit s a)
    (taken : sys.step s a = some u) (holds : sys.Holds s t c n) :
    sys.Holds u t c n ∨ ∃ isMatch, a = .finish t isMatch := by
  obtain ⟨here, read⟩ := holds
  cases a with
  | start t' =>
    obtain ⟨_, unread, ⟨d, at_bump, rfl⟩ | ⟨d, p, at_wait, rfl⟩⟩ := System.start_inv taken
    all_goals
      rcases eq_or_ne t t' with rfl | other
      · cases unread.symm.trans read
      · exact .inl ⟨here, (update_of_ne other _ _).trans read⟩
  | finish t' isMatch =>
    obtain ⟨_, o, v, _, effect, rfl⟩ := System.finish_inv taken
    have same := (System.effect_inv effect).same
    rcases eq_or_ne t t' with rfl | other
    · exact .inr ⟨isMatch, rfl⟩
    · refine .inl ⟨(System.position_advance other same).trans here, ?_⟩
      simp only [State.advance, same.mid, update_of_ne other]
      exact read
  | next t' =>
    obtain ⟨_, below, whole, rfl⟩ := System.next_inv taken
    rcases eq_or_ne t t' with rfl | other
    · have ends : sys.position s t = none := by
        unfold System.position
        rw [if_pos below, whole, List.getElem?_length]
      cases ends.symm.trans here
    · exact .inl ⟨(System.position_next other).trans here, read⟩
  | throw t' => exact calm.elim
  | deliver ch =>
    obtain ⟨_, rfl⟩ := System.deliver_inv taken
    exact .inl ⟨here, read⟩

theorem System.fulfilled_before {a : Action T Chan} {p : Prom} (taken : sys.step s a = some u)
    (after : u.fulfilled p = true) : s.fulfilled p = true ∨ ∃ t isMatch, a = .finish t isMatch ∧
      (sys.position s t = some (.set p) ∨
        (∃ c n, sys.Holds s t c n ∧ sys.ticket c n = some p) ∨
        ∃ c, sys.position s t = some (.report p c) ∧
          (isMatch = true ∨ s.count c + 1 = sys.total c)) := by
  cases a with
  | start t =>
    obtain ⟨_, _, ⟨c, _, rfl⟩ | ⟨c, q, _, rfl⟩⟩ := System.start_inv taken
    all_goals exact .inl after
  | finish t isMatch =>
    obtain ⟨_, o, v, here, effect, rfl⟩ := System.finish_inv taken
    rcases (System.effect_inv effect).fulfils after with
      before | rfl | ⟨c, n, rfl, read, mine⟩ | ⟨c, rfl⟩
    · exact .inl before
    · exact .inr ⟨t, isMatch, rfl, .inl here⟩
    · exact .inr ⟨t, isMatch, rfl, .inr (.inl ⟨c, n, ⟨here, read⟩, mine⟩)⟩
    · by_cases counted : isMatch = true ∨ s.count c + 1 = sys.total c
      · exact .inr ⟨t, isMatch, rfl, .inr (.inr ⟨c, here, counted⟩)⟩
      · -- a miss that is not the last one
        obtain ⟨miss, notLast⟩ := not_or.mp counted
        simp only [System.effect, if_neg miss, update_self, if_neg notLast,
          Option.some.injEq] at effect
        subst effect
        exact .inl after
  | next t =>
    obtain ⟨_, _, _, rfl⟩ := System.next_inv taken
    exact .inl after
  | throw t =>
    obtain ⟨_, _, ⟨_, rfl⟩ | ⟨_, rfl⟩⟩ := System.throw_inv taken
    all_goals exact .inl after
  | deliver ch =>
    obtain ⟨_, rfl⟩ := System.deliver_inv taken
    exact .inl after

theorem Effect.count_cases {o : Op Prom Counter Chan Label} (effect : Effect sys s t o u)
    (c : Counter) : u.count c = s.count c ∨
      (u.count c = s.count c + 1 ∧ ∃ p, o = .report p c) := by
  cases effect with
  | @lastMiss p d | @miss p d =>
    rcases eq_or_ne c d with rfl | other
    · exact .inr ⟨update_self _ _ _, p, rfl⟩
    · exact .inl (update_of_ne other _ _)
  | _ => exact .inl rfl

theorem System.count_before {a : Action T Chan} (taken : sys.step s a = some u) (c : Counter) :
    u.count c = s.count c ∨ (u.count c = s.count c + 1 ∧
      ((∃ t, sys.Holds u t c (s.count c)) ∨
        ∃ t p, a = .finish t false ∧ sys.position s t = some (.report p c))) := by
  cases a with
  | start t =>
    obtain ⟨_, _, ⟨d, here, rfl⟩ | ⟨d, q, _, rfl⟩⟩ := System.start_inv taken
    · rcases eq_or_ne c d with rfl | other
      · exact .inr ⟨update_self _ _ _, .inl ⟨t, here, update_self _ _ _⟩⟩
      · exact .inl (update_of_ne other _ _)
    · exact .inl rfl
  | finish t isMatch =>
    obtain ⟨_, o, v, here, effect, rfl⟩ := System.finish_inv taken
    rcases (System.effect_inv effect).count_cases c with same | ⟨more, p, rfl⟩
    · exact .inl same
    · cases isMatch with
      | true =>
        obtain ⟨_, rfl⟩ := State.fulfil_inv effect
        exact .inl rfl
      | false => exact .inr ⟨more, .inr ⟨t, p, rfl, here⟩⟩
  | next t =>
    obtain ⟨_, _, _, rfl⟩ := System.next_inv taken
    exact .inl rfl
  | throw t =>
    obtain ⟨_, _, ⟨_, rfl⟩ | ⟨_, rfl⟩⟩ := System.throw_inv taken
    all_goals exact .inl rfl
  | deliver ch =>
    obtain ⟨_, rfl⟩ := System.deliver_inv taken
    exact .inl rfl

theorem System.did_step {a : Action T Chan} (taken : sys.step s a = some u) {k : Nat}
    {o : Op Prom Counter Chan Label} (did : sys.Did u t k o) : sys.Did s t k o ∨
      ∃ isMatch, a = .finish t isMatch ∧ k = s.block t ∧ sys.position s t = some o := by
  cases a with
  | start t' =>
    obtain ⟨_, _, ⟨d, _, rfl⟩ | ⟨d, q, _, rfl⟩⟩ := System.start_inv taken
    all_goals exact .inl did
  | finish t' isMatch =>
    obtain ⟨_, o', v, here, effect, rfl⟩ := System.finish_inv taken
    rcases (System.did_advance here (System.effect_inv effect).same t k o).mp did with
      before | ⟨rfl, same, rfl⟩
    · exact .inl before
    · exact .inr ⟨isMatch, rfl, same, here⟩
  | next t' =>
    obtain ⟨_, _, _, rfl⟩ := System.next_inv taken
    exact .inl did
  | throw t' =>
    obtain ⟨_, _, ⟨_, rfl⟩ | ⟨_, rfl⟩⟩ := System.throw_inv taken
    all_goals exact .inl did
  | deliver ch =>
    obtain ⟨_, rfl⟩ := System.deliver_inv taken
    exact .inl did

theorem System.finish_fulfils {isMatch : Bool} {p : Prom}
    (taken : sys.step s (.finish t isMatch) = some u)
    (fulfils : sys.position s t = some (.set p) ∨
      (∃ c n, sys.Holds s t c n ∧ sys.ticket c n = some p) ∨
      ∃ c, sys.position s t = some (.report p c) ∧ isMatch = true) : u.fulfilled p = true := by
  obtain ⟨_, o, v, here, effect, rfl⟩ := System.finish_inv taken
  have set {w : State T Prom Counter Chan} (effect : s.fulfil p = some w) :
      (w.advance t).fulfilled p = true := by
    obtain ⟨_, rfl⟩ := State.fulfil_inv effect
    exact update_self _ _ _
  rcases fulfils with at_set | ⟨c, n, ⟨at_bump, read⟩, mine⟩ | ⟨c, at_report, rfl⟩
  · cases here.symm.trans at_set
    exact set effect
  · cases here.symm.trans at_bump
    simp only [System.effect, read, mine] at effect
    exact set effect
  · cases here.symm.trans at_report
    exact set effect

end

structure ReportedBy (sys : System T Prom Counter Chan Label) (c : Counter) (parties : Finset T)
    (home : Nat) : Prop where
  reports : ∀ {t k p}, .report p c ∈ sys.prog t k → t ∈ parties ∧ k = home
  single : ∀ {t k p p'}, .report p c ∈ sys.prog t k → .report p' c ∈ sys.prog t k → p = p'
  noBump : ∀ {t k}, .bump c ∉ sys.prog t k

/-- No promise has two sources, and one of the reports is a match. -/
structure Discipline (sys : System T Prom Counter Chan Label) (hit : T → Nat → Bool) : Prop where
  internal : ∀ ch, sys.external ch = false
  nodup : ∀ t k, (sys.prog t k).Nodup
  setOnce : ∀ {p t k t' k'}, .set p ∈ sys.prog t k → .set p ∈ sys.prog t' k' → t = t' ∧ k = k'
  setNoTicket : ∀ {p t k c n}, .set p ∈ sys.prog t k → sys.ticket c n ≠ some p
  setNoReport : ∀ {p t k c t' k'}, .set p ∈ sys.prog t k → .report p c ∉ sys.prog t' k'
  ticketOnce : ∀ {p c n c' n'}, sys.ticket c n = some p → sys.ticket c' n' = some p →
    c = c' ∧ n = n'
  ticketNoReport : ∀ {p c n c' t k}, sys.ticket c n = some p → .report p c' ∉ sys.prog t k
  reportNoTicket : ∀ {p c t k n}, .report p c ∈ sys.prog t k → sys.ticket c n = none
  hitOnce : ∀ {p c t k c' t' k'}, .report p c ∈ sys.prog t k → hit t k = true →
    .report p c' ∈ sys.prog t' k' → hit t' k' = true → t = t' ∧ k = k' ∧ c = c'
  matched : ∀ {p c t k}, .report p c ∈ sys.prog t k → k < sys.blocks t → ∃ parties home,
    ReportedBy sys c parties home ∧ (∃ t₀ ∈ parties, hit t₀ home = true) ∧
      parties.card ≤ sys.total c

/-- Every value that has been read is held by one thread until its promise is fulfilled. -/
structure Tickets (sys : System T Prom Counter Chan Label) (s : State T Prom Counter Chan) :
    Prop where
  holders : ∀ c n t t', sys.Holds s t c n → sys.Holds s t' c n → t = t'
  held : ∀ c n t p, sys.Holds s t c n → sys.ticket c n = some p → s.fulfilled p = false
  given : ∀ c n p, n < s.count c → sys.ticket c n = some p →
    s.fulfilled p = true ∨ ∃ t, sys.Holds s t c n

section
variable {sys : System T Prom Counter Chan Label} {hit : T → Nat → Bool}
  {s u : State T Prom Counter Chan} {t : T}

theorem Tickets.initial : Tickets sys State.initial where
  holders := fun _ _ _ _ holds => nomatch holds.2
  held := fun _ _ _ _ holds => nomatch holds.2
  given := fun _ _ _ given => absurd given (Nat.not_lt_zero _)

theorem Tickets.step {a : Action T Chan} (discipline : Discipline sys hit) (safe : Safe sys s)
    (tickets : Tickets sys s) (calm : Calm hit s a) (taken : sys.step s a = some u) :
    Tickets sys u := by
  have before {t : T} {c : Counter} {n : Nat} (holds : sys.Holds u t c n) :=
    holds.before safe.toShape calm taken
  have read {t : T} {c : Counter} {n : Nat} (holds : sys.Holds s t c n) : n < s.count c :=
    safe.read t c n holds.1 holds.2
  refine ⟨?_, ?_, ?_⟩
  · intro c n t t' holds holds'
    rcases before holds with old | ⟨rfl, rfl, _⟩
    · rcases before holds' with old' | ⟨_, rfl, _⟩
      · exact tickets.holders c n t t' old old'
      · exact absurd (read old) (Nat.lt_irrefl _)
    · rcases before holds' with old' | ⟨same, _, _⟩
      · exact absurd (read old') (Nat.lt_irrefl _)
      · exact Action.start.inj same
  · intro c n t p holds mine
    by_contra fulfilled
    rcases System.fulfilled_before taken (by simpa using fulfilled) with
      earlier | ⟨t', isMatch, rfl, here | ⟨c', n', old', mine'⟩ | ⟨c', here, _⟩⟩
    · rcases before holds with old | ⟨_, rfl, _⟩
      · exact absurd earlier (by simp [tickets.held c n t p old mine])
      · cases safe.origin p earlier with
        | set t' k did => exact discipline.setNoTicket (System.did_mem did) mine
        | report t' k c' did => exact discipline.ticketNoReport mine (System.did_mem did)
        | ticket c' n' given mine' =>
          obtain ⟨rfl, rfl⟩ := discipline.ticketOnce mine mine'
          exact absurd given (Nat.lt_irrefl _)
    · exact discipline.setNoTicket (System.position_mem here) mine
    · obtain ⟨rfl, rfl⟩ := discipline.ticketOnce mine mine'
      rcases before holds with old | ⟨start, _⟩
      · cases tickets.holders c n t t' old old'
        obtain ⟨_, o, v, _, _, rfl⟩ := System.finish_inv taken
        have unread : (v.advance t).mid t = none := update_self _ _ _
        cases unread.symm.trans holds.2
      · cases start
    · exact discipline.ticketNoReport mine (System.position_mem here)
  · intro c n p given mine
    rcases Nat.lt_or_ge n (s.count c) with earlier | new
    · rcases tickets.given c n p earlier mine with fulfilled | ⟨t, holds⟩
      · exact .inl ((System.step_grows taken).fulfilled p fulfilled)
      · rcases holds.after calm taken with still | ⟨isMatch, rfl⟩
        · exact .inr ⟨t, still⟩
        · exact .inl (System.finish_fulfils taken (.inr (.inl ⟨c, n, holds, mine⟩)))
    · rcases System.count_before taken c with same | ⟨more, ⟨t, holds⟩ | ⟨t, q, _, here⟩⟩
      · omega
      · have last : s.count c = n := by omega
        rw [last] at holds
        exact .inr ⟨t, holds⟩
      · cases (discipline.reportNoTicket (System.position_mem here)).symm.trans mine

/-- What holds along calm runs besides: nobody is lost, and what should be fulfilled is. -/
structure Quiet (sys : System T Prom Counter Chan Label) (hit : T → Nat → Bool)
    (s : State T Prom Counter Chan) : Prop where
  alive : ∀ t, s.lost t = false
  earlier : ∀ t k, k < s.block t → s.done t k = (sys.prog t k).length
  short : ∀ t k, s.done t k ≤ (sys.prog t k).length
  arrived : ∀ ch, s.arrived ch ≤ s.sent ch
  didSet : ∀ t k p, sys.Did s t k (.set p) → s.fulfilled p = true
  didHit : ∀ t k p c, sys.Did s t k (.report p c) → hit t k = true → s.fulfilled p = true

theorem Quiet.initial : Quiet sys hit State.initial where
  alive := fun _ => rfl
  earlier := fun _ _ earlier => absurd earlier (Nat.not_lt_zero _)
  short := fun _ _ => Nat.zero_le _
  arrived := fun _ => Nat.le_refl _
  didSet := fun _ _ _ did => absurd did (by simp [System.Did, State.initial])
  didHit := fun _ _ _ _ did => absurd did (by simp [System.Did, State.initial])

theorem Effect.sent_le {o : Op Prom Counter Chan Label} (effect : Effect sys s t o u)
    (ch : Chan) : u.arrived ch = s.arrived ch ∧ s.sent ch ≤ u.sent ch := by
  cases effect with
  | @send d =>
    refine ⟨rfl, ?_⟩
    rcases eq_or_ne ch d with rfl | other
    · exact (Nat.le_succ _).trans (update_self ch (s.sent ch + 1) s.sent).ge
    · exact (update_of_ne other _ _).ge
  | _ => exact ⟨rfl, Nat.le_refl _⟩

theorem Quiet.step {a : Action T Chan} (internal : ∀ ch, sys.external ch = false)
    (quiet : Quiet sys hit s) (calm : Calm hit s a) (taken : sys.step s a = some u) :
    Quiet sys hit u := by
  have grows := System.step_grows taken
  have didSet (t : T) (k : Nat) (p : Prom) (did : sys.Did u t k (.set p)) :
      u.fulfilled p = true := by
    rcases System.did_step taken did with before | ⟨isMatch, rfl, _, here⟩
    · exact grows.fulfilled p (quiet.didSet t k p before)
    · exact System.finish_fulfils taken (.inl here)
  have didHit (t : T) (k : Nat) (p : Prom) (c : Counter) (did : sys.Did u t k (.report p c))
      (matching : hit t k = true) : u.fulfilled p = true := by
    rcases System.did_step taken did with before | ⟨isMatch, rfl, rfl, here⟩
    · exact grows.fulfilled p (quiet.didHit t k p c before matching)
    · exact System.finish_fulfils taken (.inr (.inr ⟨c, here, calm.trans matching⟩))
  cases a with
  | start t =>
    obtain ⟨_, _, ⟨c, _, rfl⟩ | ⟨c, p, _, rfl⟩⟩ := System.start_inv taken
    all_goals exact ⟨quiet.alive, quiet.earlier, quiet.short, quiet.arrived, didSet, didHit⟩
  | finish t isMatch =>
    obtain ⟨_, o, v, here, effect, rfl⟩ := System.finish_inv taken
    have effect := System.effect_inv effect
    have same := effect.same
    refine ⟨?_, ?_, ?_, ?_, didSet, didHit⟩
    · exact fun t' => (congrFun same.lost t').trans (quiet.alive t')
    · intro t' k earlier
      simp only [State.advance, same.block, same.done] at earlier ⊢
      rcases eq_or_ne t' t with rfl | other
      · rw [update_self, update_of_ne (by omega)]
        exact quiet.earlier t' k earlier
      · rw [update_of_ne other]
        exact quiet.earlier t' k earlier
    · intro t' k
      simp only [State.advance, same.block, same.done]
      rcases eq_or_ne t' t with rfl | other
      · rcases eq_or_ne k (s.block t') with rfl | otherBlock
        · obtain ⟨inside, _⟩ := List.getElem?_eq_some_iff.mp (System.position_some here).2
          rw [update_self, update_self]
          exact inside
        · rw [update_self, update_of_ne otherBlock]
          exact quiet.short t' k
      · rw [update_of_ne other]
        exact quiet.short t' k
    · intro ch
      obtain ⟨arrived, sent⟩ := effect.sent_le ch
      exact (arrived.le.trans (quiet.arrived ch)).trans sent
  | next t =>
    obtain ⟨_, _, whole, rfl⟩ := System.next_inv taken
    refine ⟨quiet.alive, ?_, quiet.short, quiet.arrived, didSet, didHit⟩
    intro t' k earlier
    rcases eq_or_ne t' t with rfl | other
    · simp only [update_self] at earlier
      rcases Nat.lt_succ_iff_lt_or_eq.mp earlier with before | rfl
      · exact quiet.earlier t' k before
      · exact whole
    · simp only [update_of_ne other] at earlier
      exact quiet.earlier t' k earlier
  | throw t => exact calm.elim
  | deliver ch =>
    obtain ⟨ready, rfl⟩ := System.deliver_inv taken
    refine ⟨quiet.alive, quiet.earlier, quiet.short, ?_, didSet, didHit⟩
    intro ch'
    rcases eq_or_ne ch' ch with rfl | other
    · simp only [update_self]
      exact ready.resolve_left (by simp [internal])
    · simp only [update_of_ne other]
      exact quiet.arrived ch'

open Classical in
def Missed (sys : System T Prom Counter Chan Label) (hit : T → Nat → Bool)
    (s : State T Prom Counter Chan) : Prop :=
  ∀ c parties home, ReportedBy sys c parties home → s.count c ≤ (parties.filter fun t =>
    (∃ p, sys.Did s t home (.report p c)) ∧ hit t home = false).card

theorem Missed.step {a : Action T Chan} (discipline : Discipline sys hit)
    (missed : Missed sys hit s) (calm : Calm hit s a) (taken : sys.step s a = some u) :
    Missed sys hit u := by
  classical
  intro c parties home reported
  have before := missed c parties home reported
  have grows := (System.step_grows taken).did
  have subset : (parties.filter fun t => (∃ p, sys.Did s t home (.report p c)) ∧
      hit t home = false) ⊆ parties.filter fun t => (∃ p, sys.Did u t home (.report p c)) ∧
      hit t home = false := by
    intro t member
    obtain ⟨party, ⟨p, did⟩, miss⟩ := Finset.mem_filter.mp member
    exact Finset.mem_filter.mpr ⟨party, ⟨p, grows t home _ did⟩, miss⟩
  rcases System.count_before taken c with same | ⟨more, ⟨t, here, _⟩ | ⟨t, p, rfl, here⟩⟩
  · rw [same]
    exact before.trans (Finset.card_le_card subset)
  · exact absurd (System.position_mem here) reported.noBump
  · obtain ⟨party, rfl⟩ := reported.reports (System.position_mem here)
    have miss : hit t (s.block t) = false := (Eq.symm calm)
    rw [more]
    refine (Nat.succ_le_succ before).trans (Finset.card_lt_card
      (Finset.ssubset_iff_of_subset subset |>.mpr ⟨t, ?_, ?_⟩))
    · obtain ⟨_, o, v, at_report, effect, rfl⟩ := System.finish_inv taken
      cases here.symm.trans at_report
      exact Finset.mem_filter.mpr ⟨party, ⟨p, (System.did_advance here
        (System.effect_inv effect).same _ _ _).mpr (.inr ⟨rfl, rfl, rfl⟩)⟩, miss⟩
    · intro already
      obtain ⟨_, ⟨p', did⟩, _⟩ := Finset.mem_filter.mp already
      cases reported.single (System.position_mem here) (System.did_mem did)
      exact System.not_did_here (discipline.nodup t _) here did

/-- A report that is no match is not the last miss. -/
theorem Missed.not_last {p : Prom} {c : Counter} (discipline : Discipline sys hit)
    (missed : Missed sys hit s) (here : sys.position s t = some (.report p c))
    (miss : hit t (s.block t) = false) : s.count c + 1 ≠ sys.total c := by
  classical
  have member := System.position_mem here
  obtain ⟨parties, home, reported, ⟨t₀, party₀, hit₀⟩, small⟩ :=
    discipline.matched member (System.position_some here).1
  obtain ⟨party, rfl⟩ := reported.reports member
  have different : t₀ ≠ t := by
    rintro rfl
    cases hit₀.symm.trans miss
  have counted := missed c parties _ reported
  have subset : (parties.filter fun t' => (∃ p, sys.Did s t' (s.block t) (.report p c)) ∧
      hit t' (s.block t) = false) ⊆ (parties.erase t).erase t₀ := by
    intro t' member'
    obtain ⟨party', ⟨p', did⟩, miss'⟩ := Finset.mem_filter.mp member'
    refine Finset.mem_erase.mpr ⟨?_, Finset.mem_erase.mpr ⟨?_, party'⟩⟩
    · rintro rfl
      cases hit₀.symm.trans miss'
    · rintro rfl
      cases reported.single member (System.did_mem did)
      exact System.not_did_here (discipline.nodup t' _) here did
  have bound := counted.trans (Finset.card_le_card subset)
  have inner := Finset.card_erase_lt_of_mem (Finset.mem_erase.mpr ⟨different, party₀⟩)
  have outer := Finset.card_erase_lt_of_mem party
  omega

def Reported (sys : System T Prom Counter Chan Label) (hit : T → Nat → Bool)
    (s : State T Prom Counter Chan) : Prop :=
  ∀ t k p c, s.fulfilled p = true → .report p c ∈ sys.prog t k →
    ∃ t' k' c', sys.Did s t' k' (.report p c') ∧ hit t' k' = true

theorem Reported.step {a : Action T Chan} (discipline : Discipline sys hit)
    (missed : Missed sys hit s) (reported : Reported sys hit s) (calm : Calm hit s a)
    (taken : sys.step s a = some u) : Reported sys hit u := by
  intro t k p c after member
  rcases System.fulfilled_before taken after with
    earlier | ⟨t', isMatch, rfl, here | ⟨c', n', _, mine⟩ | ⟨c', here, complete⟩⟩
  · obtain ⟨t', k', c', did, matching⟩ := reported t k p c earlier member
    exact ⟨t', k', c', (System.step_grows taken).did _ _ _ did, matching⟩
  · exact absurd member (discipline.setNoReport (System.position_mem here))
  · exact absurd member (discipline.ticketNoReport mine)
  · have matching : hit t' (s.block t') = true := by
      rcases complete with rfl | last
      · exact Eq.symm calm
      · by_contra miss
        exact missed.not_last discipline here (by simpa using miss) last
    obtain ⟨_, o, v, at_report, effect, rfl⟩ := System.finish_inv taken
    cases here.symm.trans at_report
    exact ⟨t', _, c', (System.did_advance here (System.effect_inv effect).same _ _ _).mpr
      (.inr ⟨rfl, rfl, rfl⟩), matching⟩

end

def Op.sendOn (ch : Chan) : Op Prom Counter Chan Label → Option Label
  | .send ch' what => if ch' = ch then some what else none
  | _ => none

def Op.recvOn (ch : Chan) : Op Prom Counter Chan Label → Option Label
  | .recv ch' what => if ch' = ch then some what else none
  | _ => none

def System.ran (sys : System T Prom Counter Chan Label) (s : State T Prom Counter Chan) (t : T) :
    List (Op Prom Counter Chan Label) :=
  (List.range (s.block t)).flatMap (sys.prog t) ++
    (sys.prog t (s.block t)).take (s.done t (s.block t))

/-- A channel between two threads that agree on its messages. -/
structure Joins (sys : System T Prom Counter Chan Label) (ch : Chan) (sender receiver : T) :
    Prop where
  sends : ∀ {t k what}, .send ch what ∈ sys.prog t k → t = sender
  recvs : ∀ {t k what}, .recv ch what ∈ sys.prog t k → t = receiver
  agree : ∀ k, (sys.prog receiver k).filterMap (Op.recvOn ch) =
    (sys.prog sender k).filterMap (Op.sendOn ch)
  blocks : sys.blocks sender = sys.blocks receiver

section
variable {sys : System T Prom Counter Chan Label} {hit : T → Nat → Bool}
  {s u : State T Prom Counter Chan} {t : T} {ch : Chan}

theorem Op.sendOn_eq {o : Op Prom Counter Chan Label} {what : Label} :
    o.sendOn ch = some what ↔ o = .send ch what := by
  cases o <;> simp [Op.sendOn]

theorem Op.recvOn_eq {o : Op Prom Counter Chan Label} {what : Label} :
    o.recvOn ch = some what ↔ o = .recv ch what := by
  cases o <;> simp [Op.recvOn]

theorem Effect.channels {o : Op Prom Counter Chan Label} (effect : Effect sys s t o u)
    (ch : Chan) : u.sent ch = s.sent ch + (o.sendOn ch).toList.length ∧
      u.taken ch = s.taken ch + (o.recvOn ch).toList.length := by
  cases effect with
  | @send d | @recv d =>
    rcases eq_or_ne d ch with rfl | other
    · simp [Op.sendOn, Op.recvOn]
    · simp [Op.sendOn, Op.recvOn, other, update_of_ne other.symm]
  | _ => exact ⟨rfl, rfl⟩

theorem System.ran_advance {v : State T Prom Counter Chan} {o : Op Prom Counter Chan Label}
    (here : sys.position s t = some o) (same : SameThreads s v) (t' : T) :
    sys.ran (v.advance t) t' = if t' = t then sys.ran s t ++ [o] else sys.ran s t' := by
  obtain ⟨_, at_done⟩ := System.position_some here
  unfold System.ran
  simp only [State.advance, same.block, same.done]
  split
  case isTrue eq =>
    subst eq
    rw [update_self, update_self, List.take_add_one, at_done, List.append_assoc]
    rfl
  case isFalse other => rw [update_of_ne other]

theorem System.ran_congr (block : u.block = s.block) (done : u.done = s.done) (t' : T) :
    sys.ran u t' = sys.ran s t' := by
  unfold System.ran
  rw [block, done]

theorem System.ran_next (shape : Shape sys s)
    (whole : s.done t (s.block t) = (sys.prog t (s.block t)).length) (t' : T) :
    sys.ran { s with block := update s.block t (s.block t + 1) } t' = sys.ran s t' := by
  unfold System.ran
  rcases eq_or_ne t' t with rfl | other
  · simp only [update_self]
    rw [shape.fresh t' _ (Nat.lt_succ_self _), List.take_zero, whole, List.take_length,
      List.range_succ, List.flatMap_append]
    simp
  · simp only [update_of_ne other]

def Carried (sys : System T Prom Counter Chan Label) (s : State T Prom Counter Chan) : Prop :=
  ∀ ch sender receiver, Joins sys ch sender receiver →
    s.sent ch = ((sys.ran s sender).filterMap (Op.sendOn ch)).length ∧
    s.taken ch = ((sys.ran s receiver).filterMap (Op.recvOn ch)).length

theorem Carried.initial : Carried sys State.initial := by
  intro ch sender receiver _
  simp [System.ran, State.initial]

theorem Carried.congr (carried : Carried sys s) (sent : u.sent = s.sent)
    (taken : u.taken = s.taken) (ran : ∀ t, sys.ran u t = sys.ran s t) : Carried sys u := by
  intro ch sender receiver joins
  rw [sent, taken, ran, ran]
  exact carried ch sender receiver joins

theorem Carried.step {a : Action T Chan} (carried : Carried sys s) (shape : Shape sys s)
    (calm : Calm hit s a) (taken : sys.step s a = some u) : Carried sys u := by
  cases a with
  | start t =>
    obtain ⟨_, _, ⟨c, _, rfl⟩ | ⟨c, p, _, rfl⟩⟩ := System.start_inv taken
    all_goals exact carried.congr rfl rfl (System.ran_congr rfl rfl)
  | finish t isMatch =>
    obtain ⟨_, o, v, here, effect, rfl⟩ := System.finish_inv taken
    have effect := System.effect_inv effect
    intro ch sender receiver joins
    obtain ⟨sent, took⟩ := carried ch sender receiver joins
    obtain ⟨sent', took'⟩ := effect.channels ch
    constructor
    · refine sent'.trans ?_
      rw [System.ran_advance here effect.same, sent]
      split
      case isTrue eq =>
        subst eq
        rw [List.filterMap_append, List.length_append, List.filterMap_cons, List.filterMap_nil]
        cases o.sendOn ch <;> rfl
      case isFalse other =>
        cases sends : o.sendOn ch with
        | none => rfl
        | some what =>
          cases Op.sendOn_eq.mp sends
          exact absurd (joins.sends (System.position_mem here)).symm other
    · refine took'.trans ?_
      rw [System.ran_advance here effect.same, took]
      split
      case isTrue eq =>
        subst eq
        rw [List.filterMap_append, List.length_append, List.filterMap_cons, List.filterMap_nil]
        cases o.recvOn ch <;> rfl
      case isFalse other =>
        cases recvs : o.recvOn ch with
        | none => rfl
        | some what =>
          cases Op.recvOn_eq.mp recvs
          exact absurd (joins.recvs (System.position_mem here)).symm other
  | next t =>
    obtain ⟨_, _, whole, rfl⟩ := System.next_inv taken
    exact carried.congr rfl rfl (System.ran_next shape whole)
  | throw t => exact calm.elim
  | deliver ch =>
    obtain ⟨_, rfl⟩ := System.deliver_inv taken
    exact carried.congr rfl rfl (System.ran_congr rfl rfl)

/-- A message taken at its own place of a list without repetitions is not there before. -/
theorem length_lt_of_prefix {α : Type} {all first second : List α} {x : α} (nodup : all.Nodup)
    (next : first ++ [x] <+: all) (other : second <+: all) (member : x ∈ second) :
    first.length < second.length := by
  by_contra short
  have inside : second <+: first :=
    List.prefix_of_prefix_length_le other ((List.prefix_append first [x]).trans next) (by omega)
  have apart := nodup.sublist next.sublist
  rw [List.nodup_append] at apart
  exact apart.2.2 x (inside.subset member) x (List.mem_singleton_self x) rfl

theorem Quiet.ran_block (quiet : Quiet sys hit s) {k : Nat} (reached : k ≤ s.block t) :
    (List.range k).flatMap (sys.prog t) ++ (sys.prog t k).take (s.done t k) <+: sys.ran s t := by
  rcases reached.lt_or_eq with earlier | rfl
  · rw [quiet.earlier t k earlier, List.take_length]
    refine List.IsPrefix.trans ?_ (List.prefix_append _ _)
    obtain ⟨more, same⟩ := Nat.exists_eq_add_of_le (Nat.succ_le_of_lt earlier)
    rw [same, List.range_add, List.flatMap_append]
    refine List.IsPrefix.trans ?_ (List.prefix_append _ _)
    rw [List.range_succ, List.flatMap_append]
    simp
  · exact List.prefix_refl _

theorem Joins.before_eq {sender receiver : T} (joins : Joins sys ch sender receiver) (k : Nat) :
    ((List.range k).flatMap (sys.prog receiver)).filterMap (Op.recvOn ch) =
      ((List.range k).flatMap (sys.prog sender)).filterMap (Op.sendOn ch) := by
  induction k with
  | zero => rfl
  | succ k ih => simp [List.range_succ, ih, joins.agree k]

/-- A message that has been sent can be taken. -/
theorem Carried.sent_before {sender : T} {what : Label} (carried : Carried sys s)
    (quiet : Quiet sys hit s) (shape : Shape sys s) (nodup : ∀ t k, (sys.prog t k).Nodup)
    (joins : Joins sys ch sender t) (here : sys.position s t = some (.recv ch what))
    (did : sys.Did s sender (s.block t) (.send ch what)) : s.taken ch < s.sent ch := by
  obtain ⟨sent, took⟩ := carried ch sender t joins
  obtain ⟨_, at_done⟩ := System.position_some here
  have distinct : ((sys.prog sender (s.block t)).filterMap (Op.sendOn ch)).Nodup := by
    refine (nodup sender (s.block t)).filterMap fun o o' what' sends sends' => ?_
    rw [Option.mem_def, Op.sendOn_eq] at sends sends'
    rw [sends, sends']
  have next : ((sys.prog t (s.block t)).take (s.done t (s.block t))).filterMap (Op.recvOn ch) ++
      [what] <+: (sys.prog sender (s.block t)).filterMap (Op.sendOn ch) := by
    rw [← joins.agree]
    have step := List.take_prefix (s.done t (s.block t) + 1) (sys.prog t (s.block t))
    rw [List.take_add_one, at_done] at step
    simpa [Op.recvOn] using step.filterMap (Op.recvOn ch)
  have sends := (List.take_prefix (s.done sender (s.block t))
    (sys.prog sender (s.block t))).filterMap (Op.sendOn ch)
  have lower := length_lt_of_prefix distinct next sends
    (List.mem_filterMap.mpr ⟨_, did, Op.sendOn_eq.mpr rfl⟩)
  have reached := ((quiet.ran_block (shape.did_block did)).filterMap (Op.sendOn ch)).length_le
  rw [List.filterMap_append, List.length_append] at reached
  rw [sent]
  refine Nat.lt_of_lt_of_le ?_ reached
  rw [took, ← joins.before_eq]
  unfold System.ran
  rw [List.filterMap_append, List.length_append]
  omega

end

inductive Supply (sys : System T Prom Counter Chan Label) (hit : T → Nat → Bool)
    (rank : T → Nat → Op Prom Counter Chan Label → Nat) (p : Prom) (r : Nat) : Prop
  | set (t k) (member : .set p ∈ sys.prog t k) (inside : k < sys.blocks t)
    (lower : rank t k (.set p) < r)
  | report (t k c) (member : .report p c ∈ sys.prog t k) (matching : hit t k = true)
    (inside : k < sys.blocks t) (lower : rank t k (.report p c) < r)
  | ticket (c n parties home) (mine : sys.ticket c n = some p)
    (bumped : BumpedBy sys c parties home) (enough : n < parties.card)
    (lower : ∀ t ∈ parties, home < sys.blocks t ∧ rank t home (.bump c) < r)

/-- Blocks come in order, and the operations of one block in the order of their stages. -/
def rankBy (stage : T → Op Prom Counter Chan Label → Nat) (height : Nat) (t : T) (k : Nat)
    (o : Op Prom Counter Chan Label) : Nat := k * height + stage t o

/-- A thread only waits for what has a lower rank. -/
structure Schedule (sys : System T Prom Counter Chan Label) (hit : T → Nat → Bool)
    (stage : T → Op Prom Counter Chan Label → Nat) (height : Nat) : Prop
    extends Discipline sys hit where
  below : ∀ {t k o}, o ∈ sys.prog t k → stage t o < height
  ordered : ∀ t k, (sys.prog t k).Pairwise fun o o' => stage t o ≤ stage t o'
  waits : ∀ {t k p}, .wait p ∈ sys.prog t k → k < sys.blocks t →
    Supply sys hit (rankBy stage height) p (rankBy stage height t k (.wait p))
  waitAlls : ∀ {t k c p}, .waitAll c p ∈ sys.prog t k → k < sys.blocks t →
    Supply sys hit (rankBy stage height) p (rankBy stage height t k (.waitAll c p))
  joins : ∀ {t k ch what}, .recv ch what ∈ sys.prog t k → ∃ sender, Joins sys ch sender t ∧
    stage sender (.send ch what) < stage t (.recv ch what)

structure Steady (sys : System T Prom Counter Chan Label) (hit : T → Nat → Bool)
    (s : State T Prom Counter Chan) : Prop extends Safe sys s, Quiet sys hit s, Tickets sys s where
  missed : Missed sys hit s
  reported : Reported sys hit s
  carried : Carried sys s
  counted : ∀ c parties home, BumpedBy sys c parties home → Counted sys c parties home s

section
variable {sys : System T Prom Counter Chan Label} {hit : T → Nat → Bool}
  {stage : T → Op Prom Counter Chan Label → Nat} {height : Nat}
  {s u : State T Prom Counter Chan} {t : T}

theorem Steady.along (discipline : Discipline sys hit)
    (run : Run.Along sys.step (Calm hit) State.initial s) : Steady sys hit s := by
  have counted (c : Counter) (parties : Finset T) (home : Nat)
      (bumped : BumpedBy sys c parties home) : Counted sys c parties home s :=
    Counted.along bumped run
  have preserved (v : State T Prom Counter Chan) (a : Action T Chan)
      (w : State T Prom Counter Chan) (before : Safe sys v ∧ Quiet sys hit v ∧ Tickets sys v ∧
        Missed sys hit v ∧ Reported sys hit v ∧ Carried sys v)
      (calm : Calm hit v a) (taken : sys.step v a = some w) : Safe sys w ∧ Quiet sys hit w ∧
        Tickets sys w ∧ Missed sys hit w ∧ Reported sys hit w ∧ Carried sys w := by
    obtain ⟨safe, quiet, tickets, missed, reported, carried⟩ := before
    exact ⟨safe.step taken, quiet.step discipline.internal calm taken,
      tickets.step discipline safe calm taken, missed.step discipline calm taken,
      reported.step discipline missed calm taken, carried.step safe.toShape calm taken⟩
  obtain ⟨safe, quiet, tickets, missed, reported, carried⟩ := run.invariant preserved
    ⟨.initial, .initial, .initial, fun _ _ _ _ => Nat.zero_le _, nofun, .initial⟩
  exact ⟨safe, quiet, tickets, missed, reported, carried, counted⟩

theorem Steady.unset {p : Prom} (steady : Steady sys hit s) (discipline : Discipline sys hit)
    (here : sys.position s t = some (.set p)) : s.fulfilled p = false := by
  by_contra fulfilled
  have member := System.position_mem here
  cases steady.origin p (by simpa using fulfilled) with
  | set t' k did =>
    obtain ⟨rfl, rfl⟩ := discipline.setOnce member (System.did_mem did)
    exact System.not_did_here (discipline.nodup t _) here did
  | ticket c n _ mine => exact discipline.setNoTicket member mine
  | report t' k c did => exact discipline.setNoReport member (System.did_mem did)

theorem Steady.unreported {p : Prom} {c : Counter} (steady : Steady sys hit s)
    (discipline : Discipline sys hit) (here : sys.position s t = some (.report p c))
    (matching : hit t (s.block t) = true) : s.fulfilled p = false := by
  by_contra fulfilled
  have member := System.position_mem here
  obtain ⟨t', k', c', did, matching'⟩ :=
    steady.reported t _ p c (by simpa using fulfilled) member
  obtain ⟨rfl, rfl, rfl⟩ := discipline.hitOnce member matching (System.did_mem did) matching'
  exact System.not_did_here (discipline.nodup t _) here did

/-- What a thread has still to execute has at least the rank of the place where it stands. -/
theorem Steady.pending {k : Nat} {o : Op Prom Counter Chan Label} (steady : Steady sys hit s)
    (schedule : Schedule sys hit stage height) (member : o ∈ sys.prog t k)
    (inside : k < sys.blocks t) (missing : ¬ sys.Did s t k o)
    (stands : s.block t < sys.blocks t → ∃ o', sys.position s t = some o') :
    ∃ o', sys.position s t = some o' ∧
      rankBy stage height t (s.block t) o' ≤ rankBy stage height t k o := by
  have reached : s.block t ≤ k := by
    by_contra later
    unfold System.Did at missing
    rw [steady.earlier t k (by omega), List.take_length] at missing
    exact missing member
  obtain ⟨o', here⟩ := stands (Nat.lt_of_le_of_lt reached inside)
  refine ⟨o', here, ?_⟩
  unfold rankBy
  rcases reached.lt_or_eq with earlier | rfl
  · have low := schedule.below (System.position_mem here)
    calc s.block t * height + stage t o' ≤ (s.block t + 1) * height := by
          rw [Nat.succ_mul]
          omega
      _ ≤ k * height := Nat.mul_le_mul_right height earlier
      _ ≤ k * height + stage t o := Nat.le_add_right _ _
  · refine Nat.add_le_add_left ?_ _
    obtain ⟨j, short, rfl⟩ := List.getElem_of_mem member
    obtain ⟨below, rfl⟩ := List.getElem?_eq_some_iff.mp (System.position_some here).2
    have behind : s.done t (s.block t) ≤ j := by
      by_contra done
      exact missing (List.mem_take_iff_getElem.mpr ⟨j, by omega, rfl⟩)
    rcases behind.lt_or_eq with before | rfl
    · exact List.pairwise_iff_getElem.mp (schedule.ordered t _) _ _ below short before
    · exact Nat.le_refl _

/-- A promise that is not fulfilled waits for a thread of lower rank. -/
theorem Steady.supplied {p : Prom} {r : Nat} (steady : Steady sys hit s)
    (schedule : Schedule sys hit stage height)
    (stands : ∀ t, s.block t < sys.blocks t → ∃ o, sys.position s t = some o)
    (supply : Supply sys hit (rankBy stage height) p r) (unset : s.fulfilled p = false) :
    ∃ t o, sys.position s t = some o ∧ rankBy stage height t (s.block t) o < r := by
  have from_missing {t : T} {k : Nat} {o : Op Prom Counter Chan Label}
      (member : o ∈ sys.prog t k) (inside : k < sys.blocks t)
      (lower : rankBy stage height t k o < r) (missing : ¬ sys.Did s t k o) :
      ∃ t o, sys.position s t = some o ∧ rankBy stage height t (s.block t) o < r := by
    obtain ⟨o', here, low⟩ := steady.pending schedule member inside missing (stands t)
    exact ⟨t, o', here, low.trans_lt lower⟩
  cases supply with
  | set t k member inside lower =>
    refine from_missing member inside lower fun did => ?_
    cases (steady.didSet t k p did).symm.trans unset
  | report t k c member matching inside lower =>
    refine from_missing member inside lower fun did => ?_
    cases (steady.didHit t k p c did matching).symm.trans unset
  | ticket c n parties home mine bumped enough lower =>
    by_cases all : ∀ t ∈ parties, sys.Did s t home (.bump c)
    · classical
      have counted := steady.counted c parties home bumped
      unfold Counted at counted
      rw [Finset.filter_true_of_mem fun t party => .inl (all t party)] at counted
      rcases steady.given c n p (counted ▸ enough) mine with fulfilled | ⟨t, here, _⟩
      · cases fulfilled.symm.trans unset
      · obtain ⟨party, rfl⟩ := (bumped.bumps t _).mp (System.position_mem here)
        exact absurd (all t party) (System.not_did_here (schedule.nodup t _) here)
    · obtain ⟨t, missing⟩ := not_forall.mp all
      obtain ⟨party, missing⟩ := Classical.not_imp.mp missing
      obtain ⟨inside, low⟩ := lower t party
      exact from_missing ((bumped.bumps t home).mpr ⟨party, rfl⟩) inside low missing

def System.Enabled (sys : System T Prom Counter Chan Label) (hit : T → Nat → Bool)
    (s : State T Prom Counter Chan) : Prop :=
  ∃ a u, Calm hit s a ∧ sys.step s a = some u

theorem System.enabled_finish {o : Op Prom Counter Chan Label} {v : State T Prom Counter Chan}
    (alive : s.lost t = false) (here : sys.position s t = some o)
    (effect : sys.effect s t (hit t (s.block t)) o = some v) : sys.Enabled hit s :=
  ⟨.finish t (hit t (s.block t)), v.advance t, rfl, by simp [System.step, alive, here, effect]⟩

theorem Steady.enabled_here {o : Op Prom Counter Chan Label} (steady : Steady sys hit s)
    (schedule : Schedule sys hit stage height) (here : sys.position s t = some o)
    (waits : ∀ p, o = .wait p → s.fulfilled p = true)
    (waitAlls : ∀ c p, o = .waitAll c p → s.fulfilled p = true)
    (recvs : ∀ ch what, o = .recv ch what → s.taken ch < s.sent ch) : sys.Enabled hit s := by
  have alive := steady.alive t
  have deliver (ch : Chan) (waiting : s.arrived ch < s.sent ch) : sys.Enabled hit s :=
    ⟨.deliver ch, _, trivial, if_pos (.inr waiting)⟩
  have fulfil {p : Prom} (unset : s.fulfilled p = false) :
      s.fulfil p = some { s with fulfilled := update s.fulfilled p true } :=
    if_neg (by simp [unset])
  cases o with
  | set p =>
    exact System.enabled_finish alive here (fulfil (steady.unset schedule.toDiscipline here))
  | wait p => exact System.enabled_finish alive here (if_pos (waits p rfl))
  | bump c =>
    cases read : s.mid t with
    | none =>
      exact ⟨.start t, _, trivial, by simp [System.step, alive, read, here, System.begun]; rfl⟩
    | some n =>
      cases mine : sys.ticket c n with
      | none =>
        exact System.enabled_finish (v := s) alive here (by simp [System.effect, read, mine])
      | some p =>
        have unset := steady.held c n t p ⟨here, read⟩ mine
        refine System.enabled_finish alive here (v := { s with
          fulfilled := update s.fulfilled p true }) ?_
        simp only [System.effect, read, mine]
        exact fulfil unset
  | waitAll c p =>
    cases read : s.mid t with
    | none =>
      exact ⟨.start t, _, trivial, by simp [System.step, alive, read, here, System.begun]; rfl⟩
    | some n =>
      exact System.enabled_finish (v := s) alive here
        (by simp [System.effect, read, waitAlls c p rfl])
  | report p c =>
    cases matching : hit t (s.block t) with
    | true =>
      refine System.enabled_finish alive here (v := { s with
        fulfilled := update s.fulfilled p true }) ?_
      simp only [System.effect, matching, if_true]
      exact fulfil (steady.unreported schedule.toDiscipline here matching)
    | false =>
      have notLast := steady.missed.not_last schedule.toDiscipline here matching
      refine System.enabled_finish alive here (v := { s with
        count := update s.count c (s.count c + 1) }) ?_
      simp [System.effect, matching, notLast]
  | send ch what => exact System.enabled_finish alive here rfl
  | flush ch =>
    rcases (steady.arrived ch).lt_or_eq with waiting | all
    · exact deliver ch waiting
    · exact System.enabled_finish alive here (if_pos all)
  | recv ch what =>
    by_cases ready : s.taken ch < s.arrived ch
    · exact System.enabled_finish alive here (if_pos ready)
    · exact deliver ch (by have := recvs ch what rfl; omega)
  | act what => exact System.enabled_finish alive here rfl

/-- As long as a thread has not ended, a calm run can go on. -/
theorem Schedule.progress (schedule : Schedule sys hit stage height)
    (run : Run.Along sys.step (Calm hit) State.initial s)
    (unfinished : s.block t < sys.blocks t) : sys.Enabled hit s := by
  have steady := Steady.along schedule.toDiscipline run
  by_contra stuck
  have stands (t : T) (inside : s.block t < sys.blocks t) : ∃ o, sys.position s t = some o := by
    by_contra ends
    refine stuck ⟨.next t, _, trivial, if_pos ⟨steady.alive t, inside, ?_⟩⟩
    refine Nat.le_antisymm (steady.short t _) ?_
    unfold System.position at ends
    rw [if_pos inside] at ends
    exact List.getElem?_eq_none_iff.mp (Option.eq_none_iff_forall_ne_some.mpr fun o here =>
      ends ⟨o, here⟩)
  -- a thread of the lowest rank
  obtain ⟨t, o, here, lowest⟩ : ∃ t o, sys.position s t = some o ∧
      ∀ t' o', sys.position s t' = some o' →
        rankBy stage height t (s.block t) o ≤ rankBy stage height t' (s.block t') o' := by
    have some_rank : ∃ r t o, sys.position s t = some o ∧
        rankBy stage height t (s.block t) o = r := by
      obtain ⟨o, here⟩ := stands t unfinished
      exact ⟨_, t, o, here, rfl⟩
    classical
    obtain ⟨t, o, here, rank⟩ := Nat.find_spec some_rank
    exact ⟨t, o, here, fun t' o' here' => rank ▸ Nat.find_min' some_rank ⟨t', o', here', rfl⟩⟩
  have inside := (System.position_some here).1
  have supplied {p : Prom} (supply : Supply sys hit (rankBy stage height) p
      (rankBy stage height t (s.block t) o)) : s.fulfilled p = true := by
    by_contra unset
    obtain ⟨t', o', here', lower⟩ :=
      steady.supplied schedule stands supply (by simpa using unset)
    exact absurd (lowest t' o' here') (Nat.not_le_of_lt lower)
  refine stuck (steady.enabled_here schedule here ?_ ?_ ?_)
  · rintro p rfl
    exact supplied (schedule.waits (System.position_mem here) inside)
  · rintro c p rfl
    exact supplied (schedule.waitAlls (System.position_mem here) inside)
  · rintro ch what rfl
    obtain ⟨sender, joins, lower⟩ := schedule.joins (System.position_mem here)
    refine steady.carried.sent_before steady.toQuiet steady.toShape schedule.nodup joins here ?_
    by_contra missing
    have sends : .send ch what ∈ sys.prog sender (s.block t) := by
      have labels := joins.agree (s.block t)
      have taken : what ∈ (sys.prog t (s.block t)).filterMap (Op.recvOn ch) :=
        List.mem_filterMap.mpr ⟨_, System.position_mem here, Op.recvOn_eq.mpr rfl⟩
      rw [labels] at taken
      obtain ⟨o', member, same⟩ := List.mem_filterMap.mp taken
      exact Op.sendOn_eq.mp same ▸ member
    obtain ⟨o', here', low⟩ := steady.pending schedule sends
      (joins.blocks ▸ inside) missing (stands sender)
    have order := lowest sender o' here'
    unfold rankBy at low order
    omega

end

end Threads
