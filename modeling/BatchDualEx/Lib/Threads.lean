import BatchDualEx.Lib.Run
import Mathlib.Data.Finset.Card
import Mathlib.Logic.Function.Basic

/- Threads that run blocks of straight-line code on one-shot promises, atomic counters and FIFO
   channels. A thread runs its blocks in order; an exception ends it, or only its block where the
   caller of the block goes on. What an operation has waited for stays true, so a run is described
   by what each thread has done. -/
namespace Threads

open Function

set_option linter.unusedSectionVars false

/-- The operations of a block. `bump` increments a counter and then fulfils the promise that
    belongs to the value it found, if there is one; `waitAll` reads the counter and waits for the
    promise unless it is complete; `report` fulfils the promise or counts a miss, and the last miss
    fulfils it with an exception; `flush` waits until everything sent has been taken over. -/
inductive Op (Prom Counter Chan Label : Type) where
  | set (p : Prom)
  | wait (p : Prom)
  | bump (c : Counter)
  | waitAll (c : Counter) (p : Prom)
  | report (p : Prom) (c : Counter)
  | send (ch : Chan) (what : Label)
  | flush (ch : Chan)
  | recv (ch : Chan) (what : Label)
  | act (what : Label)
  deriving DecidableEq, Repr

/-- `ticket c n` is the promise that belongs to the value `n` of `c`. An external channel may
    deliver at any time. A thread that resumes goes on with its next block after an exception. -/
structure System (T Prom Counter Chan Label : Type) where
  blocks : T → Nat
  prog : T → Nat → List (Op Prom Counter Chan Label)
  total : Counter → Nat
  ticket : Counter → Nat → Option Prom
  external : Chan → Bool
  resumes : T → Bool

/-- `done t k` counts the operations of block `k` that `t` has executed, and `mid t` is the value
    that the current operation has read in its first half. -/
structure State (T Prom Counter Chan : Type) where
  block : T → Nat
  done : T → Nat → Nat
  mid : T → Option Nat
  lost : T → Bool
  fulfilled : Prom → Bool
  count : Counter → Nat
  sent : Chan → Nat
  arrived : Chan → Nat
  taken : Chan → Nat

/-- `finish t isMatch` completes the current operation; only a `report` looks at `isMatch`. -/
inductive Action (T Chan : Type) where
  | start (t : T)
  | finish (t : T) (isMatch : Bool)
  | next (t : T)
  | throw (t : T)
  | deliver (ch : Chan)
  deriving DecidableEq, Repr

variable {T Prom Counter Chan Label : Type} [DecidableEq T] [DecidableEq Prom]
  [DecidableEq Counter] [DecidableEq Chan]

namespace State

def initial : State T Prom Counter Chan where
  block := fun _ => 0
  done := fun _ _ => 0
  mid := fun _ => none
  lost := fun _ => false
  fulfilled := fun _ => false
  count := fun _ => 0
  sent := fun _ => 0
  arrived := fun _ => 0
  taken := fun _ => 0

/-- A promise that is fulfilled already throws. -/
def fulfil (s : State T Prom Counter Chan) (p : Prom) : Option (State T Prom Counter Chan) :=
  if s.fulfilled p then none else some { s with fulfilled := update s.fulfilled p true }

def advance (s : State T Prom Counter Chan) (t : T) : State T Prom Counter Chan :=
  { s with
    done := update s.done t (update (s.done t) (s.block t) (s.done t (s.block t) + 1))
    mid := update s.mid t none }

end State

namespace System

variable (sys : System T Prom Counter Chan Label)

/-- The operation at which a thread stands, also when it is lost there. -/
def position (s : State T Prom Counter Chan) (t : T) : Option (Op Prom Counter Chan Label) :=
  if s.block t < sys.blocks t then (sys.prog t (s.block t))[s.done t (s.block t)]? else none

def begun (s : State T Prom Counter Chan) (t : T) :
    Op Prom Counter Chan Label → Option (State T Prom Counter Chan)
  | .bump c => some { s with
      count := update s.count c (s.count c + 1)
      mid := update s.mid t (some (s.count c)) }
  | .waitAll c _ => some { s with mid := update s.mid t (some (s.count c)) }
  | _ => none

def effect (s : State T Prom Counter Chan) (t : T) (isMatch : Bool) :
    Op Prom Counter Chan Label → Option (State T Prom Counter Chan)
  | .set p => s.fulfil p
  | .wait p => if s.fulfilled p then some s else none
  | .bump c =>
    match s.mid t with
    | some n =>
      match sys.ticket c n with
      | some p => s.fulfil p
      | none => some s
    | none => none
  | .waitAll c p =>
    match s.mid t with
    | some n => if n = sys.total c ∨ s.fulfilled p then some s else none
    | none => none
  | .report p c =>
    if isMatch then s.fulfil p
    else
      let s := { s with count := update s.count c (s.count c + 1) }
      if s.count c = sys.total c then s.fulfil p else some s
  | .send ch _ => some { s with sent := update s.sent ch (s.sent ch + 1) }
  | .flush ch => if s.arrived ch = s.sent ch then some s else none
  | .recv ch _ =>
    if s.taken ch < s.arrived ch then some { s with taken := update s.taken ch (s.taken ch + 1) }
    else none
  | .act _ => some s

def step (s : State T Prom Counter Chan) :
    Action T Chan → Option (State T Prom Counter Chan)
  | .start t =>
    if s.lost t = false ∧ s.mid t = none then (sys.position s t).bind (begun s t) else none
  | .finish t isMatch =>
    if s.lost t then none
    else (sys.position s t).bind fun o => (sys.effect s t isMatch o).map (·.advance t)
  | .next t =>
    if s.lost t = false ∧ s.block t < sys.blocks t ∧
        s.done t (s.block t) = (sys.prog t (s.block t)).length then
      some { s with block := update s.block t (s.block t + 1) }
    else none
  | .throw t =>
    if s.lost t = false ∧ s.block t < sys.blocks t then
      if sys.resumes t then some { s with
        block := update s.block t (s.block t + 1)
        mid := update s.mid t none }
      else some { s with lost := update s.lost t true }
    else none
  | .deliver ch =>
    if sys.external ch ∨ s.arrived ch < s.sent ch then
      some { s with arrived := update s.arrived ch (s.arrived ch + 1) }
    else none

/-- `t` has executed `o` in its block `k`. -/
def Did (s : State T Prom Counter Chan) (t : T) (k : Nat) (o : Op Prom Counter Chan Label) :
    Prop := o ∈ (sys.prog t k).take (s.done t k)

/-- `t` has incremented `c` in its block `k`, and possibly not finished the operation. -/
def Bumped (s : State T Prom Counter Chan) (t : T) (k : Nat) (c : Counter) : Prop :=
  sys.Did s t k (.bump c) ∨
    (s.block t = k ∧ sys.position s t = some (.bump c) ∧ s.mid t ≠ none)

def Reached (s : State T Prom Counter Chan) (t : T) (k : Nat) (o : Op Prom Counter Chan Label) :
    Prop := sys.Did s t k o ∨ (s.block t = k ∧ sys.position s t = some o)

end System

inductive Effect (sys : System T Prom Counter Chan Label) (s : State T Prom Counter Chan) (t : T) :
    Op Prom Counter Chan Label → State T Prom Counter Chan → Prop
  | set {p} (unset : s.fulfilled p = false) :
    Effect sys s t (.set p) { s with fulfilled := update s.fulfilled p true }
  | wait {p} (ready : s.fulfilled p = true) : Effect sys s t (.wait p) s
  | ticket {c n p} (read : s.mid t = some n) (mine : sys.ticket c n = some p)
      (unset : s.fulfilled p = false) :
    Effect sys s t (.bump c) { s with fulfilled := update s.fulfilled p true }
  | bump {c n} (read : s.mid t = some n) (noTicket : sys.ticket c n = none) :
    Effect sys s t (.bump c) s
  | waitAll {c p n} (read : s.mid t = some n) (ready : n = sys.total c ∨ s.fulfilled p = true) :
    Effect sys s t (.waitAll c p) s
  | isMatch {p c} (unset : s.fulfilled p = false) :
    Effect sys s t (.report p c) { s with fulfilled := update s.fulfilled p true }
  | lastMiss {p c} (last : s.count c + 1 = sys.total c) (unset : s.fulfilled p = false) :
    Effect sys s t (.report p c) { s with
      count := update s.count c (s.count c + 1)
      fulfilled := update s.fulfilled p true }
  | miss {p c} (notLast : s.count c + 1 ≠ sys.total c) :
    Effect sys s t (.report p c) { s with count := update s.count c (s.count c + 1) }
  | send {ch what} :
    Effect sys s t (.send ch what) { s with sent := update s.sent ch (s.sent ch + 1) }
  | flush {ch} (all : s.arrived ch = s.sent ch) : Effect sys s t (.flush ch) s
  | recv {ch what} (ready : s.taken ch < s.arrived ch) :
    Effect sys s t (.recv ch what) { s with taken := update s.taken ch (s.taken ch + 1) }
  | act {what} : Effect sys s t (.act what) s

section
variable {sys : System T Prom Counter Chan Label} {s u : State T Prom Counter Chan} {t : T}

theorem State.fulfil_inv {p : Prom} (taken : s.fulfil p = some u) :
    s.fulfilled p = false ∧ u = { s with fulfilled := update s.fulfilled p true } := by
  unfold State.fulfil at taken
  split at taken
  case isTrue => cases taken
  case isFalse unset => exact ⟨by simpa using unset, (Option.some.inj taken).symm⟩

theorem System.effect_inv {isMatch : Bool} {o : Op Prom Counter Chan Label}
    (taken : sys.effect s t isMatch o = some u) : Effect sys s t o u := by
  cases o with
  | set p =>
    obtain ⟨unset, rfl⟩ := State.fulfil_inv taken
    exact .set unset
  | wait p =>
    obtain ⟨ready, same⟩ := Option.ite_none_right_eq_some.mp taken
    cases same
    exact .wait ready
  | bump c =>
    simp only [System.effect] at taken
    split at taken
    case h_2 => cases taken
    case h_1 n read =>
      split at taken
      case h_1 p mine =>
        obtain ⟨unset, rfl⟩ := State.fulfil_inv taken
        exact .ticket read mine unset
      case h_2 noTicket =>
        cases taken
        exact .bump read noTicket
  | waitAll c p =>
    simp only [System.effect] at taken
    split at taken
    case h_2 => cases taken
    case h_1 n read =>
      obtain ⟨ready, same⟩ := Option.ite_none_right_eq_some.mp taken
      cases same
      exact .waitAll read ready
  | report p c =>
    simp only [System.effect, update_self] at taken
    split at taken
    case isTrue =>
      obtain ⟨unset, rfl⟩ := State.fulfil_inv taken
      exact .isMatch unset
    case isFalse =>
      split at taken
      case isTrue last =>
        obtain ⟨unset, rfl⟩ := State.fulfil_inv taken
        exact .lastMiss last unset
      case isFalse notLast =>
        cases taken
        exact .miss notLast
  | send ch what =>
    cases taken
    exact .send
  | flush ch =>
    obtain ⟨all, same⟩ := Option.ite_none_right_eq_some.mp taken
    cases same
    exact .flush all
  | recv ch what =>
    obtain ⟨ready, same⟩ := Option.ite_none_right_eq_some.mp taken
    cases same
    exact .recv ready
  | act what =>
    cases taken
    exact .act

theorem System.start_inv (taken : sys.step s (.start t) = some u) :
    s.lost t = false ∧ s.mid t = none ∧
      ((∃ c, sys.position s t = some (.bump c) ∧ u = { s with
          count := update s.count c (s.count c + 1)
          mid := update s.mid t (some (s.count c)) }) ∨
        ∃ c p, sys.position s t = some (.waitAll c p) ∧
          u = { s with mid := update s.mid t (some (s.count c)) }) := by
  obtain ⟨⟨alive, unread⟩, taken⟩ := Option.ite_none_right_eq_some.mp taken
  obtain ⟨o, here, taken⟩ := Option.bind_eq_some_iff.mp taken
  refine ⟨alive, unread, ?_⟩
  cases o with
  | bump c =>
    cases taken
    exact .inl ⟨c, here, rfl⟩
  | waitAll c p =>
    cases taken
    exact .inr ⟨c, p, here, rfl⟩
  | _ => cases taken

theorem System.finish_inv {isMatch : Bool} (taken : sys.step s (.finish t isMatch) = some u) :
    s.lost t = false ∧ ∃ o v, sys.position s t = some o ∧ sys.effect s t isMatch o = some v ∧
      u = v.advance t := by
  obtain ⟨alive, taken⟩ := Option.ite_none_left_eq_some.mp taken
  obtain ⟨o, here, taken⟩ := Option.bind_eq_some_iff.mp taken
  obtain ⟨v, effect, rfl⟩ := Option.map_eq_some_iff.mp taken
  exact ⟨by simpa using alive, o, v, here, effect, rfl⟩

theorem System.next_inv (taken : sys.step s (.next t) = some u) :
    s.lost t = false ∧ s.block t < sys.blocks t ∧
      s.done t (s.block t) = (sys.prog t (s.block t)).length ∧
      u = { s with block := update s.block t (s.block t + 1) } := by
  obtain ⟨⟨alive, inside, whole⟩, same⟩ := Option.ite_none_right_eq_some.mp taken
  cases same
  exact ⟨alive, inside, whole, rfl⟩

theorem System.throw_inv (taken : sys.step s (.throw t) = some u) :
    s.lost t = false ∧ s.block t < sys.blocks t ∧
      (sys.resumes t = true ∧ u = { s with
          block := update s.block t (s.block t + 1)
          mid := update s.mid t none } ∨
        sys.resumes t = false ∧ u = { s with lost := update s.lost t true }) := by
  obtain ⟨⟨alive, inside⟩, taken⟩ := Option.ite_none_right_eq_some.mp taken
  refine ⟨alive, inside, ?_⟩
  cases resumes : sys.resumes t with
  | true =>
    rw [resumes] at taken
    cases taken
    exact .inl ⟨rfl, rfl⟩
  | false =>
    rw [resumes] at taken
    cases taken
    exact .inr ⟨rfl, rfl⟩

theorem System.deliver_inv {ch : Chan} (taken : sys.step s (.deliver ch) = some u) :
    (sys.external ch = true ∨ s.arrived ch < s.sent ch) ∧
      u = { s with arrived := update s.arrived ch (s.arrived ch + 1) } := by
  obtain ⟨ready, same⟩ := Option.ite_none_right_eq_some.mp taken
  cases same
  exact ⟨ready, rfl⟩

/-- An operation changes nothing but promises, counters and channels. -/
structure SameThreads (s u : State T Prom Counter Chan) : Prop where
  block : u.block = s.block
  done : u.done = s.done
  mid : u.mid = s.mid
  lost : u.lost = s.lost

theorem Effect.same {o : Op Prom Counter Chan Label} (effect : Effect sys s t o u) :
    SameThreads s u := by
  cases effect <;> exact ⟨rfl, rfl, rfl, rfl⟩

theorem System.position_some {o : Op Prom Counter Chan Label} (here : sys.position s t = some o) :
    s.block t < sys.blocks t ∧ (sys.prog t (s.block t))[s.done t (s.block t)]? = some o :=
  Option.ite_none_right_eq_some.mp here

theorem System.did_advance {v : State T Prom Counter Chan} {o : Op Prom Counter Chan Label}
    (here : sys.position s t = some o) (same : SameThreads s v) (t' : T) (k : Nat)
    (x : Op Prom Counter Chan Label) :
    sys.Did (v.advance t) t' k x ↔ sys.Did s t' k x ∨ (t' = t ∧ k = s.block t ∧ x = o) := by
  obtain ⟨_, at_done⟩ := System.position_some here
  simp only [System.Did, State.advance, same.block, same.done]
  rcases eq_or_ne t' t with rfl | other
  · rw [update_self]
    rcases eq_or_ne k (s.block t') with rfl | otherBlock
    · rw [update_self, List.take_add_one, at_done, List.mem_append]
      simp
    · rw [update_of_ne otherBlock]
      simp [otherBlock]
  · rw [update_of_ne other]
    simp [other]

/-- How far the threads are: nothing is done in later blocks, and a thread that does not resume
    has finished its earlier ones. -/
structure Shape (sys : System T Prom Counter Chan Label) (s : State T Prom Counter Chan) :
    Prop where
  fresh : ∀ t k, s.block t < k → s.done t k = 0
  whole : ∀ t k, sys.resumes t = false → k < s.block t → s.done t k = (sys.prog t k).length
  inside : ∀ t, s.block t ≤ sys.blocks t
  halfway : ∀ t, sys.position s t = none → s.mid t = none

theorem Shape.initial : Shape sys State.initial := by
  refine ⟨fun _ _ _ => rfl, fun _ k _ below => absurd below (Nat.not_lt_zero k), fun _ =>
    Nat.zero_le _, fun _ _ => rfl⟩

theorem Shape.start (shape : Shape sys s) (taken : sys.step s (.start t) = some u) :
    Shape sys u := by
  have kept : u.block = s.block ∧ u.done = s.done ∧ ∀ t', sys.position s t' = none →
      u.mid t' = s.mid t' := by
    obtain ⟨_, _, ⟨c, here, rfl⟩ | ⟨c, p, here, rfl⟩⟩ := System.start_inv taken
    all_goals
      refine ⟨rfl, rfl, fun t' none_here => update_of_ne ?_ _ _⟩
      rintro rfl
      rw [here] at none_here
      cases none_here
  obtain ⟨block, done, mid⟩ := kept
  refine ⟨?_, ?_, ?_, ?_⟩
  · rw [block, done]
    exact shape.fresh
  · rw [block, done]
    exact shape.whole
  · rw [block]
    exact shape.inside
  · intro t' none_here
    have before : sys.position s t' = none := by
      unfold System.position at none_here ⊢
      rwa [block, done] at none_here
    rw [mid t' before]
    exact shape.halfway t' before

theorem Shape.finish {isMatch : Bool} (shape : Shape sys s)
    (taken : sys.step s (.finish t isMatch) = some u) : Shape sys u := by
  obtain ⟨_, o, v, here, effect, rfl⟩ := System.finish_inv taken
  have same := (System.effect_inv effect).same
  have inside := (System.position_some here).1
  refine ⟨?_, ?_, ?_, ?_⟩
  · intro t' k later
    simp only [State.advance, same.block, same.done] at later ⊢
    rcases eq_or_ne t' t with rfl | other
    · rw [update_self, update_of_ne (by omega)]
      exact shape.fresh t' k later
    · rw [update_of_ne other]
      exact shape.fresh t' k later
  · intro t' k stops earlier
    simp only [State.advance, same.block, same.done] at earlier ⊢
    rcases eq_or_ne t' t with rfl | other
    · rw [update_self, update_of_ne (by omega)]
      exact shape.whole t' k stops earlier
    · rw [update_of_ne other]
      exact shape.whole t' k stops earlier
  · intro t'
    simp only [State.advance, same.block]
    exact shape.inside t'
  · intro t' none_here
    simp only [State.advance, same.mid]
    rcases eq_or_ne t' t with rfl | other
    · rw [update_self]
    · rw [update_of_ne other]
      refine shape.halfway t' ?_
      unfold System.position at none_here ⊢
      simpa only [State.advance, same.block, same.done, update_of_ne other] using none_here

theorem Shape.advance_block (shape : Shape sys s) (below : s.block t < sys.blocks t)
    (ends : sys.resumes t = false → s.done t (s.block t) = (sys.prog t (s.block t)).length)
    (block : u.block = update s.block t (s.block t + 1)) (done : u.done = s.done)
    (unread : u.mid t = none) (mid : ∀ t', t' ≠ t → u.mid t' = s.mid t') : Shape sys u := by
  refine ⟨?_, ?_, ?_, ?_⟩
  · intro t' k later
    rw [block] at later
    rw [done]
    rcases eq_or_ne t' t with rfl | other
    · rw [update_self] at later
      exact shape.fresh t' k (by omega)
    · rw [update_of_ne other] at later
      exact shape.fresh t' k later
  · intro t' k stops earlier
    rw [block] at earlier
    rw [done]
    rcases eq_or_ne t' t with rfl | other
    · rw [update_self] at earlier
      rcases Nat.lt_succ_iff_lt_or_eq.mp earlier with before | rfl
      · exact shape.whole t' k stops before
      · exact ends stops
    · rw [update_of_ne other] at earlier
      exact shape.whole t' k stops earlier
  · intro t'
    rw [block]
    rcases eq_or_ne t' t with rfl | other
    · rw [update_self]
      exact below
    · rw [update_of_ne other]
      exact shape.inside t'
  · intro t' none_here
    rcases eq_or_ne t' t with rfl | other
    · exact unread
    · rw [mid t' other]
      refine shape.halfway t' ?_
      unfold System.position at none_here ⊢
      simpa only [block, done, update_of_ne other] using none_here

theorem Shape.step {a : Action T Chan} (shape : Shape sys s) (taken : sys.step s a = some u) :
    Shape sys u := by
  cases a with
  | start t => exact shape.start taken
  | finish t isMatch => exact shape.finish taken
  | next t =>
    obtain ⟨_, below, whole, rfl⟩ := System.next_inv taken
    refine shape.advance_block below (fun _ => whole) rfl rfl (shape.halfway t ?_) fun _ _ => rfl
    unfold System.position
    rw [if_pos below, whole, List.getElem?_length]
  | throw t =>
    obtain ⟨_, below, ⟨resumes, rfl⟩ | ⟨_, rfl⟩⟩ := System.throw_inv taken
    · exact shape.advance_block below (by rw [resumes]; exact nofun) rfl rfl (update_self _ _ _)
        fun t' other => update_of_ne other _ _
    · exact ⟨shape.fresh, shape.whole, shape.inside, shape.halfway⟩
  | deliver ch =>
    obtain ⟨_, rfl⟩ := System.deliver_inv taken
    exact ⟨shape.fresh, shape.whole, shape.inside, shape.halfway⟩

structure Grows (sys : System T Prom Counter Chan Label) (s u : State T Prom Counter Chan) :
    Prop where
  did : ∀ t k o, sys.Did s t k o → sys.Did u t k o
  fulfilled : ∀ p, s.fulfilled p = true → u.fulfilled p = true
  count : ∀ c, s.count c ≤ u.count c

theorem fulfilled_update {p q : Prom} (before : s.fulfilled q = true) :
    update s.fulfilled p true q = true := by
  rcases eq_or_ne q p with rfl | other
  · exact update_self _ _ _
  · rw [update_of_ne other]
    exact before

theorem count_update (c d : Counter) : s.count d ≤ update s.count c (s.count c + 1) d := by
  rcases eq_or_ne d c with rfl | other
  · rw [update_self]
    exact Nat.le_succ _
  · rw [update_of_ne other]

theorem Effect.grows {o : Op Prom Counter Chan Label} (effect : Effect sys s t o u) :
    (∀ p, s.fulfilled p = true → u.fulfilled p = true) ∧ ∀ c, s.count c ≤ u.count c := by
  cases effect with
  | set | ticket | isMatch => exact ⟨fun _ => fulfilled_update, fun _ => Nat.le_refl _⟩
  | lastMiss => exact ⟨fun _ => fulfilled_update, fun _ => count_update _ _⟩
  | miss => exact ⟨fun _ => id, fun _ => count_update _ _⟩
  | _ => exact ⟨fun _ => id, fun _ => Nat.le_refl _⟩

theorem System.step_grows {a : Action T Chan} (taken : sys.step s a = some u) :
    Grows sys s u := by
  cases a with
  | start t =>
    obtain ⟨_, _, ⟨c, _, rfl⟩ | ⟨c, p, _, rfl⟩⟩ := System.start_inv taken
    · exact ⟨fun _ _ _ => id, fun _ => id, fun _ => count_update _ _⟩
    · exact ⟨fun _ _ _ => id, fun _ => id, fun _ => Nat.le_refl _⟩
  | finish t isMatch =>
    obtain ⟨_, o, v, here, effect, rfl⟩ := System.finish_inv taken
    have effect := System.effect_inv effect
    exact ⟨fun t' k x did => (System.did_advance here effect.same t' k x).mpr (.inl did),
      effect.grows.1, effect.grows.2⟩
  | next t =>
    obtain ⟨_, _, _, rfl⟩ := System.next_inv taken
    exact ⟨fun _ _ _ => id, fun _ => id, fun _ => Nat.le_refl _⟩
  | throw t =>
    obtain ⟨_, _, ⟨_, rfl⟩ | ⟨_, rfl⟩⟩ := System.throw_inv taken
    · exact ⟨fun _ _ _ => id, fun _ => id, fun _ => Nat.le_refl _⟩
    · exact ⟨fun _ _ _ => id, fun _ => id, fun _ => Nat.le_refl _⟩
  | deliver ch =>
    obtain ⟨_, rfl⟩ := System.deliver_inv taken
    exact ⟨fun _ _ _ => id, fun _ => id, fun _ => Nat.le_refl _⟩

inductive Origin (sys : System T Prom Counter Chan Label) (s : State T Prom Counter Chan)
    (p : Prom) : Prop
  | set (t k) (did : sys.Did s t k (.set p))
  | ticket (c n) (given : n < s.count c) (mine : sys.ticket c n = some p)
  | report (t k c) (did : sys.Did s t k (.report p c))

theorem Origin.mono {p : Prom} (grows : Grows sys s u) (origin : Origin sys s p) :
    Origin sys u p := by
  cases origin with
  | set t k did => exact .set t k (grows.did _ _ _ did)
  | ticket c n given mine => exact .ticket c n (Nat.lt_of_lt_of_le given (grows.count c)) mine
  | report t k c did => exact .report t k c (grows.did _ _ _ did)

/-- What has been waited for is fulfilled, and what is fulfilled has an origin. -/
structure Safe (sys : System T Prom Counter Chan Label) (s : State T Prom Counter Chan) : Prop
    extends Shape sys s where
  read : ∀ t c n, sys.position s t = some (.bump c) → s.mid t = some n → n < s.count c
  waited : ∀ t k p, sys.Did s t k (.wait p) → s.fulfilled p = true
  origin : ∀ p, s.fulfilled p = true → Origin sys s p

theorem Safe.initial : Safe sys State.initial where
  toShape := .initial
  read := fun _ _ _ _ read => nomatch read
  waited := fun _ _ _ did => absurd did (by simp [System.Did, State.initial])
  origin := fun _ set => nomatch set

theorem Effect.fulfils {o : Op Prom Counter Chan Label} (effect : Effect sys s t o u) {p : Prom}
    (after : u.fulfilled p = true) : s.fulfilled p = true ∨ o = .set p ∨
      (∃ c n, o = .bump c ∧ s.mid t = some n ∧ sys.ticket c n = some p) ∨
      ∃ c, o = .report p c := by
  have cases_of {q : Prom} (after : update s.fulfilled q true p = true) :
      s.fulfilled p = true ∨ p = q := by
    rcases eq_or_ne p q with same | other
    · exact .inr same
    · rw [update_of_ne other] at after
      exact .inl after
  cases effect with
  | set =>
    rcases cases_of after with before | rfl
    · exact .inl before
    · exact .inr (.inl rfl)
  | ticket read mine =>
    rcases cases_of after with before | rfl
    · exact .inl before
    · exact .inr (.inr (.inl ⟨_, _, rfl, read, mine⟩))
  | isMatch | lastMiss =>
    rcases cases_of after with before | rfl
    · exact .inl before
    · exact .inr (.inr (.inr ⟨_, rfl⟩))
  | _ => exact .inl after

theorem Safe.finish {isMatch : Bool} (safe : Safe sys s)
    (taken : sys.step s (.finish t isMatch) = some u) : Safe sys u := by
  have grows := System.step_grows taken
  have shape := safe.toShape.finish taken
  obtain ⟨_, o, v, here, effect, rfl⟩ := System.finish_inv taken
  have effect := System.effect_inv effect
  have did := System.did_advance here effect.same
  refine ⟨shape, ?_, ?_, ?_⟩
  · intro t' c n at_bump read
    rcases eq_or_ne t' t with rfl | other
    · simp [State.advance] at read
    · have before : sys.position s t' = some (.bump c) := by
        unfold System.position at at_bump ⊢
        simpa only [State.advance, effect.same.block, effect.same.done, update_of_ne other]
          using at_bump
      have read' : s.mid t' = some n := by
        simpa only [State.advance, effect.same.mid, update_of_ne other] using read
      exact Nat.lt_of_lt_of_le (safe.read t' c n before read') (grows.count c)
  · intro t' k p waits
    rcases (did t' k _).mp waits with before | ⟨_, _, rfl⟩
    · exact grows.fulfilled p (safe.waited t' k p before)
    · cases effect with
      | wait ready => exact ready
  · intro p after
    rcases effect.fulfils after with before | rfl | ⟨c, n, rfl, read, mine⟩ | ⟨c, rfl⟩
    · exact (safe.origin p before).mono grows
    · exact .set t (s.block t) ((did _ _ _).mpr (.inr ⟨rfl, rfl, rfl⟩))
    · exact .ticket c n (Nat.lt_of_lt_of_le (safe.read t c n here read) (grows.count c)) mine
    · exact .report t (s.block t) c ((did _ _ _).mpr (.inr ⟨rfl, rfl, rfl⟩))

theorem Safe.start (safe : Safe sys s) (taken : sys.step s (.start t) = some u) :
    Safe sys u := by
  have grows := System.step_grows taken
  have shape := safe.toShape.start taken
  obtain ⟨_, _, ⟨c, here, rfl⟩ | ⟨c, p, here, rfl⟩⟩ := System.start_inv taken
  · refine ⟨shape, ?_, safe.waited, fun p after => (safe.origin p after).mono grows⟩
    intro t' d n at_bump read
    rcases eq_or_ne t' t with rfl | other
    · have same : Op.bump c = Op.bump d := Option.some.inj (here.symm.trans at_bump)
      simp only [Op.bump.injEq] at same
      subst same
      simp only [update_self, Option.some.injEq] at read ⊢
      omega
    · simp only [update_of_ne other] at read
      exact Nat.lt_of_lt_of_le (safe.read t' d n at_bump read) (grows.count d)
  · refine ⟨shape, ?_, safe.waited, fun p after => (safe.origin p after).mono grows⟩
    intro t' d n at_bump read
    rcases eq_or_ne t' t with rfl | other
    · cases here.symm.trans at_bump
    · simp only [update_of_ne other] at read
      exact safe.read t' d n at_bump read

theorem Safe.step {a : Action T Chan} (safe : Safe sys s) (taken : sys.step s a = some u) :
    Safe sys u := by
  have grows := System.step_grows taken
  have shape := safe.toShape.step taken
  cases a with
  | start t => exact safe.start taken
  | finish t isMatch => exact safe.finish taken
  | next t =>
    obtain ⟨_, below, whole, rfl⟩ := System.next_inv taken
    refine ⟨shape, ?_, safe.waited, fun p after => (safe.origin p after).mono grows⟩
    intro t' c n at_bump read
    rcases eq_or_ne t' t with rfl | other
    · have unread := safe.halfway t' (by
        unfold System.position
        rw [if_pos below, whole, List.getElem?_length])
      rw [unread] at read
      cases read
    · refine safe.read t' c n ?_ read
      unfold System.position at at_bump ⊢
      simpa only [update_of_ne other] using at_bump
  | throw t =>
    obtain ⟨_, _, ⟨_, rfl⟩ | ⟨_, rfl⟩⟩ := System.throw_inv taken
    · refine ⟨shape, ?_, safe.waited, fun p after => (safe.origin p after).mono grows⟩
      intro t' c n at_bump read
      rcases eq_or_ne t' t with rfl | other
      · simp only [update_self] at read
        cases read
      · simp only [update_of_ne other] at read
        refine safe.read t' c n ?_ read
        unfold System.position at at_bump ⊢
        simpa only [update_of_ne other] using at_bump
    · exact ⟨shape, safe.read, safe.waited, fun p after => (safe.origin p after).mono grows⟩
  | deliver ch =>
    obtain ⟨_, rfl⟩ := System.deliver_inv taken
    exact ⟨shape, safe.read, safe.waited, fun p after => (safe.origin p after).mono grows⟩

theorem Safe.along {meets : State T Prom Counter Chan → Action T Chan → Prop}
    (run : Run.Along sys.step meets State.initial s) : Safe sys s :=
  run.invariant (fun _ _ _ safe _ taken => safe.step taken) .initial

/-- The threads of `parties` increment `c`, each once in its block `home`, and nobody else
    does. -/
structure BumpedBy (sys : System T Prom Counter Chan Label) (c : Counter) (parties : Finset T)
    (home : Nat) : Prop where
  bumps : ∀ t k, .bump c ∈ sys.prog t k ↔ t ∈ parties ∧ k = home
  nodup : ∀ t k, (sys.prog t k).Nodup
  noReport : ∀ t k p, .report p c ∉ sys.prog t k
  stops : ∀ t ∈ parties, sys.resumes t = false

theorem System.did_mem {k : Nat} {o : Op Prom Counter Chan Label} (did : sys.Did s t k o) :
    o ∈ sys.prog t k := List.mem_of_mem_take did

theorem System.position_mem {o : Op Prom Counter Chan Label}
    (here : sys.position s t = some o) : o ∈ sys.prog t (s.block t) :=
  List.mem_of_getElem? (System.position_some here).2

theorem System.not_did_here {o : Op Prom Counter Chan Label}
    (nodup : (sys.prog t (s.block t)).Nodup) (here : sys.position s t = some o) :
    ¬ sys.Did s t (s.block t) o := by
  intro did
  obtain ⟨_, at_done⟩ := System.position_some here
  obtain ⟨i, below, same⟩ := List.getElem_of_mem did
  rw [List.length_take] at below
  rw [List.getElem_take] at same
  obtain ⟨inside, at_done⟩ := List.getElem?_eq_some_iff.mp at_done
  have := nodup.getElem_inj_iff.mp (same.trans at_done.symm)
  omega

theorem System.bumped_congr {k : Nat} {c : Counter}
    (did : sys.Did u t k (.bump c) ↔ sys.Did s t k (.bump c))
    (here : (u.block t = k ∧ sys.position u t = some (.bump c) ∧ u.mid t ≠ none) ↔
      s.block t = k ∧ sys.position s t = some (.bump c) ∧ s.mid t ≠ none) :
    sys.Bumped u t k c ↔ sys.Bumped s t k c := by
  unfold System.Bumped
  rw [did, here]

theorem System.position_congr (block : u.block t = s.block t) (done : u.done t = s.done t) :
    sys.position u t = sys.position s t := by
  unfold System.position
  rw [block, done]

open Classical in
def Counted (sys : System T Prom Counter Chan Label) (c : Counter) (parties : Finset T)
    (home : Nat) (s : State T Prom Counter Chan) : Prop :=
  s.count c = (parties.filter fun t => sys.Bumped s t home c).card

theorem Counted.congr {c : Counter} {parties : Finset T} {home : Nat}
    (counted : Counted sys c parties home s) (count : u.count c = s.count c)
    (same : ∀ t ∈ parties, sys.Bumped u t home c ↔ sys.Bumped s t home c) :
    Counted sys c parties home u := by
  classical
  unfold Counted at counted ⊢
  rw [count, counted, Finset.filter_congr fun t member => (same t member).symm]

theorem Effect.count_eq {o : Op Prom Counter Chan Label} (effect : Effect sys s t o u) {c : Counter}
    (noReport : ∀ p, o ≠ .report p c) : u.count c = s.count c := by
  cases effect with
  | lastMiss | miss =>
    refine update_of_ne ?_ _ _
    rintro rfl
    exact noReport _ rfl
  | _ => rfl

theorem Counted.start_other {c : Counter} {parties : Finset T} {home : Nat}
    (counted : Counted sys c parties home s) (count : u.count c = s.count c)
    (block : u.block = s.block) (done : u.done = s.done)
    (mid : ∀ t', sys.position s t' = some (.bump c) → u.mid t' = s.mid t') :
    Counted sys c parties home u := by
  refine counted.congr count fun t' _ => System.bumped_congr ?_ ?_
  · unfold System.Did
    rw [done]
  · rw [System.position_congr (congrFun block t') (congrFun done t'), block]
    constructor
    · rintro ⟨at_home, here, read⟩
      exact ⟨at_home, here, mid t' here ▸ read⟩
    · rintro ⟨at_home, here, read⟩
      exact ⟨at_home, here, (mid t' here).symm ▸ read⟩

theorem Counted.insert {c : Counter} {parties : Finset T} {home : Nat}
    (counted : Counted sys c parties home s) (count : u.count c = s.count c + 1)
    (party : t ∈ parties) (before : ¬ sys.Bumped s t home c) (after : sys.Bumped u t home c)
    (others : ∀ t', t' ≠ t → (sys.Bumped u t' home c ↔ sys.Bumped s t' home c)) :
    Counted sys c parties home u := by
  classical
  unfold Counted at counted ⊢
  rw [count, counted, ← Finset.card_insert_of_notMem (a := t) (by simp [before])]
  congr 1
  ext t'
  rcases eq_or_ne t' t with rfl | different
  · simp [party, after]
  · rw [Finset.mem_insert, Finset.mem_filter, Finset.mem_filter, or_iff_right different,
      others t' different]

theorem Counted.start {c : Counter} {parties : Finset T} {home : Nat}
    (bumped : BumpedBy sys c parties home) (counted : Counted sys c parties home s)
    (taken : sys.step s (.start t) = some u) : Counted sys c parties home u := by
  classical
  obtain ⟨_, unread, ⟨d, here, rfl⟩ | ⟨d, p, here, rfl⟩⟩ := System.start_inv taken
  · rcases eq_or_ne d c with rfl | other
    · obtain ⟨party, at_home⟩ := (bumped.bumps t _).mp (System.position_mem here)
      have before : ¬ sys.Bumped s t home d := by
        rintro (did | ⟨_, _, read⟩)
        · exact System.not_did_here (bumped.nodup t _) here (at_home ▸ did)
        · exact read unread
      refine counted.insert (t := t) (update_self _ _ _) party before
        (.inr ⟨at_home, here, by simp⟩) fun t' different => System.bumped_congr Iff.rfl ?_
      simp only [System.position, update_of_ne different]
    · refine counted.start_other (update_of_ne other.symm _ _) rfl rfl fun t' at_bump => ?_
      refine update_of_ne ?_ _ _
      rintro rfl
      exact other (Op.bump.inj (Option.some.inj (here.symm.trans at_bump)))
  · refine counted.start_other rfl rfl rfl fun t' at_bump => ?_
    refine update_of_ne ?_ _ _
    rintro rfl
    cases here.symm.trans at_bump

theorem Counted.finish {c : Counter} {parties : Finset T} {home : Nat}
    (bumped : BumpedBy sys c parties home) (counted : Counted sys c parties home s)
    {isMatch : Bool} (taken : sys.step s (.finish t isMatch) = some u) :
    Counted sys c parties home u := by
  obtain ⟨_, o, v, here, effect, rfl⟩ := System.finish_inv taken
  have effect := System.effect_inv effect
  have did := System.did_advance here effect.same
  refine counted.congr (effect.count_eq ?_) fun t' _ => ?_
  · rintro p rfl
    exact bumped.noReport t _ p (System.position_mem here)
  · rcases eq_or_ne t' t with rfl | different
    · have unread : (v.advance t').mid t' = none := update_self _ _ _
      by_cases same : o = .bump c
      · subst same
        obtain ⟨_, rfl⟩ := (bumped.bumps t' _).mp (System.position_mem here)
        have read : s.mid t' ≠ none := by
          cases effect with
          | ticket read => rw [read]; exact nofun
          | bump read => rw [read]; exact nofun
        exact ⟨fun _ => .inr ⟨rfl, here, read⟩, fun _ =>
          .inl ((did _ _ _).mpr (.inr ⟨rfl, rfl, rfl⟩))⟩
      · refine System.bumped_congr ?_ ?_
        · rw [did]
          exact or_iff_left fun new => same new.2.2.symm
        · rw [unread, here]
          exact ⟨fun half => absurd rfl half.2.2, fun half =>
            absurd (Option.some.inj half.2.1) same⟩
    · refine System.bumped_congr ?_ ?_
      · rw [did]
        exact or_iff_left fun new => different new.1
      · have block : (v.advance t).block t' = s.block t' := congrFun effect.same.block t'
        have done : (v.advance t).done t' = s.done t' := by
          simp only [State.advance, effect.same.done, update_of_ne different]
        have mid : (v.advance t).mid t' = s.mid t' := by
          simp only [State.advance, effect.same.mid, update_of_ne different]
        rw [System.position_congr block done, block, mid]

theorem Counted.step {c : Counter} {parties : Finset T} {home : Nat}
    (bumped : BumpedBy sys c parties home) {a : Action T Chan} (safe : Safe sys s)
    (counted : Counted sys c parties home s) (taken : sys.step s a = some u) :
    Counted sys c parties home u := by
  cases a with
  | start t => exact counted.start bumped taken
  | finish t isMatch => exact counted.finish bumped taken
  | next t =>
    obtain ⟨_, below, whole, rfl⟩ := System.next_inv taken
    refine counted.congr rfl fun t' _ => System.bumped_congr Iff.rfl ?_
    rcases eq_or_ne t' t with rfl | different
    · have ends : sys.position s t' = none := by
        unfold System.position
        rw [if_pos below, whole, List.getElem?_length]
      rw [ends]
      exact ⟨fun half => absurd (safe.halfway t' ends) half.2.2, fun half => nomatch half.2.1⟩
    · simp only [System.position, update_of_ne different]
  | throw t =>
    obtain ⟨_, _, ⟨resumes, rfl⟩ | ⟨_, rfl⟩⟩ := System.throw_inv taken
    · refine counted.congr rfl fun t' party => System.bumped_congr Iff.rfl ?_
      have different : t' ≠ t := by
        rintro rfl
        exact absurd (resumes.symm.trans (bumped.stops t' party)) nofun
      simp only [System.position, update_of_ne different]
    · exact counted.congr rfl fun t' _ => System.bumped_congr Iff.rfl Iff.rfl
  | deliver ch =>
    obtain ⟨_, rfl⟩ := System.deliver_inv taken
    exact counted.congr rfl fun t' _ => System.bumped_congr Iff.rfl Iff.rfl

theorem Counted.along {c : Counter} {parties : Finset T} {home : Nat}
    (bumped : BumpedBy sys c parties home)
    {meets : State T Prom Counter Chan → Action T Chan → Prop}
    (run : Run.Along sys.step meets State.initial s) : Counted sys c parties home s := by
  classical
  have preserved (v : State T Prom Counter Chan) (a : Action T Chan)
      (w : State T Prom Counter Chan) (before : Safe sys v ∧ Counted sys c parties home v)
      (_ : meets v a) (taken : sys.step v a = some w) :
      Safe sys w ∧ Counted sys c parties home w :=
    ⟨before.1.step taken, before.2.step bumped before.1 taken⟩
  refine (run.invariant preserved ⟨.initial, ?_⟩).2
  have none_yet : ∀ t, ¬ sys.Bumped State.initial t home c := by
    rintro t (did | ⟨_, _, read⟩)
    · simp [System.Did, State.initial] at did
    · exact read rfl
  unfold Counted
  rw [Finset.filter_false_of_mem fun t _ => none_yet t]
  rfl

/-- Once the counter is complete, every party has incremented it. -/
theorem Counted.complete {c : Counter} {parties : Finset T} {home : Nat}
    (counted : Counted sys c parties home s) (all : parties.card ≤ s.count c) :
    ∀ t ∈ parties, sys.Bumped s t home c := by
  classical
  unfold Counted at counted
  rw [counted] at all
  exact Finset.card_filter_eq_iff.mp (Nat.le_antisymm (Finset.card_filter_le _ _) all)

/-- What comes before an operation in its block is executed before it. -/
theorem System.did_before {k j : Nat} {o : Op Prom Counter Chan Label}
    (nodup : (sys.prog t k).Nodup) (place : (sys.prog t k)[j]? = some o)
    (reached : sys.Reached s t k o) : ∀ x ∈ (sys.prog t k).take j, sys.Did s t k x := by
  have only {i : Nat} (here : (sys.prog t k)[i]? = some o) : i = j := by
    obtain ⟨inside, same⟩ := List.getElem?_eq_some_iff.mp here
    obtain ⟨inside', same'⟩ := List.getElem?_eq_some_iff.mp place
    exact nodup.getElem_inj_iff.mp (same.trans same'.symm)
  have past : j ≤ s.done t k := by
    rcases reached with did | ⟨rfl, here⟩
    · obtain ⟨i, below, same⟩ := List.getElem_of_mem did
      rw [List.length_take] at below
      rw [List.getElem_take] at same
      have := only (List.getElem?_eq_some_iff.mpr ⟨by omega, same⟩)
      omega
    · exact (only (System.position_some here).2).ge
  intro x member
  exact (List.take_subset_take_left _ past) member

theorem System.Bumped.reached {k : Nat} {c : Counter} (bumped : sys.Bumped s t k c) :
    sys.Reached s t k (.bump c) := by
  rcases bumped with did | ⟨block, here, _⟩
  · exact .inl did
  · exact .inr ⟨block, here⟩

theorem Shape.did_block (shape : Shape sys s) {k : Nat} {o : Op Prom Counter Chan Label}
    (did : sys.Did s t k o) : k ≤ s.block t := by
  by_contra later
  unfold System.Did at did
  rw [shape.fresh t k (by omega), List.take_zero] at did
  exact absurd did List.not_mem_nil

/-- A thread that does not resume has executed all of its earlier blocks. -/
theorem Shape.did_earlier (shape : Shape sys s) (stops : sys.resumes t = false) {k : Nat}
    (earlier : k < s.block t) {o : Op Prom Counter Chan Label} (member : o ∈ sys.prog t k) :
    sys.Did s t k o := by
  unfold System.Did
  rwa [shape.whole t k stops earlier, List.take_length]

end

end Threads
