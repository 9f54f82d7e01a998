import Mathlib.Data.List.Basic

/- Programs that may fail in some ways only: what holds when they return, and with which errors they
   may end otherwise. -/
namespace Result

variable {ε α β : Type} {allowed : ε → Prop} {post post' : α → Prop} {run : Except ε α}

/-- The run returns with `post`, or it fails with an error that is allowed. -/
def Meets (allowed : ε → Prop) (post : α → Prop) : Except ε α → Prop
  | .ok a => post a
  | .error fault => allowed fault

@[simp] theorem meets_ok {a : α} : Meets allowed post (.ok a) ↔ post a := Iff.rfl

@[simp] theorem meets_error {fault : ε} :
    Meets allowed post (.error fault) ↔ allowed fault := Iff.rfl

theorem Meets.mono (meets : Meets allowed post run) (weaker : ∀ a, post a → post' a) :
    Meets allowed post' run := by
  cases run with
  | error fault => exact meets
  | ok a => exact weaker a meets

theorem Meets.of_ok (meets : Meets allowed post run) (returned : ∀ a, run = .ok a → post' a) :
    Meets allowed post' run := by
  cases run with
  | error fault => exact meets
  | ok a => exact returned a rfl

theorem Meets.bind {mid : α → Prop} {next : α → Except ε β} {post : β → Prop}
    (first : Meets allowed mid run) (second : ∀ a, mid a → Meets allowed post (next a)) :
    Meets allowed post (run >>= next) := by
  cases run with
  | error fault => exact first
  | ok a => exact second a first

theorem meets_foldlM (Inv : List α → β → Prop) {f : β → α → Except ε β} {as : List α}
    (step : ∀ a rest b, Inv (a :: rest) b → Meets allowed (Inv rest) (f b a)) {b : β}
    (start : Inv as b) : Meets allowed (Inv []) (as.foldlM f b) := by
  induction as generalizing b with
  | nil => exact start
  | cons a as ih =>
    rw [List.foldlM_cons]
    apply (step a as b start).bind
    intro c inv
    exact ih inv

theorem meets_foldlM_range (Inv : Nat → β → Prop) {f : β → Nat → Except ε β} {n : Nat}
    (step : ∀ k < n, ∀ b, Inv k b → Meets allowed (Inv (k + 1)) (f b k)) {b : β}
    (start : Inv 0 b) : Meets allowed (Inv n) ((List.range n).foldlM f b) := by
  induction n with
  | zero => exact start
  | succ n ih =>
    rw [List.range_succ, List.foldlM_append]
    apply (ih fun k below => step k (Nat.lt_succ_of_lt below)).bind
    intro c inv
    rw [List.foldlM_cons]
    apply (step n (Nat.lt_succ_self n) c inv).bind
    intro c' inv'
    exact inv'

end Result
