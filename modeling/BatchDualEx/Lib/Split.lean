import Mathlib.Algebra.BigOperators.Group.List.Basic
import Mathlib.Algebra.GroupWithZero.Nat

/- Lists cut at a separator, as repeated `getline` does it, and three lists joined by one. -/
namespace Split

variable {α : Type} {d : α}

section Pieces

variable [DecidableEq α]

/-- The pieces between separators. A separator at the end has no piece after it. -/
def split (d : α) : List α → List (List α)
  | [] => []
  | c :: s =>
    if c = d then [] :: split d s
    else
      match split d s with
      | [] => [[c]]
      | item :: items => (c :: item) :: items

theorem split_append {s : List α} (free : d ∉ s) (more : List α) :
    split d (s ++ d :: more) = s :: split d more := by
  induction s with
  | nil => rw [List.nil_append, split, if_pos rfl]
  | cons c s ih =>
    rw [List.mem_cons, not_or] at free
    rw [List.cons_append, split, if_neg (Ne.symm free.1), ih free.2]

theorem split_free {s : List α} (free : d ∉ s) (some : s ≠ []) : split d s = [s] := by
  induction s with
  | nil => exact absurd rfl some
  | cons c s ih =>
    rw [List.mem_cons, not_or] at free
    rw [split, if_neg (Ne.symm free.1)]
    cases s with
    | nil => rfl
    | cons c' s => rw [ih free.2 (List.cons_ne_nil c' s)]

theorem not_mem_split {s : List α} : ∀ item ∈ split d s, d ∉ item := by
  induction s with
  | nil => exact fun _ listed => absurd listed List.not_mem_nil
  | cons c s ih =>
    intro item listed
    rw [split] at listed
    split at listed
    · rcases List.mem_cons.mp listed with first | later
      · rw [first]
        exact List.not_mem_nil
      · exact ih item later
    · rename_i other
      split at listed
      · rw [List.mem_singleton.mp listed]
        simpa using Ne.symm other
      · rename_i first items split_s
        rcases List.mem_cons.mp listed with here | later
        · have free := ih first (by simp [split_s])
          rw [here, List.mem_cons, not_or]
          exact ⟨Ne.symm other, free⟩
        · exact ih item (by simp [split_s, later])

theorem split_length (s : List α) :
    ((split d s).map List.length).sum + (split d s).length ≤ s.length + 1 := by
  induction s with
  | nil => simp [split]
  | cons c s ih =>
    rw [split]
    split
    · simp only [List.map_cons, List.sum_cons, List.length_nil, List.length_cons]
      omega
    · split
      · simp
      · rename_i first items split_s
        rw [split_s] at ih
        simp only [List.map_cons, List.sum_cons, List.length_cons] at ih ⊢
        omega

theorem split_three {s a b c : List α} {more : List (List α)}
    (pieces : split d s = a :: b :: c :: more) :
    a.length + b.length + c.length + 2 ≤ s.length := by
  have total := split_length (d := d) s
  rw [pieces] at total
  simp only [List.map_cons, List.sum_cons, List.length_cons] at total
  omega

end Pieces

def joined (d : α) (a b c : List α) : List α := a ++ d :: (b ++ d :: c)

@[simp] theorem joined_length (a b c : List α) :
    (joined d a b c).length = a.length + b.length + c.length + 2 := by
  simp [joined]
  omega

theorem mem_joined {x : α} (other : x ≠ d) {a b c : List α} :
    x ∈ joined d a b c ↔ x ∈ a ∨ x ∈ b ∨ x ∈ c := by
  simp [joined, other]

/-- No other place for the separators leaves three lists that are not empty: a separator stands at
    most at the start of the first, at the end of the last, or alone in the middle. -/
def Placed (d : α) (a b c : List α) : Prop := d ∉ a.tail ∧ d ∉ c.dropLast ∧ (d ∈ b → b = [d])

instance [DecidableEq α] (a b c : List α) : Decidable (Placed d a b c) :=
  inferInstanceAs (Decidable (_ ∧ _ ∧ _))

theorem mem_dropLast (s : List α) {t : List α} (some : t ≠ []) : d ∈ (s ++ d :: t).dropLast := by
  rw [List.dropLast_append_of_ne_nil (List.cons_ne_nil d t), List.dropLast_cons_of_ne_nil some]
  simp

theorem mem_tail {s : List α} (some : s ≠ []) (t : List α) : d ∈ (s ++ d :: t).tail := by
  rw [List.tail_append_of_ne_nil some]
  simp

/-- Two lists joined, where the first list may only be the separator and the last ends with one. -/
theorem joined_two {b c b' c' : List α} (last : d ∉ c.dropLast) (alone : d ∈ b → b = [d])
    (some : b' ≠ []) (some' : c' ≠ []) (same : b ++ d :: c = b' ++ d :: c') : b = b' ∧ c = c' := by
  rcases List.append_eq_append_iff.mp same with ⟨u, split, rest⟩ | ⟨u, split, rest⟩
  · cases u with
    | nil =>
      rw [List.nil_append] at rest
      rw [List.append_nil] at split
      exact ⟨split.symm, (List.cons.inj rest).2⟩
    | cons x u =>
      obtain ⟨rfl, tail⟩ := List.cons.inj rest
      rw [tail] at last
      exact absurd (mem_dropLast u some') last
  · cases u with
    | nil =>
      rw [List.nil_append] at rest
      rw [List.append_nil] at split
      exact ⟨split, (List.cons.inj rest).2.symm⟩
    | cons x u =>
      obtain ⟨rfl, -⟩ := List.cons.inj rest
      have isAlone := alone (by rw [split]; simp)
      rw [split] at isAlone
      have := congrArg List.length isAlone
      have positive := List.length_pos_iff.mpr some
      simp only [List.length_append, List.length_cons, List.length_nil] at this
      omega

theorem joined_inj {a b c a' b' c' : List α} (placed : Placed d a b c) (some : a' ≠ [])
    (some' : b' ≠ []) (some'' : c' ≠ []) (same : joined d a b c = joined d a' b' c') :
    a = a' ∧ b = b' ∧ c = c' := by
  obtain ⟨first, last, alone⟩ := placed
  rcases List.append_eq_append_iff.mp same with ⟨u, split, rest⟩ | ⟨u, split, rest⟩
  · cases u with
    | nil =>
      rw [List.append_nil] at split
      exact ⟨split.symm, joined_two last alone some' some'' (List.cons.inj rest).2⟩
    | cons x u =>
      -- The first list of the right side reaches into the middle one or the last one of the left.
      obtain ⟨rfl, tail⟩ := List.cons.inj rest
      rcases List.append_eq_append_iff.mp tail with ⟨v, -, inLast⟩ | ⟨v, inMiddle, after⟩
      · cases v with
        | nil =>
          rw [(List.cons.inj inLast).2] at last
          exact absurd (mem_dropLast b' some'') last
        | cons y v =>
          obtain ⟨rfl, ending⟩ := List.cons.inj inLast
          rw [ending] at last
          exact absurd (mem_dropLast v (by simp)) last
      · cases v with
        | nil =>
          rw [← (List.cons.inj after).2] at last
          exact absurd (mem_dropLast b' some'') last
        | cons y v =>
          obtain ⟨rfl, ending⟩ := List.cons.inj after
          have isAlone := alone (by rw [inMiddle]; simp)
          rw [inMiddle] at isAlone
          have length := congrArg List.length isAlone
          simp only [List.length_append, List.length_cons, List.length_nil] at length
          have noMore : v = [] := List.length_eq_zero_iff.mp (by omega)
          rw [noMore] at ending
          have ending : b' ++ d :: c' = d :: c := ending
          cases b' with
          | nil => exact absurd rfl some'
          | cons z b' =>
            rw [← (List.cons.inj ending).2] at last
            exact absurd (mem_dropLast b' some'') last
  · cases u with
    | nil =>
      rw [List.append_nil] at split
      exact ⟨split, joined_two last alone some' some'' (List.cons.inj rest).2.symm⟩
    | cons x u =>
      obtain ⟨rfl, -⟩ := List.cons.inj rest
      rw [split] at first
      exact absurd (mem_tail some u) first

/-- Where the separators are not placed so, three other lists are joined to the same. -/
theorem exists_other {a b c : List α} (placed : ¬ Placed d a b c) (some : a ≠ []) (some' : c ≠ []) :
    ∃ a' b' c', a' ≠ [] ∧ b' ≠ [] ∧ c' ≠ [] ∧ joined d a' b' c' = joined d a b c ∧
      (a' ≠ a ∨ c' ≠ c) := by
  by_cases first : d ∈ a.tail
  · obtain ⟨u, v, split⟩ := List.append_of_mem first
    cases a with
    | nil => exact absurd rfl some
    | cons x a =>
      have split : a = u ++ d :: v := split
      refine ⟨x :: u, v ++ d :: b, c, by simp, by simp, some', by simp [joined, split], .inl ?_⟩
      simp [split]
  by_cases last : d ∈ c.dropLast
  · obtain ⟨u, v, split⟩ := List.append_of_mem last
    have whole : c = u ++ d :: (v ++ [c.getLast some']) := by
      rw [← List.cons_append, ← List.append_assoc, ← split, List.dropLast_append_getLast]
    refine ⟨a, b ++ d :: u, v ++ [c.getLast some'], some, by simp, by simp, ?_, .inr ?_⟩
    · conv_rhs => rw [whole]
      simp [joined]
    · intro same
      have := congrArg List.length (whole.trans (by rw [same]))
      simp at this
      omega
  · have inMiddle : d ∈ b ∧ b ≠ [d] := by
      by_contra none
      apply placed
      exact ⟨first, last, fun listed => by_contra fun more => none ⟨listed, more⟩⟩
    obtain ⟨listed, more⟩ := inMiddle
    obtain ⟨u, v, split⟩ := List.append_of_mem listed
    by_cases before : u = []
    · have after : v ≠ [] := by
        intro none
        apply more
        rw [split, before, none, List.nil_append]
      refine ⟨a ++ d :: u, v, c, by simp, after, some', by simp [joined, split], .inl ?_⟩
      simp
    · refine ⟨a, u, v ++ d :: c, some, before, by simp, by simp [joined, split], .inr ?_⟩
      intro same
      have := congrArg List.length same
      simp only [List.length_append, List.length_cons] at this
      omega

end Split
