import Mathlib.Data.List.GetD
import Mathlib.Data.List.TakeDrop

/- Lists read with a default: what `getD` returns after the operations that fill buffers. -/
namespace Lists

variable {α β : Type}

theorem getD_takeD (n : Nat) (l : List α) (d : α) {w : Nat} (below : w < n) :
    (l.takeD n d).getD w d = l.getD w d := by
  induction n generalizing l w with
  | zero => omega
  | succ n ih =>
    cases w with
    | zero => cases l <;> rfl
    | succ w =>
      have tail := ih l.tail (w := w) (by omega)
      cases l <;> exact tail

theorem getD_set_self {l : List α} {i : Nat} (inside : i < l.length) (x d : α) :
    (l.set i x).getD i d = x := by
  rw [List.getD_eq_getElem?_getD, List.getElem?_set_self inside, Option.getD_some]

theorem getD_set_ne (l : List α) {i j : Nat} (apart : i ≠ j) (x d : α) :
    (l.set i x).getD j d = l.getD j d := by
  rw [List.getD_eq_getElem?_getD, List.getElem?_set_ne apart, List.getD_eq_getElem?_getD]

theorem getD_append_last (l : List α) (x d : α) : (l ++ [x]).getD l.length d = x := by
  rw [List.getD_append_right _ _ _ _ (Nat.le_refl _), Nat.sub_self]
  rfl

theorem map_range_getD (f : Nat → α) (d : α) {n t : Nat} (below : t < n) :
    ((List.range n).map f).getD t d = f t := by
  rw [List.getD_eq_getElem _ _ (by simpa using below), List.getElem_map, List.getElem_range]

theorem getD_map (f : α → β) {l : List α} {i : Nat} (inside : i < l.length) (d : α) (d' : β) :
    (l.map f).getD i d' = f (l.getD i d) := by
  rw [List.getD_eq_getElem _ _ (by simpa using inside), List.getElem_map,
    List.getD_eq_getElem _ _ inside]

theorem getD_mapIdx (f : Nat → α → β) {l : List α} {i : Nat} (inside : i < l.length) (d : α)
    (d' : β) : (l.mapIdx f).getD i d' = f i (l.getD i d) := by
  rw [List.getD_eq_getElem _ _ (by simpa using inside), List.getElem_mapIdx,
    List.getD_eq_getElem _ _ inside]

theorem filterMap_getElem? {l : List α} {idxs : List Nat} (inside : ∀ j ∈ idxs, j < l.length) :
    (idxs.filterMap (l[·]?)).length = idxs.length ∧
      ∀ i : Nat, (idxs.filterMap (l[·]?))[i]? = idxs[i]?.bind (l[·]?) := by
  induction idxs with
  | nil => exact ⟨rfl, fun i => by simp⟩
  | cons j idxs ih =>
    have first := List.getElem?_eq_getElem (inside j List.mem_cons_self)
    obtain ⟨sized, entries⟩ := ih fun j later => inside j (List.mem_cons_of_mem _ later)
    rw [List.filterMap_cons, first]
    refine ⟨congrArg (· + 1) sized, fun i => ?_⟩
    cases i with
    | zero => exact first.symm
    | succ i => exact entries i

theorem getElem?_of_prefix {l l' : List α} (starts : l <+: l') {i : Nat} {a : α}
    (entry : l[i]? = some a) : l'[i]? = some a := by
  obtain ⟨rest, rfl⟩ := starts
  rw [List.getElem?_append_left (List.getElem?_eq_some_iff.mp entry).1, entry]

/-- Entry `j` of piece `i` when all pieces have the same length. -/
theorem getElem?_flatMap {l : List α} {f : α → List β} {n : Nat}
    (sized : ∀ a ∈ l, (f a).length = n) (i : Nat) {j : Nat} (below : j < n) :
    (l.flatMap f)[i * n + j]? = l[i]?.bind fun a => (f a)[j]? := by
  induction l generalizing i with
  | nil => simp
  | cons a l ih =>
    have first := sized a List.mem_cons_self
    rw [List.flatMap_cons]
    cases i with
    | zero =>
      rw [Nat.zero_mul, Nat.zero_add, List.getElem?_append_left (by omega)]
      rfl
    | succ i =>
      have later := ih (fun b listed => sized b (List.mem_cons_of_mem a listed)) i
      rw [Nat.succ_mul, List.getElem?_append_right (by omega), List.getElem?_cons_succ, ← later]
      congr 1
      omega

theorem length_flatMap_range {f : Nat → List α} {m : Nat} (sized : ∀ i, (f i).length = m)
    (n : Nat) : ((List.range n).flatMap f).length = m * n := by
  induction n with
  | zero => rfl
  | succ n ih =>
    rw [List.range_succ, List.flatMap_append, List.length_append, ih, List.flatMap_singleton,
      sized, Nat.mul_succ]

theorem getD_flatMap_range {f : Nat → List α} {n m : Nat} (sized : ∀ i, (f i).length = m)
    {i r : Nat} (inside : i < n) (within : r < m) (d : α) :
    ((List.range n).flatMap f).getD (m * i + r) d = (f i).getD r d := by
  have entry := getElem?_flatMap (l := List.range n) (fun i _ => sized i) i within
  rw [List.getElem?_range inside, Nat.mul_comm] at entry
  rw [List.getD_eq_getElem?_getD, List.getD_eq_getElem?_getD, entry]
  rfl

theorem foldl_set_same {xs : List α} {i : Nat} (inside : i < xs.length) (g : α → β → α)
    (js : List β) (a d : α) :
    js.foldl (fun xs j => xs.set i (g (xs.getD i d) j)) (xs.set i a) =
      xs.set i (js.foldl g a) := by
  induction js generalizing a with
  | nil => rfl
  | cons j js ih =>
    rw [List.foldl_cons, getD_set_self inside, List.set_set, ih, List.foldl_cons]

/-- A loop whose passes set consecutive entries from `start` on. -/
theorem foldl_set_range (xs : List α) (start n : Nat) (row : List α → Nat → List α)
    (val : Nat → α) (d : α)
    (each : ∀ ys i, start + i < ys.length → row ys i = ys.set (start + i) (val i))
    (room : start + n ≤ xs.length) :
    ((List.range n).foldl row xs).length = xs.length ∧
      ∀ k, ((List.range n).foldl row xs).getD k d =
        if start ≤ k ∧ k < start + n then val (k - start) else xs.getD k d := by
  induction n with
  | zero =>
    constructor
    · rfl
    · intro k
      rw [if_neg (by omega)]
      rfl
  | succ n ih =>
    obtain ⟨sized, entries⟩ := ih (by omega)
    rw [List.range_succ, List.foldl_append, List.foldl_cons, List.foldl_nil,
      each _ n (by omega)]
    constructor
    · rw [List.length_set, sized]
    · intro k
      by_cases last : start + n = k
      · rw [← last, getD_set_self (by omega), if_pos (by omega), Nat.add_sub_cancel_left]
      · rw [getD_set_ne _ last, entries k]
        by_cases earlier : start ≤ k ∧ k < start + n
        · rw [if_pos earlier, if_pos (by omega)]
        · rw [if_neg earlier, if_neg (by omega)]

theorem ext_getD {l l' : List α} (d : α) (sized : l.length = l'.length)
    (same : ∀ w < l.length, l.getD w d = l'.getD w d) : l = l' := by
  apply List.ext_getElem sized
  intro w below below'
  have entry := same w below
  rwa [List.getD_eq_getElem _ _ below, List.getD_eq_getElem _ _ below'] at entry

theorem map_range_getD_self (l : List α) (d : α) :
    ((List.range l.length).map fun i => l.getD i d) = l := by
  apply ext_getD d (by simp)
  intro w below
  exact map_range_getD _ _ (by simpa using below)

end Lists
