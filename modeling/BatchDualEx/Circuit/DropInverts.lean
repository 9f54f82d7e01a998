import BatchDualEx.Circuit.DagCount
import BatchDualEx.Circuit.ReduceInvert

/- The loop of `removeInvertGates` over the outputs, on a graph whose gates may be driven twice, not
   at all or in a cycle: which INV gates it drops, and which have become copies afterwards. -/
namespace BatchDualEx

open Function Result

section Chains

variable (inverted : Nat → Option Nat)

/-- How many of these INV gates read `w`; `inverted` tells what an INV gate reads. -/
def readers (dropped : List Nat) (w : Nat) : Nat := dropped.countP fun n => inverted n = some w

/-- Whether the INV gate of `w` is a copy when the gate before each of these INV gates has been
    complemented. It is told of its own parent only until it is dropped itself. -/
def copied (dropped : List Nat) (w : Nat) : Bool :=
  if w ∈ dropped then readers inverted (dropped.filter (w < ·)) w % 2 = 0
  else (readers inverted dropped w + dropped.countP fun n => inverted n = inverted w) % 2 = 1

def dropInverts : List Nat → List Nat → List Nat
  | [], dropped => dropped
  | w :: outputs, dropped =>
    dropInverts outputs
      (if (inverted w).isSome ∧ copied inverted dropped w = false then dropped ++ [w] else dropped)

variable {inverted} {dropped outputs : List Nat} {n m p : Nat}

theorem readers_append :
    readers inverted (dropped ++ [n]) m =
      readers inverted dropped m + if inverted n = some m then 1 else 0 := by
  simp [readers, List.countP_append, List.countP_cons]

theorem odd_add_ite (a : Nat) (more : Prop) [Decidable more] :
    decide ((a + if more then 1 else 0) % 2 = 1) = (decide (a % 2 = 1) ^^ decide more) := by
  by_cases one : more
  · rw [if_pos one, decide_eq_true one, Bool.xor_true, ← decide_not, decide_eq_decide]
    omega
  · rw [if_neg one, decide_eq_false one, Bool.xor_false, Nat.add_zero]

theorem even_add_ite (a : Nat) (more : Prop) [Decidable more] :
    decide ((a + if more then 1 else 0) % 2 = 0) = (decide (a % 2 = 0) ^^ decide more) := by
  by_cases one : more
  · rw [if_pos one, decide_eq_true one, Bool.xor_true, ← decide_not, decide_eq_decide]
    omega
  · rw [if_neg one, decide_eq_false one, Bool.xor_false, Nat.add_zero]

theorem copied_self (last : ∀ k ∈ dropped, k < n) :
    copied inverted (dropped ++ [n]) n = true := by
  have none : dropped.filter (n < ·) = [] := by
    rw [List.filter_eq_nil_iff]
    intro k earlier
    have := last k earlier
    simp only [decide_eq_true_eq]
    omega
  simp [copied, readers, none]

/-- One more INV gate is dropped: the gate before it and the gates behind that one that are still
    listed are changed. -/
theorem copied_append (apart : m ≠ n) (last : ∀ k ∈ dropped, k < n) :
    copied inverted (dropped ++ [n]) m = (copied inverted dropped m ^^
      ((decide (m ∉ dropped) && decide (inverted n = inverted m)) ^^
        decide (inverted n = some m))) := by
  unfold copied
  by_cases gone : m ∈ dropped
  · have later : (dropped ++ [n]).filter (m < ·) = dropped.filter (m < ·) ++ [n] := by
      simp [last m gone]
    rw [if_pos (List.mem_append_left _ gone), if_pos gone, later, readers_append, even_add_ite]
    simp [gone]
  · have behind : (dropped ++ [n]).countP (fun k => inverted k = inverted m) =
        dropped.countP (fun k => inverted k = inverted m) +
          if inverted n = inverted m then 1 else 0 := by
      simp [List.countP_append, List.countP_cons]
    rw [if_neg (by simp [gone, apart]), if_neg gone, readers_append, behind, ← Nat.add_assoc,
      odd_add_ite, Nat.add_right_comm, odd_add_ite, Bool.xor_assoc, decide_eq_true gone,
      Bool.true_and, Bool.xor_comm (decide (inverted n = some m))]

theorem subset_dropInverts : dropped ⊆ dropInverts inverted outputs dropped := by
  induction outputs generalizing dropped with
  | nil => exact List.Subset.refl _
  | cons w outputs ih =>
    refine List.Subset.trans ?_ ih
    split
    · exact List.subset_append_left _ _
    · exact List.Subset.refl _

theorem mem_dropInverts (gone : n ∈ dropInverts inverted outputs dropped) :
    n ∈ dropped ∨ n ∈ outputs ∧ (inverted n).isSome := by
  induction outputs generalizing dropped with
  | nil => exact .inl gone
  | cons w outputs ih =>
    rcases ih gone with before | ⟨later, isInv⟩
    · split at before
      · rename_i drops
        rcases List.mem_append.mp before with before | now
        · exact .inl before
        · rw [List.mem_singleton.mp now]
          exact .inr ⟨List.mem_cons_self, drops.1⟩
      · exact .inl before
    · exact .inr ⟨List.mem_cons_of_mem _ later, isInv⟩

theorem readers_mono (outputs : List Nat) : readers inverted dropped m ≤
    readers inverted (dropInverts inverted outputs dropped) m := by
  induction outputs generalizing dropped with
  | nil => exact le_rfl
  | cons w outputs ih =>
    refine le_trans ?_ ih
    split
    · rw [readers_append]
      exact Nat.le_add_right _ _
    · exact le_rfl

/-- When no INV gate that reads `p` is read by one that is dropped, only the first of them is
    dropped. -/
theorem readers_le_one (sorted : outputs.Pairwise (· < ·))
    (last : ∀ k ∈ dropped, ∀ w ∈ outputs, k < w) (few : readers inverted dropped p ≤ 1)
    (unread : ∀ w, inverted w = some p →
      readers inverted (dropInverts inverted outputs dropped) w = 0) :
    readers inverted (dropInverts inverted outputs dropped) p ≤ 1 := by
  induction outputs generalizing dropped with
  | nil => exact few
  | cons w outputs ih =>
    obtain ⟨first, sorted⟩ := List.pairwise_cons.mp sorted
    have new : w ∉ dropped := fun gone =>
      lt_irrefl w (last w gone w List.mem_cons_self)
    refine ih sorted ?_ ?_ unread
    · intro k gone w' later
      split at gone
      · rcases List.mem_append.mp gone with gone | now
        · exact last k gone w' (List.mem_cons_of_mem w later)
        · rw [List.mem_singleton.mp now]
          exact first w' later
      · exact last k gone w' (List.mem_cons_of_mem w later)
    · split
      · rename_i drops
        rw [readers_append]
        by_cases reads : inverted w = some p
        · -- no reader of `p` has been dropped, or this one would be a copy
          have none : readers inverted dropped w = 0 :=
            Nat.le_zero.mp ((readers_mono (w :: outputs)).trans (unread w reads).le)
          have even := drops.2
          unfold copied at even
          rw [if_neg new, none, reads, decide_eq_false_iff_not] at even
          change ¬ (0 + readers inverted dropped p) % 2 = 1 at even
          rw [if_pos reads]
          omega
        · rw [if_neg reads]
          exact few
      · exact few

end Chains

theorem GateType.invert_meets (i : Nat) (t : GateType) :
    Meets Fault.Thrown (fun _ => True) (t.invert i) := by
  match i with
  | 0 => exact trivial
  | 1 => exact trivial
  | _ + 2 => exact ⟨_, rfl⟩

namespace DagCircuit

variable {W : Nat} {d₀ d : DagCircuit W} {n q : Fin W}

theorem invertParents_meets (q : Fin W) (i : Nat) (parents : List (Fin W)) (t : GateType) :
    Meets Fault.Thrown (fun _ => True) (invertParents q i parents t) := by
  induction parents generalizing i t with
  | nil => exact trivial
  | cons parent parents ih =>
    unfold invertParents
    split
    · apply (GateType.invert_meets i t).bind
      intro t' _
      exact ih (i + 1) t'
    · exact ih (i + 1) t

theorem invertInput_meets (d : DagCircuit W) (q n : Fin W) :
    Meets Fault.Thrown (fun _ => True) (d.invertInput q n) := by
  unfold invertInput
  split
  · apply (invertParents_meets q 0 _ _).bind
    intro t _
    exact trivial
  · exact ⟨_, rfl⟩

theorem invertOutput_meets (short : ∀ n, (d.mParents n).length ≤ 2) (q : Fin W) :
    Meets Fault.Thrown (fun d' => d' = { d with mType := d.invertedType q })
      (d.invertOutput q) := by
  have ends : Meets Fault.Thrown (fun _ => True) (d.invertOutput q) := by
    unfold invertOutput
    split
    · exact ⟨_, rfl⟩
    · exact meets_foldlM (fun _ _ => True) (fun n _ d _ => invertInput_meets d q n) trivial
  exact ends.of_ok fun d' run => (invertOutput_ok short run).2

theorem eraseChild_total (listed : n ∈ d.mChildren q) : ∃ d', d.eraseChild q n = .ok d' := by
  unfold eraseChild eraseByBack
  rw [if_pos listed]
  exact ⟨_, rfl⟩

theorem dropInvert_meets (short : ∀ n, (d.mParents n).length ≤ 2) (one : d.mParents n = [q])
    (listed : n ∈ d.mChildren q) : Meets Fault.Thrown (fun dropped => dropped.1 = q ∧
      ¬ d.isInput q ∧ d.invertedType q n = .a ∧ ∃ rest, (n :: rest).Perm (d.mChildren q) ∧
        dropped.2 = { d with mType := d.invertedType q, mChildren := update d.mChildren q rest })
      (d.dropInvert n) := by
  have read : readAt (d.mParents n) 0 = .ok q := by rw [one]; rfl
  have ends : Meets Fault.Thrown (fun _ => True) (d.dropInvert n) := by
    unfold dropInvert
    rw [read, ok_bind]
    apply (invertOutput_meets short q).bind
    rintro _ rfl
    split
    · obtain ⟨d', erased⟩ := eraseChild_total (d := { d with mType := d.invertedType q }) listed
      rw [erased]
      exact trivial
    · exact ⟨_, rfl⟩
  apply ends.of_ok
  rintro ⟨p, d'⟩ run
  obtain ⟨here, gate, copy, rest, perm, rfl⟩ := dropInvert_ok short run
  rw [one] at here
  cases here
  exact ⟨rfl, gate, copy, rest, perm, rfl⟩

/-- A graph as it is read: the parent of an INV gate lists it, and no other node does. -/
structure Unreduced (d : DagCircuit W) : Prop where
  inputs : ∀ n, d.isInput n → d.mParents n = []
  gates : ∀ n, d.mParents n = [] ∨ d.isInvert n ∨
    (d.mParents n).length ≤ 2 ∧ (d.mType n).Garblable
  listed : ∀ n, d.isInvert n → ∀ q, (d.mChildren q).count n = (d.mParents n).count q

theorem Unreduced.short (unreduced : d₀.Unreduced) (n : Fin W) : (d₀.mParents n).length ≤ 2 := by
  rcases unreduced.gates n with none | isInv | ⟨few, _⟩
  · rw [none]
    exact Nat.zero_le 2
  · exact isInv.2.le.trans (Nat.le_succ 1)
  · exact few

def inverted (d : DagCircuit W) (w : Nat) : Option Nat :=
  if inside : w < W then
    if d.isInvert ⟨w, inside⟩ then (d.mParents ⟨w, inside⟩).head?.map Fin.val else none
  else none

theorem inverted_of_isInvert (isInv : d.isInvert n) (one : d.mParents n = [q]) :
    d.inverted n.val = some q.val := by
  unfold inverted
  rw [dif_pos n.isLt, if_pos isInv, one]
  rfl

theorem inverted_of_not (noInverter : ¬ d.isInvert n) : d.inverted n.val = none := by
  unfold inverted
  rw [dif_pos n.isLt, if_neg noInverter]

theorem isInvert_of_inverted {w : Nat} (reads : d.inverted n.val = some w) :
    d.isInvert n ∧ ∃ q : Fin W, q.val = w ∧ d.mParents n = [q] := by
  by_cases isInv : d.isInvert n
  · obtain ⟨q, one⟩ := List.length_eq_one_iff.mp isInv.2
    rw [inverted_of_isInvert isInv one, Option.some.injEq] at reads
    exact ⟨isInv, q, reads, one⟩
  · rw [inverted_of_not isInv] at reads
    cases reads

/-- Between two steps of the loop over the outputs: an INV gate is as `copied` says, and its parent
    lists it until it is dropped. -/
structure Complemented (d₀ d : DagCircuit W) (dropped : List Nat) : Prop where
  same : ∃ types children outputs, d = { d₀ with
    mType := types, mChildren := children, mOutputs := outputs }
  tables : ∀ n, (d₀.mType n).Garblable → (d.mType n).Garblable
  types : ∀ n, d₀.isInvert n → d.mType n = if copied d₀.inverted dropped n.val then .a else .na
  listed : ∀ n, d₀.isInvert n → ∀ q,
    (d.mChildren q).count n = if n.val ∈ dropped then 0 else (d₀.mParents n).count q

variable {dropped : List Nat}

theorem Complemented.parents (complemented : Complemented d₀ d dropped) :
    d.mParents = d₀.mParents := by
  obtain ⟨types, children, slots, rfl⟩ := complemented.same
  rfl

theorem complemented_refl (unreduced : d₀.Unreduced) : Complemented d₀ d₀ [] := by
  refine ⟨⟨_, _, _, rfl⟩, fun _ table => table, ?_, ?_⟩
  · intro n isInv
    rw [isInv.1]
    rfl
  · intro n isInv q
    rw [unreduced.listed n isInv q, if_neg List.not_mem_nil]

theorem Complemented.isInvert_of_single (complemented : Complemented d₀ d dropped)
    (unreduced : d₀.Unreduced) (single : (d.mParents n).length = 1)
    (other : ¬ (d.mType n).Garblable) : d₀.isInvert n := by
  rw [complemented.parents] at single
  rcases unreduced.gates n with none | isInv | ⟨_, table⟩
  · rw [none] at single
    cases single
  · exact isInv
  · exact absurd (complemented.tables n table) other

theorem Complemented.isInvert (complemented : Complemented d₀ d dropped)
    (unreduced : d₀.Unreduced) (n : Fin W) :
    d.isInvert n ↔ d₀.isInvert n ∧ copied d₀.inverted dropped n.val = false := by
  constructor
  · intro inverter
    have isInv : d₀.isInvert n :=
      complemented.isInvert_of_single unreduced inverter.2 fun table => by
        rwa [inverter.1] at table
    refine ⟨isInv, ?_⟩
    by_contra copy
    have type := complemented.types n isInv
    rw [if_pos (Bool.eq_true_of_not_eq_false copy), inverter.1] at type
    cases type
  · rintro ⟨isInv, noCopy⟩
    refine ⟨?_, ?_⟩
    · rw [complemented.types n isInv, noCopy]
      rfl
    · rw [complemented.parents]
      exact isInv.2

theorem Complemented.invertedType (complemented : Complemented d₀ d dropped)
    (isInv : d₀.isInvert n) (reads : d₀.mParents n = [q]) {m : Fin W} (isInv' : d₀.isInvert m)
    (apart : m ≠ n) (last : ∀ k ∈ dropped, k < n.val) :
    d.invertedType q m = if copied d₀.inverted (dropped ++ [n.val]) m.val then .a else .na := by
  obtain ⟨p, one⟩ := List.length_eq_one_iff.mp isInv'.2
  have told : (d.told q m && decide ((d.mParents m)[0]? = some q)) =
      (decide (m.val ∉ dropped) && decide (d₀.inverted n.val = d₀.inverted m.val)) := by
    unfold DagCircuit.told
    rw [complemented.listed m isInv' q, complemented.parents, one, inverted_of_isInvert isInv reads,
      inverted_of_isInvert isInv' one]
    by_cases gone : m.val ∈ dropped
    · simp [gone]
    · by_cases same : p = q
      · simp [gone, same]
      · have different : ¬ q.val = p.val := fun equal => same (Fin.ext equal.symm)
        simp [gone, same, different]
  have self : decide (m = q) = decide (d₀.inverted n.val = some m.val) := by
    rw [inverted_of_isInvert isInv reads, decide_eq_decide, Option.some.injEq, Fin.val_inj, eq_comm]
  unfold DagCircuit.invertedType
  rw [told, self, copied_append (fun same => apart (Fin.ext same)) last,
    complemented.types m isInv']
  cases copied d₀.inverted dropped m.val
  · rw [if_neg Bool.false_ne_true, GateType.flip_na, Bool.false_xor]
  · rw [if_pos rfl, GateType.flip_a, Bool.true_xor]
    cases _ ^^ _ <;> rfl

theorem Complemented.drop (complemented : Complemented d₀ d dropped) (isInv : d₀.isInvert n)
    (reads : d₀.mParents n = [q]) (copy : d.invertedType q n = .a)
    (last : ∀ k ∈ dropped, k < n.val) {rest : List (Fin W)}
    (perm : (n :: rest).Perm (d.mChildren q)) :
    Complemented d₀ { d with
      mType := d.invertedType q, mChildren := update d.mChildren q rest } (dropped ++ [n.val]) := by
  have new : n.val ∉ dropped := fun gone => lt_irrefl _ (last _ gone)
  refine ⟨?_, ?_, ?_, ?_⟩
  · obtain ⟨types, children, slots, rfl⟩ := complemented.same
    exact ⟨_, _, _, rfl⟩
  · intro m table
    exact GateType.garblable_flip (complemented.tables m table) _ _ _
  · intro m isInv'
    by_cases same : m = n
    · subst same
      rw [copied_self last]
      exact copy
    · exact complemented.invertedType isInv reads isInv' same last
  · intro m isInv' r
    have before := complemented.listed m isInv' r
    change (update d.mChildren q rest r).count m = _
    by_cases same : m = n
    · subst same
      rw [if_neg new, reads] at before
      rw [if_pos (List.mem_append_right _ (List.mem_singleton_self _))]
      by_cases here : r = q
      · subst here
        rw [← perm.count_eq, List.count_cons_self, List.count_singleton_self] at before
        rw [update_self]
        omega
      · rw [update_of_ne here, before, List.count_singleton]
        simp [Ne.symm here]
    · have stays : m.val ∈ dropped ++ [n.val] ↔ m.val ∈ dropped := by
        simp [Fin.val_inj, same]
      simp only [stays]
      by_cases here : r = q
      · subst here
        rw [← perm.count_eq, List.count_cons_of_ne (Ne.symm same)] at before
        rw [update_self, before]
      · rw [update_of_ne here, before]

/-- The node that an output comes from when these INV gates have been dropped. -/
def moved (d : DagCircuit W) (dropped : List Nat) (n : Fin W) : Fin W :=
  if n.val ∈ dropped then (d.mParents n).headD n else n

theorem moved_of_mem (gone : n.val ∈ dropped) (one : d.mParents n = [q]) :
    d.moved dropped n = q := by
  unfold moved
  rw [if_pos gone, one]
  rfl

theorem moved_of_not (kept : n.val ∉ dropped) : d.moved dropped n = n :=
  if_neg kept

/-- The loop over the outputs, which come in the order of their wires. -/
theorem removeOutputInverts_meets (unreduced : d₀.Unreduced) {outputs : List (Fin W)}
    (sorted : (outputs.map Fin.val).Pairwise (· < ·))
    (last : ∀ k ∈ dropped, ∀ n ∈ outputs, k < n.val) (complemented : Complemented d₀ d dropped) :
    Meets Fault.Thrown (fun removed =>
      ∃ final, final = dropInverts d₀.inverted (outputs.map Fin.val) dropped ∧
        Complemented d₀ removed.2 final ∧
        removed.1 = outputs.map (fun n => some (d₀.moved final n)) ∧
        ∀ n ∈ outputs, n.val ∈ final → ¬ d₀.isInput (d₀.moved final n))
      (removeOutputInverts (outputs.map some) d) := by
  induction outputs generalizing d dropped with
  | nil => exact ⟨_, rfl, complemented, rfl, fun n none => absurd none List.not_mem_nil⟩
  | cons n outputs ih =>
    obtain ⟨first, sorted⟩ := List.pairwise_cons.mp sorted
    have before : ∀ k ∈ dropped, k < n.val := fun k gone => last k gone n List.mem_cons_self
    have new : n.val ∉ dropped := fun gone => lt_irrefl _ (before _ gone)
    have later : n.val ∉ outputs.map Fin.val := fun again => lt_irrefl _ (first _ again)
    rw [List.map_cons, List.map_cons]
    unfold removeOutputInverts dropInverts
    by_cases inverter : d.isInvert n
    · obtain ⟨isInv, noCopy⟩ := (complemented.isInvert unreduced n).mp inverter
      obtain ⟨q, one⟩ := List.length_eq_one_iff.mp isInv.2
      have parents := complemented.parents
      have drops : (d₀.inverted n.val).isSome ∧ copied d₀.inverted dropped n.val = false := by
        rw [inverted_of_isInvert isInv one]
        exact ⟨rfl, noCopy⟩
      have once := complemented.listed n isInv q
      rw [if_neg new, one, List.count_singleton_self] at once
      rw [if_pos inverter, if_pos drops]
      have short (m : Fin W) : (d.mParents m).length ≤ 2 := parents ▸ unreduced.short m
      apply (dropInvert_meets short (parents ▸ one) (List.count_pos_iff.mp (by omega))).bind
      rintro ⟨p, d'⟩ ⟨same, gate, copy, rest, perm, rfl⟩
      obtain rfl : p = q := same
      have last' : ∀ k ∈ dropped ++ [n.val], ∀ m ∈ outputs, k < m.val := by
        intro k gone m behind
        rcases List.mem_append.mp gone with gone | now
        · exact last k gone m (List.mem_cons_of_mem n behind)
        · rw [List.mem_singleton.mp now]
          exact first m.val (List.mem_map_of_mem behind)
      apply (ih sorted last' (complemented.drop isInv one copy before perm)).bind
      rintro ⟨outputs', d'⟩ ⟨final, rfl, complemented', moves, gates⟩
      have gone : n.val ∈ dropInverts d₀.inverted (outputs.map Fin.val) (dropped ++ [n.val]) :=
        subset_dropInverts (List.mem_append_right dropped (List.mem_singleton_self n.val))
      refine ⟨_, rfl, complemented', ?_, ?_⟩
      · rw [List.map_cons, moved_of_mem gone one, ← moves]
      · intro m listed gone'
        rcases List.mem_cons.mp listed with rfl | behind
        · rw [moved_of_mem gone one]
          obtain ⟨types, children, slots, rfl⟩ := complemented.same
          exact gate
        · exact gates m behind gone'
    · have stays : ¬ ((d₀.inverted n.val).isSome ∧ copied d₀.inverted dropped n.val = false) := by
        rintro ⟨some, noCopy⟩
        refine inverter ((complemented.isInvert unreduced n).mpr ⟨?_, noCopy⟩)
        by_contra noInverter
        rw [inverted_of_not noInverter] at some
        cases some
      rw [if_neg inverter, if_neg stays]
      apply (ih sorted (fun k gone m behind => last k gone m (List.mem_cons_of_mem n behind))
        complemented).bind
      rintro ⟨outputs', d'⟩ ⟨final, rfl, complemented', moves, gates⟩
      have notGone : n.val ∉ dropInverts d₀.inverted (outputs.map Fin.val) dropped := by
        intro gone
        rcases mem_dropInverts gone with gone | ⟨again, _⟩
        · exact new gone
        · exact later again
      refine ⟨_, rfl, complemented', ?_, ?_⟩
      · rw [List.map_cons, moved_of_not notGone, ← moves]
      · intro m listed gone
        rcases List.mem_cons.mp listed with rfl | behind
        · exact absurd gone notGone
        · exact gates m behind gone

end DagCircuit

end BatchDualEx
