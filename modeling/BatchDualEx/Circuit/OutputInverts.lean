import BatchDualEx.Circuit.DagToCircuit
import BatchDualEx.Lib.Equations
import Mathlib.Data.List.Count
import Mathlib.Data.List.Perm.Basic

/- The first loop of `removeInvertGates`: what complementing the gates before the INV gates of
   the outputs does to the types of all gates, and to the values of the outputs. -/
namespace BatchDualEx

open Function Result

namespace GateType

theorem invert_zero (t : GateType) : t.invert 0 = .ok (t.flip true false false) := by
  cases t <;> rfl

theorem invert_one (t : GateType) : t.invert 1 = .ok (t.flip false true false) := by
  cases t <;> rfl

theorem complement_eq (t : GateType) : ofCode (~~~t.code) = t.flip false false true := by
  cases t <;> rfl

end GateType

theorem eraseByBack_perm {α : Type} [DecidableEq α] {l l' : List α} {x : α}
    (run : eraseByBack l x = .ok l') : (x :: l').Perm l := by
  unfold eraseByBack at run
  split at run
  case isFalse => cases run
  case isTrue listed =>
    cases run
    obtain ⟨front, last, rfl⟩ : ∃ front last, l = front ++ [last] :=
      ⟨_, _, (List.dropLast_append_getLast (List.ne_nil_of_mem listed)).symm⟩
    rw [List.getLastD_concat]
    by_cases early : x ∈ front
    · have below := List.idxOf_lt_length_of_mem early
      have swapped := List.getD_set_perm_cons front (front.idxOf x) last
      rw [List.getElem?_eq_getElem below, Option.getD_some, List.getElem_idxOf] at swapped
      rw [List.idxOf_append_of_mem early, List.set_append_left _ _ below, List.dropLast_concat]
      exact swapped.trans (List.perm_append_singleton last front).symm
    · have here : x = last := by simpa [early] using listed
      subst here
      have behind : (front ++ [x]).idxOf x = front.length := by
        rw [List.idxOf_append_of_notMem early, List.idxOf_cons_self, Nat.add_zero]
      rw [behind, List.set_append_right _ _ le_rfl, Nat.sub_self, List.set_cons_zero,
        List.dropLast_concat]
      exact (List.perm_append_singleton x front).symm

namespace DagCircuit

variable {W : Nat}

/-- Which inputs of a gate with these parents are complemented when every parent in `S` is and
    the gate is told once for each input that it has there; two equal inputs are told twice. -/
def flips (S : Fin W → Bool) : List (Fin W) → Bool × Bool
  | [parent] => (S parent, false)
  | [parent0, parent1] => if parent0 = parent1 then (false, false) else (S parent0, S parent1)
  | _ => (false, false)

theorem invertParents_ok {q : Fin W} {parents : List (Fin W)} {t t' : GateType}
    (short : parents.length ≤ 2) (run : invertParents q 0 parents t = .ok t') :
    t' = t.flip (parents[0]? = some q) (parents[1]? = some q) false := by
  match parents, short with
  | [], _ =>
    cases run
    exact (GateType.flip_none t).symm
  | [parent], _ =>
    by_cases same : parent = q
    · simp only [invertParents, if_pos same, GateType.invert_zero] at run
      cases run
      simp [same]
    · simp only [invertParents, if_neg same] at run
      cases run
      simp [same]
  | [parent0, parent1], _ =>
    by_cases same0 : parent0 = q <;> by_cases same1 : parent1 = q
    · simp only [invertParents, if_pos same0, if_pos same1, GateType.invert_zero] at run
      obtain ⟨t0, first, run⟩ := bind_ok run
      cases first
      simp only [Nat.zero_add, GateType.invert_one] at run
      cases run
      simp [same0, same1, GateType.flip_flip]
    · simp only [invertParents, if_pos same0, if_neg same1, GateType.invert_zero] at run
      cases run
      simp [same0, same1]
    · simp only [invertParents, if_neg same0, if_pos same1, Nat.zero_add,
        GateType.invert_one] at run
      cases run
      simp [same0, same1]
    · simp only [invertParents, if_neg same0, if_neg same1] at run
      cases run
      simp [same0, same1]

def flipReads (d : DagCircuit W) (q n : Fin W) : GateType :=
  (d.mType n).flip ((d.mParents n)[0]? = some q) ((d.mParents n)[1]? = some q) false

variable {d d' : DagCircuit W}

theorem Shaped.parents_length (shaped : d.Shaped) (n : Fin W) : (d.mParents n).length ≤ 2 := by
  by_cases input : d.isInput n
  · rw [shaped.inputs n input]
    exact Nat.zero_le 2
  · rcases shaped.gates n input with ⟨parent, one, _⟩ | ⟨parent0, parent1, two, _⟩
    · rw [one]
      exact Nat.le_succ 1
    · rw [two]
      exact le_rfl

theorem invertInput_ok (short : ∀ n, (d.mParents n).length ≤ 2) {q n : Fin W}
    (run : d.invertInput q n = .ok d') :
    q ∈ d.mParents n ∧ d' = { d with mType := update d.mType n (d.flipReads q n) } := by
  unfold invertInput at run
  split at run
  case isTrue reads =>
    obtain ⟨t, inverted, run⟩ := bind_ok run
    cases run
    rw [flipReads, ← invertParents_ok (short n) inverted]
    exact ⟨reads, rfl⟩
  case isFalse => cases run

theorem Shaped.of_flips (shaped : d.Shaped) {types : Fin W → GateType}
    (flipped : ∀ n, ∃ in0 in1 out, types n = (d.mType n).flip in0 in1 out)
    (children : Fin W → List (Fin W)) :
    Shaped { d with mType := types, mChildren := children } := by
  refine ⟨shaped.wired, shaped.inputs, fun n gate => ?_⟩
  obtain ⟨in0, in1, out, type⟩ := flipped n
  rcases shaped.gates n gate with ⟨parent, one, kind⟩ | ⟨parent0, parent1, two, table⟩
  · refine .inl ⟨parent, one, ?_⟩
    simp only [type]
    rcases kind with inverter | copy
    · rw [inverter, GateType.flip_na]
      by_cases odd : (in0 ^^ out) = true <;> simp [odd]
    · rw [copy, GateType.flip_a]
      by_cases odd : (in0 ^^ out) = true <;> simp [odd]
  · refine .inr ⟨parent0, parent1, two, ?_⟩
    simp only [type]
    exact GateType.garblable_flip table _ _ _

theorem invertInputs_ok (short : ∀ n, (d.mParents n).length ≤ 2) {q : Fin W}
    {children : List (Fin W)}
    (run : children.foldlM (invertInput · q) d = .ok d') :
    ∃ types, d' = { d with mType := types } ∧ ∀ n, types n = (d.mType n).flip
      (decide (children.count n % 2 = 1) && decide ((d.mParents n)[0]? = some q))
      (decide (children.count n % 2 = 1) && decide ((d.mParents n)[1]? = some q)) false := by
  induction children generalizing d with
  | nil =>
    cases run
    exact ⟨_, rfl, fun n => by simp⟩
  | cons child children ih =>
    obtain ⟨next, first, run⟩ := bind_ok run
    obtain ⟨_, rfl⟩ := invertInput_ok short first
    obtain ⟨types, rfl, flipped⟩ := ih (by exact short) run
    refine ⟨types, rfl, fun n => ?_⟩
    rw [flipped n]
    by_cases same : n = child
    · subst same
      have parity : decide ((children.count n + 1) % 2 = 1) =
          !decide (children.count n % 2 = 1) := by
        rw [← decide_not, decide_eq_decide]
        omega
      simp only [update_self, flipReads, GateType.flip_flip, List.count_cons_self, parity]
      generalize decide (children.count n % 2 = 1) = odd
      cases odd <;> simp
    · simp only [update_of_ne same, List.count_cons_of_ne (Ne.symm same)]

/-- Whether `n` is told an odd number of times that `q` is complemented. -/
def told (d : DagCircuit W) (q n : Fin W) : Bool := decide ((d.mChildren q).count n % 2 = 1)

def invertedType (d : DagCircuit W) (q n : Fin W) : GateType :=
  (d.mType n).flip (d.told q n && decide ((d.mParents n)[0]? = some q))
    (d.told q n && decide ((d.mParents n)[1]? = some q)) (decide (n = q))

theorem invertOutput_ok (short : ∀ n, (d.mParents n).length ≤ 2) {q : Fin W}
    (run : d.invertOutput q = .ok d') :
    ¬ d.isInput q ∧ d' = { d with mType := d.invertedType q } := by
  unfold invertOutput at run
  split at run
  case isTrue => cases run
  case isFalse gate =>
    obtain ⟨types, rfl, flipped⟩ := invertInputs_ok (by exact short) run
    refine ⟨gate, ?_⟩
    congr 1
    funext n
    rw [flipped n]
    by_cases same : n = q
    · subst same
      simp only [update_self, GateType.complement_eq, GateType.flip_flip, invertedType, told,
        Bool.false_xor, Bool.xor_false, decide_true]
    · simp only [update_of_ne same, invertedType, told, same, decide_false]

theorem eraseChild_ok {q n : Fin W} (run : d.eraseChild q n = .ok d') :
    ∃ rest, (n :: rest).Perm (d.mChildren q) ∧
      d' = { d with mChildren := update d.mChildren q rest } := by
  obtain ⟨rest, erased, run⟩ := bind_ok run
  cases run
  exact ⟨rest, eraseByBack_perm erased, rfl⟩

theorem parents_of_isInvert {n : Fin W} (inverter : d.isInvert n) :
    ∃ parent, d.mParents n = [parent] :=
  List.length_eq_one_iff.mp inverter.2

theorem dropInvert_ok (short : ∀ n, (d.mParents n).length ≤ 2) {n q : Fin W}
    (run : d.dropInvert n = .ok (q, d')) :
    (d.mParents n)[0]? = some q ∧ ¬ d.isInput q ∧ d.invertedType q n = .a ∧
      ∃ rest, (n :: rest).Perm (d.mChildren q) ∧
        d' = { d with mType := d.invertedType q, mChildren := update d.mChildren q rest } := by
  obtain ⟨parent, read, run⟩ := bind_ok run
  obtain ⟨next, inverted, run⟩ := bind_ok run
  obtain ⟨gate, rfl⟩ := invertOutput_ok short inverted
  split at run
  case isFalse => cases run
  case isTrue copy =>
    obtain ⟨last, erased, run⟩ := bind_ok run
    obtain ⟨rest, perm, rfl⟩ := eraseChild_ok erased
    cases run
    refine ⟨?_, gate, copy, rest, perm, rfl⟩
    unfold readAt at read
    split at read
    case h_1 here =>
      cases read
      exact here
    case h_2 => cases read

theorem flipped_invertedType (d : DagCircuit W) (q n : Fin W) :
    ∃ in0 in1 out, d.invertedType q n = (d.mType n).flip in0 in1 out :=
  ⟨_, _, _, rfl⟩

def Once (d : DagCircuit W) : Prop :=
  ∀ n parent, d.mParents n = [parent] → (d.mChildren parent).count n ≤ 1

/-- What holds of the outputs that the loop returns, whatever the file is: an output is still
    its own gate, or it is the gate before an INV that has become a copy, unless this INV was
    complemented later and is then itself the gate of an output. -/
structure Dropped (outputs outputs' : List (Option (Fin W))) (d d' : DagCircuit W) : Prop where
  same : ∃ types children, d' = { d with mType := types, mChildren := children }
  shaped : d'.Shaped
  fewer : ∀ q n, (d'.mChildren q).count n ≤ (d.mChildren q).count n
  frozen : ∀ n parent, d.mParents n = [parent] → n ∉ d.mChildren parent →
    d'.mType n = d.mType n ∨ some n ∈ outputs'
  outputs : List.Forall₂ (fun o o' => o' ∈ outputs' ∧ ∃ n, o = some n ∧ (o' = some n ∨
    ∃ parent, d.mParents n = [parent] ∧ o' = some parent ∧
      (d'.mType n = .a ∨ some n ∈ outputs'))) outputs outputs'

theorem invertedType_frozen {n parent q : Fin W} (one : d.mParents n = [parent])
    (unlisted : n ∉ d.mChildren parent) (apart : n ≠ q) : d.invertedType q n = d.mType n := by
  unfold invertedType told
  rw [one, decide_eq_false apart]
  by_cases same : parent = q
  · subst same
    rw [List.count_eq_zero_of_not_mem unlisted]
    exact GateType.flip_none _
  · have other : ¬ (some parent : Option (Fin W)) = some q := fun equal =>
      same (Option.some.inj equal)
    simp [other]

theorem removeOutputInverts_dropped {outputs outputs' : List (Option (Fin W))}
    (shaped : d.Shaped) (once : d.Once)
    (run : removeOutputInverts outputs d = .ok (outputs', d')) :
    Dropped outputs outputs' d d' := by
  induction outputs generalizing d outputs' with
  | nil =>
    cases run
    exact ⟨⟨_, _, rfl⟩, shaped, fun _ _ => le_rfl, fun _ _ _ _ => .inl rfl, .nil⟩
  | cons output outputs ih =>
    cases output with
    | none => cases run
    | some n =>
      simp only [removeOutputInverts] at run
      split at run
      case isTrue inverter =>
        obtain ⟨⟨q, d₁⟩, dropped, run⟩ := bind_ok run
        obtain ⟨⟨rest, d₂⟩, later, run⟩ := bind_ok run
        cases run
        obtain ⟨read, _, copy, kept, perm, rfl⟩ := dropInvert_ok shaped.parents_length dropped
        obtain ⟨parent, one⟩ := parents_of_isInvert inverter
        obtain rfl : parent = q := by
          rw [one] at read
          exact Option.some.inj read
        have fewer : ∀ r m, (update d.mChildren parent kept r).count m ≤
            (d.mChildren r).count m := by
          intro r m
          by_cases same : r = parent
          · subst same
            rw [update_self, ← perm.count_eq]
            exact List.count_le_count_cons
          · rw [update_of_ne same]
        have tail := ih (shaped.of_flips (flipped_invertedType d parent) _)
          (fun m p single => (fewer p m).trans (once m p single)) later
        have gone : n ∉ update d.mChildren parent kept parent := by
          have listed := once n parent one
          rw [← perm.count_eq, List.count_cons_self] at listed
          rw [update_self, ← List.count_eq_zero]
          omega
        refine ⟨?_, tail.shaped, fun r m => (tail.fewer r m).trans (fewer r m), ?_, ?_⟩
        · obtain ⟨types, children, rfl⟩ := tail.same
          exact ⟨types, children, rfl⟩
        · intro m p single unlisted
          have unlistedNow : m ∉ update d.mChildren parent kept p := by
            rw [← List.count_eq_zero, ← Nat.le_zero] at unlisted ⊢
            exact (fewer p m).trans unlisted
          by_cases same : m = parent
          · exact .inr (by rw [same]; exact List.mem_cons_self)
          · rcases tail.frozen m p single unlistedNow with unchanged | output
            · exact .inl (unchanged.trans (invertedType_frozen single unlisted same))
            · exact .inr (List.mem_cons_of_mem _ output)
        · refine .cons ⟨List.mem_cons_self, n, rfl, .inr ⟨parent, one, rfl, ?_⟩⟩
            (tail.outputs.imp ?_)
          · rcases tail.frozen n parent one gone with unchanged | output
            · exact .inl (unchanged.trans copy)
            · exact .inr (List.mem_cons_of_mem _ output)
          · rintro o o' ⟨listed, m, rfl, own | ⟨p, single, rfl, type⟩⟩
            · exact ⟨List.mem_cons_of_mem _ listed, m, rfl, .inl own⟩
            · exact ⟨List.mem_cons_of_mem _ listed, m, rfl,
                .inr ⟨p, single, rfl, type.imp_right (List.mem_cons_of_mem _)⟩⟩
      case isFalse =>
        obtain ⟨⟨rest, d₂⟩, later, run⟩ := bind_ok run
        cases run
        have tail := ih shaped once later
        refine ⟨tail.same, tail.shaped, tail.fewer, fun m parent one unlisted => ?_, ?_⟩
        · exact (tail.frozen m parent one unlisted).imp_right (List.mem_cons_of_mem _)
        · refine .cons ⟨List.mem_cons_self, n, rfl, .inl rfl⟩ (tail.outputs.imp ?_)
          rintro o o' ⟨listed, m, rfl, own | ⟨parent, one, rfl, type⟩⟩
          · exact ⟨List.mem_cons_of_mem _ listed, m, rfl, .inl own⟩
          · exact ⟨List.mem_cons_of_mem _ listed, m, rfl,
              .inr ⟨parent, one, rfl, type.imp_right (List.mem_cons_of_mem _)⟩⟩

def Linked (d : DagCircuit W) : Prop :=
  ∀ q n, (d.mChildren q).count n = (d.mParents n).count q

def Fresh (d : DagCircuit W) : Prop := ∀ n parent, d.mParents n = [parent] → d.mType n = .na

theorem Linked.once (linked : d.Linked) : d.Once := by
  intro n parent one
  rw [linked, one]
  exact List.count_le_length

/-- `d` with the gates of `S` complemented, and their readers told. -/
def markedType (d : DagCircuit W) (S : Fin W → Bool) (n : Fin W) : GateType :=
  (d.mType n).flip (flips S (d.mParents n)).1 (flips S (d.mParents n)).2 (S n)

/-- What the loop has made of `d₀` when it has complemented the gates of `S`. -/
structure Marked (d₀ d : DagCircuit W) (S : Fin W → Bool) : Prop where
  same : ∃ children, d = { d₀ with mType := d₀.markedType S, mChildren := children } ∧
    ∀ q, S q = false → children q = d₀.mChildren q
  gates : ∀ q, S q = true → ¬ d₀.isInput q

theorem flips_insert {S : Fin W → Bool} {q : Fin W} (new : S q = false)
    {parents : List (Fin W)} (short : parents.length ≤ 2) :
    flips (fun n => S n || decide (n = q)) parents =
      ((flips S parents).1 ^^ (decide (parents.count q % 2 = 1) && decide (parents[0]? = some q)),
        (flips S parents).2 ^^
          (decide (parents.count q % 2 = 1) && decide (parents[1]? = some q))) := by
  match parents, short with
  | [], _ => rfl
  | [parent], _ =>
    by_cases same : parent = q
    · subst same
      simp [flips, new]
    · simp [flips, same]
  | [parent0, parent1], _ =>
    by_cases double : parent0 = parent1
    · subst double
      by_cases same : parent0 = q <;> simp [flips, same]
    · by_cases same0 : parent0 = q
      · subst same0
        simp [flips, double, Ne.symm double, new]
      · by_cases same1 : parent1 = q <;> simp [flips, double, same0, same1, new]

theorem Marked.insert {d₀ : DagCircuit W} {S : Fin W → Bool} {q : Fin W} (marked : Marked d₀ d S)
    (shaped : d₀.Shaped) (linked : d₀.Linked) (new : S q = false) (gate : ¬ d₀.isInput q)
    (rest : List (Fin W)) :
    Marked d₀ { d with mType := d.invertedType q, mChildren := update d.mChildren q rest }
      fun n => S n || decide (n = q) := by
  obtain ⟨children, rfl, unchanged⟩ := marked.same
  refine ⟨⟨update children q rest, ?_, fun r old => ?_⟩, fun r listed => ?_⟩
  · congr 1
    funext n
    simp only [invertedType, told, markedType, GateType.flip_flip, unchanged q new, linked q n,
      flips_insert new (shaped.parents_length n)]
    by_cases same : n = q
    · subst same
      simp [new]
    · simp [same]
  · simp only [Bool.or_eq_false_iff, decide_eq_false_iff_not] at old
    rw [update_of_ne old.2]
    exact unchanged r old.1
  · rcases Bool.or_eq_true_iff.mp listed with old | same
    · exact marked.gates r old
    · rw [of_decide_eq_true same]
      exact gate

theorem Marked.shaped {d₀ : DagCircuit W} {S : Fin W → Bool} (marked : Marked d₀ d S)
    (shaped : d₀.Shaped) : d.Shaped := by
  obtain ⟨children, rfl, _⟩ := marked.same
  exact shaped.of_flips (fun n => ⟨_, _, _, rfl⟩) children

/-- The gate before an INV of an output, where that INV has no other use as an output, is
    complemented once, and no other gate is. -/
theorem removeOutputInverts_marked {d₀ : DagCircuit W} {F S : Fin W → Bool}
    {outputs outputs' : List (Option (Fin W))} (shaped : d₀.Shaped) (linked : d₀.Linked)
    (fresh : d₀.Fresh) (marked : Marked d₀ d S) (inside : ∀ q, S q = true → F q = true)
    (fed : ∀ n q, some n ∈ outputs → d₀.mParents n = [q] → F q = true)
    (apart : ∀ n, some n ∈ outputs → F n = false)
    (run : removeOutputInverts outputs d = .ok (outputs', d')) :
    ∃ S', Marked d₀ d' S' ∧ (∀ q, S q = true → S' q = true) ∧ (∀ q, S' q = true → F q = true) ∧
      (∀ n q, some n ∈ outputs → d₀.mParents n = [q] → S' q = true) ∧
      List.Forall₂ (fun o o' => ∃ n, o = some n ∧
        (o' = some n ∨ ∃ q, d₀.mParents n = [q] ∧ o' = some q)) outputs outputs' := by
  induction outputs generalizing d S outputs' with
  | nil =>
    cases run
    exact ⟨S, marked, fun _ => id, inside, fun n q none => absurd none List.not_mem_nil, .nil⟩
  | cons output outputs ih =>
    have fedTail := fun n q listed => fed n q (List.mem_cons_of_mem _ listed)
    have apartTail := fun n listed => apart n (List.mem_cons_of_mem _ listed)
    cases output with
    | none => cases run
    | some n =>
      simp only [removeOutputInverts] at run
      obtain ⟨children, same, unchanged⟩ := marked.same
      have parents : d.mParents n = d₀.mParents n := by rw [same]
      have unmarked : S n = false := by
        by_contra listed
        rw [Bool.not_eq_false] at listed
        have := apart n List.mem_cons_self
        rw [inside n listed] at this
        exact Bool.noConfusion this
      -- an INV of an output is told only that its own parent is complemented
      have type : ∀ q, d₀.mParents n = [q] → d.mType n = if S q then .a else .na := by
        intro q one
        rw [same]
        simp only [markedType, one, flips, unmarked, fresh n q one, GateType.flip_na,
          Bool.xor_false]
      split at run
      case isTrue inverter =>
        obtain ⟨⟨q, d₁⟩, dropped, run⟩ := bind_ok run
        obtain ⟨⟨rest, d₂⟩, later, run⟩ := bind_ok run
        cases run
        obtain ⟨read, gate, _, kept, _, rfl⟩ :=
          dropInvert_ok (marked.shaped shaped).parents_length dropped
        obtain ⟨parent, one⟩ := parents_of_isInvert inverter
        obtain rfl : parent = q := by
          rw [one] at read
          exact Option.some.inj read
        rw [parents] at one
        have new : S parent = false := by
          by_contra listed
          rw [Bool.not_eq_false] at listed
          have := inverter.1
          rw [type parent one, if_pos listed] at this
          exact GateType.noConfusion this
        have feeds := fed n parent List.mem_cons_self one
        have gate₀ : ¬ d₀.isInput parent := by
          rw [same] at gate
          exact gate
        have insideNow : ∀ r, (S r || decide (r = parent)) = true → F r = true := by
          intro r listed
          rcases Bool.or_eq_true_iff.mp listed with old | equal
          · exact inside r old
          · rw [of_decide_eq_true equal]
            exact feeds
        obtain ⟨S', marked', grows, within, covers, agree⟩ :=
          ih (marked.insert shaped linked new gate₀ kept) insideNow fedTail apartTail later
        refine ⟨S', marked', fun r old => grows r (by simp [old]), within, ?_,
          .cons ⟨n, rfl, .inr ⟨parent, one, rfl⟩⟩ agree⟩
        intro m r listed single
        rcases List.mem_cons.mp listed with here | behind
        · cases here
          rw [one] at single
          cases single
          exact grows parent (by simp)
        · exact covers m r behind single
      case isFalse kept =>
        obtain ⟨⟨rest, d₂⟩, later, run⟩ := bind_ok run
        cases run
        obtain ⟨S', marked', grows, within, covers, agree⟩ :=
          ih marked inside fedTail apartTail later
        refine ⟨S', marked', grows, within, ?_, .cons ⟨n, rfl, .inl rfl⟩ agree⟩
        intro m r listed single
        rcases List.mem_cons.mp listed with here | behind
        · cases here
          refine grows r ?_
          by_contra unlisted
          refine kept ⟨?_, ?_⟩
          · rw [type r single, if_neg unlisted]
          · rw [parents, single]
            rfl
        · exact covers m r behind single

theorem Dropped.mParents_eq {outputs outputs' : List (Option (Fin W))}
    (dropped : Dropped outputs outputs' d d') : d'.mParents = d.mParents := by
  obtain ⟨types, children, rfl⟩ := dropped.same
  rfl

theorem Dropped.listed {outputs outputs' : List (Option (Fin W))}
    (dropped : Dropped outputs outputs' d d') (linked : d.Linked) {n q : Fin W}
    (inverter : d'.isInvert n) (here : n ∈ d'.mChildren q) :
    d'.mParents n = [q] ∧ (d'.mChildren q).count n ≤ 1 := by
  obtain ⟨only, one⟩ := parents_of_isInvert inverter
  have reads := dropped.fewer q n
  rw [linked, ← dropped.mParents_eq, one] at reads
  have listed := List.count_pos_iff.mpr here
  have same : q ∈ [only] := List.count_pos_iff.mp (by omega)
  rw [one, List.mem_singleton.mp same]
  exact ⟨rfl, (List.mem_singleton.mp same ▸ reads).trans List.count_le_length⟩

section Values

variable {x : List Bool} {v : Fin W → Bool}

theorem apply_one {t : GateType} (kind : t = .na ∨ t = .a) (y other : Bool) :
    t.apply y other = t.apply y false := by
  rcases kind with rfl | rfl <;> revert y other <;> decide

def Ranked (d : DagCircuit W) (rank : Fin W → Nat) : Prop :=
  ∀ n, ∀ parent ∈ d.mParents n, rank parent < rank n

def equation (d : DagCircuit W) (x : List Bool) (n : Fin W) (v : Fin W → Bool) : Bool :=
  if d.isInput n then x.getD n.val false
  else match d.mParents n with
    | [] => false
    | [parent] => (d.mType n).apply (v parent) false
    | parent0 :: parent1 :: _ => (d.mType n).apply (v parent0) (v parent1)

theorem exists_solves {rank : Fin W → Nat} (shaped : d.Shaped) (ranked : d.Ranked rank)
    (x : List Bool) : ∃ v, d.Solves x v := by
  have acyclic : Equations.Acyclic rank (d.equation x) := by
    intro n v v' agree
    unfold equation
    split
    · rfl
    · have parents := ranked n
      split
      case h_1 => rfl
      case h_2 parent one =>
        rw [agree parent (parents parent (by rw [one]; exact List.mem_cons_self))]
      case h_3 parent0 parent1 _ two =>
        rw [agree parent0 (parents parent0 (by rw [two]; simp)),
          agree parent1 (parents parent1 (by rw [two]; simp))]
  obtain ⟨v, solution⟩ := Equations.exists_solution acyclic
  refine ⟨v, fun n input => ?_, fun n gate => ?_⟩
  · rw [solution n, equation, if_pos input]
  · have value := solution n
    rw [equation, if_neg gate] at value
    unfold Computes
    rcases shaped.gates n gate with ⟨parent, one, kind⟩ | ⟨parent0, parent1, two, _⟩
    · simp only [one] at value ⊢
      intro other
      rw [apply_one kind, value]
    · simp only [two] at value ⊢
      exact value

/-- `d` with every gate of two inputs that reads one gate of `F` twice changed as if this gate
    were complemented. -/
def doubled (d : DagCircuit W) (F : Fin W → Bool) : DagCircuit W :=
  { d with mType := fun n => match d.mParents n with
    | [parent0, parent1] =>
      if parent0 = parent1 ∧ F parent0 = true then (d.mType n).flip true true false
      else d.mType n
    | _ => d.mType n }

/-- Complementing the gates of `F` complements their values, but the gates that read one of
    them twice are not told. -/
theorem Marked.solves {d₀ : DagCircuit W} {F : Fin W → Bool} (marked : Marked d₀ d F)
    (shaped : d₀.Shaped) (solves : (d₀.doubled F).Solves x v) :
    d.Solves x fun n => v n ^^ F n := by
  obtain ⟨children, rfl, _⟩ := marked.same
  refine ⟨fun n input => ?_, fun n gate => ?_⟩
  · have unmarked : F n = false := by
      by_contra listed
      exact marked.gates n (Bool.not_eq_false _ ▸ listed) input
    rw [unmarked, Bool.xor_false]
    exact solves.inputs n input
  · have computes := solves.computes n gate
    unfold Computes at computes ⊢
    rcases shaped.gates n gate with ⟨parent, one, _⟩ | ⟨parent0, parent1, two, _⟩
    · simp only [doubled, one, markedType, flips] at computes ⊢
      intro other
      rw [GateType.apply_flip, computes (other ^^ false)]
      simp
    · simp only [doubled, two, markedType, flips] at computes ⊢
      by_cases double : parent0 = parent1
      · subst double
        rw [if_pos rfl, GateType.apply_flip, computes]
        cases F parent0 <;> simp [GateType.apply_flip]
      · simp only [double, false_and, if_false] at computes ⊢
        rw [GateType.apply_flip, computes]
        simp

theorem Solves.copy (solves : d.Solves x v) (shaped : d.Shaped) {n parent : Fin W}
    (one : d.mParents n = [parent]) (noInverter : ¬ d.isInvert n) : v n = v parent := by
  have gate : ¬ d.isInput n := by
    intro input
    rw [shaped.inputs n input] at one
    cases one
  have computes := solves.computes n gate
  rcases shaped.gates n gate with ⟨_, _, kind⟩ | ⟨_, _, two, _⟩
  · have copy := kind.resolve_left fun inverter => noInverter ⟨inverter, by rw [one]; rfl⟩
    simp only [Computes, one, copy] at computes
    rw [computes false]
    cases v parent <;> rfl
  · rw [one] at two
    cases two

/-- When no output is left at an inverter, every output has the value of its own gate, and an
    INV of an output the value of the gate before it. -/
theorem Dropped.values {outputs outputs' : List (Option (Fin W))}
    (dropped : Dropped outputs outputs' d d') (solves : d'.Solves x v)
    (noInverter : ∀ n, some n ∈ outputs' → ¬ d'.isInvert n) :
    List.Forall₂ (fun o o' => ∃ n m, o = some n ∧ o' = some m ∧ v m = v n ∧
      ∀ parent, d.mParents n = [parent] → v n = v parent) outputs outputs' := by
  have parents := dropped.mParents_eq
  refine dropped.outputs.imp ?_
  rintro o o' ⟨listed, n, rfl, rfl | ⟨parent, one, rfl, type⟩⟩
  · refine ⟨n, n, rfl, rfl, rfl, fun parent one => ?_⟩
    rw [← parents] at one
    exact solves.copy dropped.shaped one (noInverter n listed)
  · have copied : v n = v parent := by
      rw [← parents] at one
      refine solves.copy dropped.shaped one ?_
      rcases type with copy | output
      · exact fun inverter => GateType.noConfusion (copy.symm.trans inverter.1)
      · exact noInverter n output
    refine ⟨n, parent, rfl, rfl, copied.symm, fun p single => ?_⟩
    rw [one] at single
    cases single
    exact copied

end Values

end DagCircuit

end BatchDualEx
