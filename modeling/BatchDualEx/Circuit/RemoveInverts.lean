import BatchDualEx.Circuit.DropInverts

/- `removeInvertGates` on a graph whose gates may be driven twice, not at all or in a cycle: it ends
   or throws, and afterwards no INV gate can be reached. -/
namespace BatchDualEx

open Function Result

namespace DagCircuit

variable {W : Nat} {d₀ d₁ d d' : DagCircuit W} {n q : Fin W}

def isCopy (d : DagCircuit W) (n : Fin W) : Prop := d.mType n = .a ∧ (d.mParents n).length = 1

theorem Complemented.isCopy {dropped : List Nat} (complemented : Complemented d₀ d dropped)
    (unreduced : d₀.Unreduced) (n : Fin W) :
    d.isCopy n ↔ d₀.isInvert n ∧ copied d₀.inverted dropped n.val = true := by
  have parents := complemented.parents
  constructor
  · rintro ⟨copy, one⟩
    have isInv : d₀.isInvert n := complemented.isInvert_of_single unreduced one fun table => by
      rwa [copy] at table
    refine ⟨isInv, ?_⟩
    by_contra noCopy
    rw [complemented.types n isInv, if_neg noCopy] at copy
    cases copy
  · rintro ⟨isInv, copy⟩
    refine ⟨?_, ?_⟩
    · rw [complemented.types n isInv, if_pos copy]
    · rw [parents]
      exact isInv.2

structure Settling (d : DagCircuit W) : Prop where
  inputs : ∀ n, d.isInput n → d.mParents n = []
  gates : ∀ n, d.mParents n = [] ∨ d.isInvert n ∨ d.isCopy n ∨ (d.mType n).Garblable
  listed : ∀ n parent, d.isInvert n → d.mParents n = [parent] → (d.mChildren parent).count n = 1
  lists : ∀ n q, d.isInvert n → n ∈ d.mChildren q → d.mParents n = [q]

/-- The dropped INV gates are copies at the end, so that the others are still listed. -/
theorem Complemented.settling {dropped : List Nat} (complemented : Complemented d₀ d dropped)
    (unreduced : d₀.Unreduced) (settled : ∀ w ∈ dropped, copied d₀.inverted dropped w = true) :
    d.Settling := by
  have parents := complemented.parents
  have kept (n : Fin W) (inverter : d.isInvert n) : d₀.isInvert n ∧ n.val ∉ dropped := by
    obtain ⟨isInv, noCopy⟩ := (complemented.isInvert unreduced n).mp inverter
    refine ⟨isInv, fun gone => ?_⟩
    rw [settled n.val gone] at noCopy
    cases noCopy
  refine ⟨?_, ?_, ?_, ?_⟩
  · intro n input
    rw [parents]
    apply unreduced.inputs
    obtain ⟨types, children, slots, rfl⟩ := complemented.same
    exact input
  · intro n
    rw [parents]
    rcases unreduced.gates n with none | isInv | ⟨_, table⟩
    · exact .inl none
    · refine .inr ?_
      by_cases inverter : d.isInvert n
      · exact .inl inverter
      · rw [complemented.isInvert unreduced, not_and, Bool.not_eq_false] at inverter
        exact .inr (.inl ((complemented.isCopy unreduced n).mpr ⟨isInv, inverter isInv⟩))
    · exact .inr (.inr (.inr (complemented.tables n table)))
  · intro n parent inverter one
    obtain ⟨isInv, stays⟩ := kept n inverter
    rw [complemented.listed n isInv, if_neg stays, ← parents, one, List.count_singleton_self]
  · intro n q inverter here
    obtain ⟨isInv, stays⟩ := kept n inverter
    obtain ⟨parent, one⟩ := parents_of_isInvert inverter
    have listed := List.count_pos_iff.mpr here
    rw [complemented.listed n isInv, if_neg stays, ← parents, one, List.count_pos_iff] at listed
    rw [one, List.mem_singleton.mp listed]

/-- What a gate reads afterwards instead of `p`: what an INV gate reads, and something that is
    `blocked` instead of a copy. -/
structure Replaced (d₁ : DagCircuit W) (blocked : Fin W → Prop) (p p' : Fin W) : Prop where
  kept : ¬ d₁.isInvert p'
  inverter : d₁.isInvert p → d₁.mParents p = [p']
  copy : d₁.isCopy p → blocked p'
  other : ¬ d₁.isInvert p → ¬ d₁.isCopy p → p' = p

/-- Between two steps of the loop over the gates, which started with `d₁`: INV gates are as they
    were, a copy that has absorbed one reads something that is `blocked`, and the inputs in `clean`
    have been replaced. -/
structure Absorbing (d₁ d : DagCircuit W) (blocked touched : Fin W → Prop)
    (clean : Fin W → Nat → Prop) : Prop where
  same : ∃ types parents children,
    d = { d₁ with mType := types, mParents := parents, mChildren := children }
  lengths : ∀ n, (d.mParents n).length = (d₁.mParents n).length
  inverters : ∀ n, d₁.isInvert n → d.mType n = .na ∧ d.mParents n = d₁.mParents n
  tables : ∀ n, (d₁.mType n).Garblable → (d.mType n).Garblable
  copies : ∀ n, d₁.isCopy n → d.mType n = .a ∨
    clean n 0 ∧ ∃ q, d.mParents n = [q] ∧ blocked q ∧ ¬ d₁.isInvert q
  replaced : ∀ n i p, ¬ d₁.isInvert n → clean n i → (d₁.mParents n)[i]? = some p →
    ∃ p', (d.mParents n)[i]? = some p' ∧ d₁.Replaced blocked p p'
  waiting : ∀ n i, ¬ d₁.isInvert n → ¬ clean n i → (d.mParents n)[i]? = (d₁.mParents n)[i]?
  listed : ∀ n parent, d₁.isInvert n → d₁.mParents n = [parent] → ¬ touched n →
    (d.mChildren parent).count n = 1
  lists : ∀ n q, d₁.isInvert n → n ∈ d.mChildren q → d₁.mParents n = [q] ∧ ¬ touched n

variable {blocked touched touched' : Fin W → Prop} {clean clean' : Fin W → Nat → Prop}

theorem isInvert_not_isCopy (inverter : d.isInvert n) : ¬ d.isCopy n := by
  rintro ⟨copy, _⟩
  rw [inverter.1] at copy
  cases copy

theorem Absorbing.isInvert (absorbing : Absorbing d₁ d blocked touched clean)
    (inverter : d₁.isInvert n) : d.isInvert n := by
  refine ⟨(absorbing.inverters n inverter).1, ?_⟩
  rw [absorbing.lengths n]
  exact inverter.2

theorem Absorbing.cases_of_isInvert (settling : d₁.Settling)
    (absorbing : Absorbing d₁ d blocked touched clean) (inverter : d.isInvert n) :
    d₁.isInvert n ∨ d₁.isCopy n ∧ clean n 0 ∧
      ∃ q, d.mParents n = [q] ∧ blocked q ∧ ¬ d₁.isInvert q := by
  rcases settling.gates n with none | isInv | isCopy | table
  · have one := inverter.2
    rw [absorbing.lengths n, none] at one
    cases one
  · exact .inl isInv
  · refine .inr ⟨isCopy, ?_⟩
    rcases absorbing.copies n isCopy with copy | absorbed
    · rw [inverter.1] at copy
      cases copy
    · exact absorbed
  · have table' := absorbing.tables n table
    rw [inverter.1] at table'
    exact table'.elim

theorem Absorbing.weaken (absorbing : Absorbing d₁ d blocked touched clean)
    (same : ∀ n, d₁.isInvert n → (touched' n ↔ touched n))
    (cleaner : ∀ n i, ¬ d₁.isInvert n → i < (d₁.mParents n).length → (clean' n i ↔ clean n i)) :
    Absorbing d₁ d blocked touched' clean' := by
  refine { absorbing with copies := ?_, replaced := ?_, waiting := ?_, listed := ?_, lists := ?_ }
  · intro n isCopy
    have one : 0 < (d₁.mParents n).length := isCopy.2.symm ▸ Nat.one_pos
    refine (absorbing.copies n isCopy).imp_right (And.imp_left ?_)
    exact (cleaner n 0 (fun inverter => isInvert_not_isCopy inverter isCopy) one).mpr
  · intro n i p noInverter isClean reads
    have below := (List.getElem?_eq_some_iff.mp reads).1
    exact absorbing.replaced n i p noInverter ((cleaner n i noInverter below).mp isClean) reads
  · intro n i noInverter dirty
    by_cases below : i < (d₁.mParents n).length
    · exact absorbing.waiting n i noInverter fun isClean =>
        dirty ((cleaner n i noInverter below).mpr isClean)
    · have beyond := absorbing.lengths n
      rw [List.getElem?_eq_none (by omega), List.getElem?_eq_none (by omega)]
  · intro n parent inverter one untouched
    exact absorbing.listed n parent inverter one fun old =>
      untouched ((same n inverter).mpr old)
  · intro n q inverter here
    obtain ⟨one, untouched⟩ := absorbing.lists n q inverter here
    exact ⟨one, fun new => untouched ((same n inverter).mp new)⟩

theorem absorbing_refl (settling : d.Settling) :
    Absorbing d d blocked (fun _ => False) fun _ _ => False where
  same := ⟨_, _, _, rfl⟩
  lengths := fun _ => rfl
  inverters := fun _ inverter => ⟨inverter.1, rfl⟩
  tables := fun _ table => table
  copies := fun _ isCopy => .inl isCopy.1
  replaced := fun _ _ _ _ never => never.elim
  waiting := fun _ _ _ _ => rfl
  listed := fun n parent inverter one _ => settling.listed n parent inverter one
  lists := fun n q inverter here => ⟨settling.lists n q inverter here, id⟩

theorem absorbParent_meets {gate : Fin W} {i : Nat} (inside : i < (d.mParents gate).length) :
    Meets Fault.Thrown (fun _ => True) (d.absorbParent gate i) := by
  have read : readAt (d.mParents gate) i = .ok (d.mParents gate)[i] := by
    unfold readAt
    rw [List.getElem?_eq_getElem inside]
  unfold absorbParent
  rw [read, ok_bind]
  split
  · rename_i inverter
    obtain ⟨parent, one⟩ := parents_of_isInvert inverter
    rw [one]
    change Meets _ _ (GateType.invert i _ >>= _)
    apply (GateType.invert_meets i _).bind
    intro t _
    dsimp only
    split
    · exact ⟨_, rfl⟩
    · exact trivial
  · exact trivial

/-- Nodes that a copy may come to read: those that copies are, and those before two INV gates. -/
structure Blocks (d₁ : DagCircuit W) (blocked : Fin W → Prop) : Prop where
  copies : ∀ n, d₁.isCopy n → blocked n
  behind : ∀ n p q, d₁.isCopy n → d₁.mParents n = [p] → d₁.isInvert p → d₁.mParents p = [q] →
    ¬ d₁.isInvert q → blocked q

theorem Absorbing.absorb (settling : d₁.Settling) (blocks : d₁.Blocks blocked)
    (absorbing : Absorbing d₁ d blocked touched clean) {gate : Fin W} {k : Nat}
    (noInverter : ¬ d₁.isInvert gate) (unclean : ¬ clean gate k)
    (run : d.absorbParent gate k = .ok d') :
    Absorbing d₁ d' blocked touched fun n i => clean n i ∨ n = gate ∧ i = k := by
  obtain ⟨parent, reads, ⟨kept, rfl⟩ | ⟨inverter, newParent, one, other, rfl⟩⟩ :=
    absorbParent_ok run
  · have noInv : ¬ d₁.isInvert parent := fun inverter => kept (absorbing.isInvert inverter)
    refine { absorbing with copies := ?_, replaced := ?_, waiting := ?_ }
    · intro n isCopy
      exact (absorbing.copies n isCopy).imp_right (And.imp_left .inl)
    · rintro n i p notSelf (before | ⟨rfl, rfl⟩) reads₁
      · exact absorbing.replaced n i p notSelf before reads₁
      · rw [← absorbing.waiting n i notSelf unclean, reads] at reads₁
        cases reads₁
        exact ⟨parent, reads, noInv, fun inverter => absurd inverter noInv,
          blocks.copies parent, fun _ _ => rfl⟩
    · intro n i notSelf new
      exact absorbing.waiting n i notSelf fun before => new (.inl before)
  · have reads₁ : (d₁.mParents gate)[k]? = some parent := by
      rw [← absorbing.waiting gate k noInverter unclean, reads]
    have inside := (List.getElem?_eq_some_iff.mp reads).1
    have newClean : ¬ d₁.isInvert newParent := by
      by_cases self : newParent = gate
      · rw [self]
        exact noInverter
      · exact fun inverter => other self (absorbing.isInvert inverter)
    have origin : d₁.isInvert parent ∧ d₁.mParents parent = [newParent] ∨
        d₁.isCopy parent ∧ blocked newParent := by
      rcases absorbing.cases_of_isInvert settling inverter with
        isInv | ⟨isCopy, _, q, single, isBlocked, _⟩
      · rw [← (absorbing.inverters parent isInv).2]
        exact .inl ⟨isInv, one⟩
      · rw [one] at single
        cases single
        exact .inr ⟨isCopy, isBlocked⟩
    have replaced : d₁.Replaced blocked parent newParent := by
      refine ⟨newClean, ?_, ?_, ?_⟩
      · intro isInv
        rcases origin with ⟨_, single⟩ | ⟨isCopy, _⟩
        · exact single
        · exact absurd isCopy (isInvert_not_isCopy isInv)
      · intro isCopy
        rcases origin with ⟨isInv, _⟩ | ⟨_, isBlocked⟩
        · exact absurd isCopy (isInvert_not_isCopy isInv)
        · exact isBlocked
      · intro noInv noCopy
        rcases origin with ⟨isInv, _⟩ | ⟨isCopy, _⟩
        · exact absurd isInv noInv
        · exact absurd isCopy noCopy
    refine ⟨?_, ?_, ?_, ?_, ?_, ?_, ?_, ?_, ?_⟩
    · obtain ⟨types, parents, children, rfl⟩ := absorbing.same
      exact ⟨_, _, _, rfl⟩
    · intro n
      by_cases same : n = gate
      · subst same
        simp only [absorbed, update_self, List.length_set]
        exact absorbing.lengths n
      · simp only [absorbed, update_of_ne same]
        exact absorbing.lengths n
    · intro n isInv
      have apart : n ≠ gate := by
        rintro rfl
        exact noInverter isInv
      simp only [absorbed, update_of_ne apart]
      exact absorbing.inverters n isInv
    · intro n table₁
      have table := absorbing.tables n table₁
      by_cases same : n = gate
      · subst same
        simp only [absorbed, update_self]
        exact GateType.garblable_flip table _ _ _
      · simp only [absorbed, update_of_ne same]
        exact table
    · intro n isCopy
      by_cases same : n = gate
      · -- the copy is an INV gate again, behind a node that is blocked
        subst same
        obtain ⟨p, single⟩ := List.length_eq_one_iff.mp ((absorbing.lengths n).trans isCopy.2)
        obtain ⟨p₁, single₁⟩ := List.length_eq_one_iff.mp isCopy.2
        rw [single] at inside
        obtain rfl : k = 0 := Nat.lt_one_iff.mp inside
        rw [single₁] at reads₁
        cases reads₁
        refine .inr ⟨.inr ⟨rfl, rfl⟩, newParent, ?_, ?_, newClean⟩
        · simp only [absorbed, update_self, single]
          rfl
        · rcases origin with ⟨isInv, behind⟩ | ⟨_, isBlocked⟩
          · exact blocks.behind n parent newParent isCopy single₁ isInv behind newClean
          · exact isBlocked
      · simp only [absorbed, update_of_ne same]
        exact (absorbing.copies n isCopy).imp_right (And.imp_left .inl)
    · intro n i p notSelf isClean here
      by_cases same : n = gate
      · subst same
        simp only [absorbed, update_self]
        by_cases now : i = k
        · subst now
          rw [reads₁] at here
          cases here
          exact ⟨newParent, List.getElem?_set_self inside, replaced⟩
        · rw [List.getElem?_set_ne (Ne.symm now)]
          exact absorbing.replaced n i p notSelf (isClean.resolve_right fun both => now both.2) here
      · simp only [absorbed, update_of_ne same]
        exact absorbing.replaced n i p notSelf (isClean.resolve_right fun both => same both.1) here
    · intro n i notSelf isDirty
      rw [not_or] at isDirty
      by_cases same : n = gate
      · subst same
        have away : k ≠ i := fun now => isDirty.2 ⟨rfl, now.symm⟩
        simp only [absorbed, update_self]
        rw [List.getElem?_set_ne away]
        exact absorbing.waiting n i notSelf isDirty.1
      · simp only [absorbed, update_of_ne same]
        exact absorbing.waiting n i notSelf isDirty.1
    · intro n p isInverter single untouched
      have apart : n ≠ gate := by
        rintro rfl
        exact noInverter isInverter
      have once := absorbing.listed n p isInverter single untouched
      by_cases same : p = newParent
      · subst same
        simp only [absorbed, update_self]
        rw [List.count_append, List.count_singleton, if_neg (by simpa using Ne.symm apart)]
        exact once
      · simp only [absorbed, update_of_ne same]
        exact once
    · intro n q isInverter here
      have apart : n ≠ gate := by
        rintro rfl
        exact noInverter isInverter
      apply absorbing.lists n q isInverter
      by_cases same : q = newParent
      · subst same
        simp only [absorbed, update_self, List.mem_append, List.mem_singleton] at here
        exact here.resolve_right apart
      · simp only [absorbed, update_of_ne same] at here
        exact here

theorem Absorbing.erase (absorbing : Absorbing d₁ d blocked touched clean) {gate parent : Fin W}
    {rest : List (Fin W)} (inverter : d₁.isInvert gate) (one : d₁.mParents gate = [parent])
    (untouched : ¬ touched gate) (perm : (gate :: rest).Perm (d.mChildren parent)) :
    Absorbing d₁ { d with mChildren := update d.mChildren parent rest }
      blocked (fun n => touched n ∨ n = gate) clean := by
  have once := absorbing.listed gate parent inverter one untouched
  rw [← perm.count_eq, List.count_cons_self] at once
  refine ⟨?_, absorbing.lengths, absorbing.inverters, absorbing.tables, absorbing.copies,
    absorbing.replaced, absorbing.waiting, ?_, ?_⟩
  · obtain ⟨types, parents, children, rfl⟩ := absorbing.same
    exact ⟨_, _, _, rfl⟩
  · intro n p isInverter single new
    rw [not_or] at new
    have before := absorbing.listed n p isInverter single new.1
    by_cases same : p = parent
    · subst same
      change (update d.mChildren p rest p).count n = 1
      rwa [update_self, ← List.count_cons_of_ne (Ne.symm new.2), perm.count_eq]
    · change (update d.mChildren parent rest p).count n = 1
      rwa [update_of_ne same]
  · intro n q isInverter here
    change n ∈ update d.mChildren parent rest q at here
    by_cases same : q = parent
    · subst same
      rw [update_self] at here
      obtain ⟨single, new⟩ := absorbing.lists n q isInverter
        (perm.subset (List.mem_cons_of_mem gate here))
      refine ⟨single, ?_⟩
      rintro (old | rfl)
      · exact new old
      · have := List.count_pos_iff.mpr here
        omega
    · rw [update_of_ne same] at here
      obtain ⟨single, new⟩ := absorbing.lists n q isInverter here
      refine ⟨single, ?_⟩
      rintro (old | rfl)
      · exact new old
      · rw [one] at single
        cases single
        exact same rfl

theorem reduceInvert_meets (settling : d₁.Settling) (blocks : d₁.Blocks blocked) {gate : Fin W}
    {rest : List (Fin W)} (new : gate ∉ rest)
    (absorbing : Absorbing d₁ d blocked (· ∉ gate :: rest) fun n _ => n ∉ gate :: rest) :
    Meets Fault.Thrown (fun d' => Absorbing d₁ d' blocked (· ∉ rest) fun n _ => n ∉ rest)
      (d.reduceInvert gate) := by
  have others (n : Fin W) (apart : n ≠ gate) : n ∉ rest ↔ n ∉ gate :: rest := by
    simp [apart]
  unfold reduceInvert
  by_cases inverter : d₁.isInvert gate
  · rw [if_pos (absorbing.isInvert inverter)]
    obtain ⟨parent, one⟩ := parents_of_isInvert inverter
    have untouched : ¬ gate ∉ gate :: rest := not_not.mpr List.mem_cons_self
    have once := absorbing.listed gate parent inverter one untouched
    obtain ⟨d', run⟩ := eraseChild_total (List.count_pos_iff.mp (once ▸ Nat.one_pos))
    obtain ⟨children, perm, rfl⟩ := eraseChild_ok run
    have read : readAt (d.mParents gate) 0 = .ok parent := by
      rw [(absorbing.inverters gate inverter).2, one]
      rfl
    rw [read, ok_bind, run]
    apply (absorbing.erase inverter one untouched perm).weaken
    · intro n _
      by_cases same : n = gate
      · simp [same, new]
      · simp [same]
    · intro n i noInverter _
      apply others n
      rintro rfl
      exact noInverter inverter
  · have notNow : ¬ d.isInvert gate := by
      intro now
      rcases absorbing.cases_of_isInvert settling now with isInv | ⟨_, processed, _⟩
      · exact inverter isInv
      · exact processed List.mem_cons_self
    rw [if_neg notNow]
    refine (meets_foldlM_range (fun k c => Absorbing d₁ c blocked (· ∉ gate :: rest)
      fun n i => n ∉ gate :: rest ∨ n = gate ∧ i < k) ?_ ?_).mono ?_
    · intro k below c inv
      have sized := (inv.lengths gate).trans (absorbing.lengths gate).symm
      refine (absorbParent_meets (sized ▸ below)).of_ok fun c' run => ?_
      have unclean : ¬ (gate ∉ gate :: rest ∨ gate = gate ∧ k < k) := by simp
      refine (inv.absorb settling blocks inverter unclean run).weaken (fun _ _ => Iff.rfl)
        fun n i _ _ => ?_
      rw [Nat.lt_succ_iff_lt_or_eq]
      tauto
    · refine absorbing.weaken (fun _ _ => Iff.rfl) fun n i _ _ => ?_
      simp
    · intro c inv
      apply inv.weaken
      · intro n isInverter
        apply others n
        rintro rfl
        exact inverter isInverter
      · intro n i _ below
        by_cases same : n = gate
        · subst same
          rw [absorbing.lengths n]
          simp [new, below]
        · simp [same]

theorem reduceInverts_meets (settling : d.Settling) (blocks : d.Blocks blocked) :
    Meets Fault.Thrown (fun d' => Absorbing d d' blocked (fun _ => True) fun _ _ => True)
      (d.gates.foldlM (fun d gate => d.reduceInvert gate) d) := by
  refine (meets_foldlM
    (fun rest c => rest.Nodup ∧ Absorbing d c blocked (· ∉ rest) fun n _ => n ∉ rest) ?_
    ⟨d.gates_nodup, ?_⟩).mono ?_
  · rintro gate rest c ⟨nodup, absorbing⟩
    obtain ⟨new, nodup⟩ := List.nodup_cons.mp nodup
    apply (reduceInvert_meets settling blocks new absorbing).mono
    intro c' absorbing'
    exact ⟨nodup, absorbing'⟩
  · -- a node that is no gate has no parents
    have gate (n : Fin W) (some : d.mParents n ≠ []) : n ∈ d.gates :=
      mem_gates fun input => some (settling.inputs n input)
    apply (absorbing_refl settling).weaken
    · intro n inverter
      obtain ⟨parent, one⟩ := parents_of_isInvert inverter
      simp [gate n (by rw [one]; exact List.cons_ne_nil _ _)]
    · intro n i _ below
      simp [gate n (List.ne_nil_of_length_pos (Nat.zero_lt_of_lt below))]
  · rintro c ⟨-, absorbing⟩
    apply absorbing.weaken
    · intro n _
      simp
    · intro n i _ _
      simp

/-- What `removeInvertGates` leaves; `inverter` holds of the gates that it has removed. An INV gate
    that is left is a copy, which `AddGate` refuses, or reads something that is `blocked`. -/
structure Removed (d₀ d : DagCircuit W) (inverter blocked : Fin W → Prop) : Prop where
  same : ∃ types parents children outputs, d = { d₀ with
    mType := types, mParents := parents, mChildren := children, mOutputs := outputs }
  lengths : ∀ n, (d.mParents n).length = (d₀.mParents n).length
  single : ∀ n, inverter n → d₀.isInvert n
  tables : ∀ n, (d₀.mType n).Garblable → (d.mType n).Garblable
  copies : ∀ n, d₀.isInvert n → ¬ inverter n →
    d.mType n = .a ∨ ∃ q, d.mParents n = [q] ∧ blocked q
  parents : ∀ n, ¬ inverter n → ∀ p ∈ d.mParents n, ¬ inverter p
  children : ∀ n q, inverter n → n ∉ d.mChildren q
  keeps : ∀ n, ¬ inverter n → ∀ p ∈ d₀.mParents n,
    (¬ d₀.isInvert p → p ∈ d.mParents n) ∧
      (∀ q, inverter p → d₀.mParents p = [q] → q ∈ d.mParents n) ∧
      (d₀.isInvert p → ¬ inverter p → ∃ q ∈ d.mParents n, blocked q)

def remains (d : DagCircuit W) (dropped : List Nat) (n : Fin W) : Prop :=
  d.isInvert n ∧ copied d.inverted dropped n.val = false

theorem Complemented.removed {dropped : List Nat} (complemented : Complemented d₀ d₁ dropped)
    (unreduced : d₀.Unreduced)
    (absorbing : Absorbing d₁ d blocked (fun _ => True) fun _ _ => True) :
    Removed d₀ d (d₀.remains dropped) blocked := by
  have parents := complemented.parents
  have remains (n : Fin W) : d₀.remains dropped n ↔ d₁.isInvert n :=
    (complemented.isInvert unreduced n).symm
  have copy (n : Fin W) (isInv : d₀.isInvert n) (gone : ¬ d₀.remains dropped n) :
      d₁.isCopy n := by
    refine (complemented.isCopy unreduced n).mpr ⟨isInv, Bool.eq_true_of_not_eq_false ?_⟩
    exact fun noCopy => gone ⟨isInv, noCopy⟩
  have slot {n p' : Fin W} (noInverter : ¬ d₀.remains dropped n) {i : Nat}
      (here : (d.mParents n)[i]? = some p') :
      ∃ p, (d₀.mParents n)[i]? = some p ∧ d₁.Replaced blocked p p' := by
    have below := (List.getElem?_eq_some_iff.mp here).1
    rw [absorbing.lengths n] at below
    obtain ⟨p'', now, replaced⟩ := absorbing.replaced n i _ (fun inverter =>
      noInverter ((remains n).mpr inverter)) trivial (List.getElem?_eq_getElem below)
    rw [here] at now
    cases now
    refine ⟨_, ?_, replaced⟩
    rw [← parents, List.getElem?_eq_getElem below]
  refine ⟨?_, ?_, ?_, ?_, ?_, ?_, ?_, ?_⟩
  · obtain ⟨types, children, slots, rfl⟩ := complemented.same
    obtain ⟨types', parents', children', rfl⟩ := absorbing.same
    exact ⟨_, _, _, _, rfl⟩
  · intro n
    rw [absorbing.lengths n, parents]
  · exact fun n inverter => inverter.1
  · exact fun n table => absorbing.tables n (complemented.tables n table)
  · intro n isInv gone
    refine (absorbing.copies n (copy n isInv gone)).imp_right ?_
    rintro ⟨_, q, one, isBlocked, _⟩
    exact ⟨q, one, isBlocked⟩
  · intro n noInverter p reads
    obtain ⟨i, here⟩ := List.mem_iff_getElem?.mp reads
    obtain ⟨_, _, replaced⟩ := slot noInverter here
    rw [remains]
    exact replaced.kept
  · intro n q inverter here
    exact (absorbing.lists n q ((remains n).mp inverter) here).2 trivial
  · intro n noInverter p reads
    obtain ⟨i, here⟩ := List.mem_iff_getElem?.mp reads
    rw [← parents] at here
    obtain ⟨p', now, replaced⟩ := absorbing.replaced n i p (fun inverter =>
      noInverter ((remains n).mpr inverter)) trivial here
    have member := List.mem_iff_getElem?.mpr ⟨i, now⟩
    refine ⟨?_, ?_, ?_⟩
    · intro noInv
      have same := replaced.other (fun inverter => noInv ((remains p).mpr inverter).1)
        fun isCopy => noInv ((complemented.isCopy unreduced p).mp isCopy).1
      rwa [same] at member
    · intro q inverter one
      have single := replaced.inverter ((remains p).mp inverter)
      rw [parents, one] at single
      cases single
      exact member
    · intro isInv gone
      exact ⟨p', member, replaced.copy (copy p isInv gone)⟩

/-- What holds of the INV gates that have been dropped: they are copies at the end, and a copy does
    not read an INV gate that is left, of a gate that is none, unless an output is moved to it. -/
structure Settled (d : DagCircuit W) (dropped : List Nat) : Prop where
  copies : ∀ w ∈ dropped, copied d.inverted dropped w = true
  short : ∀ n p q, d.isInvert n → d.mParents n = [p] → d.remains dropped p → d.mParents p = [q] →
    copied d.inverted dropped n.val = true → ¬ d.isInvert q → 0 < readers d.inverted dropped p.val

/-- When no output is moved to an INV gate that is left, two INV gates between a copy and another
    gate do not occur. -/
theorem Complemented.blocks {dropped : List Nat} (complemented : Complemented d₀ d dropped)
    (unreduced : d₀.Unreduced) (settled : d₀.Settled dropped)
    (unmoved : ∀ p, d₀.remains dropped p → readers d₀.inverted dropped p.val = 0) :
    Blocks d fun n => d₀.isInvert n ∧ ¬ d₀.remains dropped n := by
  have parents := complemented.parents
  have left (n : Fin W) := complemented.isInvert unreduced n
  constructor
  · intro n isCopy
    obtain ⟨isInv, copy⟩ := (complemented.isCopy unreduced n).mp isCopy
    refine ⟨isInv, fun remains => ?_⟩
    rw [remains.2] at copy
    cases copy
  · intro n p q isCopy one inverter one' kept
    obtain ⟨isInv, copy⟩ := (complemented.isCopy unreduced n).mp isCopy
    rw [left] at inverter kept
    refine ⟨?_, kept⟩
    by_contra noInverter
    have some := settled.short n p q isInv (parents ▸ one) inverter (parents ▸ one') copy noInverter
    rw [unmoved p inverter] at some
    exact lt_irrefl _ some

/-- Either a copy never comes to read another gate than a copy, or an output is moved to a gate
    that is removed. -/
theorem removeInvertGates_meets (unreduced : d.Unreduced) {outputs : List (Fin W)}
    (slots : d.mOutputs = outputs.map some) (sorted : (outputs.map Fin.val).Pairwise (· < ·))
    {dropped : List Nat} (drops : dropped = dropInverts d.inverted (outputs.map Fin.val) [])
    (settled : d.Settled dropped) :
    Meets Fault.Thrown (fun d' =>
      d'.mOutputs = outputs.map (fun n => some (d.moved dropped n)) ∧
        (∀ n ∈ outputs, n.val ∈ dropped → ¬ d.isInput (d.moved dropped n)) ∧
        ∃ blocked, Removed d d' (d.remains dropped) blocked ∧
          ((∀ n, blocked n → d.isInvert n ∧ ¬ d.remains dropped n) ∨
            ∃ n ∈ outputs, d.remains dropped (d.moved dropped n))) d.removeInvertGates := by
  unfold removeInvertGates
  rw [slots]
  apply (removeOutputInverts_meets unreduced sorted (fun k none => absurd none List.not_mem_nil)
    (complemented_refl unreduced)).bind
  rintro ⟨outputs', d₁⟩ ⟨_, rfl, complemented, moves, gates⟩
  rw [← drops] at complemented moves gates
  have complemented' : Complemented d { d₁ with mOutputs := outputs' } dropped := by
    refine ⟨?_, complemented.tables, complemented.types, complemented.listed⟩
    obtain ⟨types, children, slots, rfl⟩ := complemented.same
    exact ⟨_, _, _, rfl⟩
  have settling := complemented'.settling unreduced settled.copies
  have kept {d₂ : DagCircuit W} {blocked : Fin W → Prop}
      (absorbing : Absorbing { d₁ with mOutputs := outputs' } d₂ blocked (fun _ => True)
        fun _ _ => True) : d₂.mOutputs = outputs.map fun n => some (d.moved dropped n) := by
    obtain ⟨types, parents, children, rfl⟩ := absorbing.same
    exact moves
  by_cases away : ∃ n ∈ outputs, d.remains dropped (d.moved dropped n)
  · have blocks : Blocks { d₁ with mOutputs := outputs' } fun _ => True :=
      ⟨fun _ _ => trivial, fun _ _ _ _ _ _ _ _ => trivial⟩
    apply (reduceInverts_meets settling blocks).mono
    intro d₂ absorbing
    exact ⟨kept absorbing, gates, _, complemented'.removed unreduced absorbing, .inr away⟩
  · have blocks : Blocks { d₁ with mOutputs := outputs' }
        fun n => d.isInvert n ∧ ¬ d.remains dropped n :=
      complemented'.blocks unreduced settled fun p inverter => by
        by_contra some
        obtain ⟨w, gone, reads⟩ := List.countP_pos_iff.mp (Nat.pos_of_ne_zero some)
        rcases mem_dropInverts (drops ▸ gone) with none | ⟨listed, _⟩
        · exact absurd none List.not_mem_nil
        · obtain ⟨n, member, rfl⟩ := List.mem_map.mp listed
          obtain ⟨_, q, here, one⟩ := isInvert_of_inverted (of_decide_eq_true reads)
          rw [Fin.val_inj] at here
          refine away ⟨n, member, ?_⟩
          rw [moved_of_mem gone one, here]
          exact inverter
    apply (reduceInverts_meets settling blocks).mono
    intro d₂ absorbing
    exact ⟨kept absorbing, gates, _, complemented'.removed unreduced absorbing, .inl fun _ => id⟩

end DagCircuit

end BatchDualEx
