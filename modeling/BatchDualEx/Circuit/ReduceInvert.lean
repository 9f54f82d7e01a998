import BatchDualEx.Circuit.OutputInverts

/- The second loop of `removeInvertGates`: absorbing the inverters into the tables of their
   readers keeps every valuation of the graph, and no inverter can be reached afterwards. -/
namespace BatchDualEx

open Function Result

namespace DagCircuit

variable {W : Nat} {d d' : DagCircuit W} {x : List Bool} {v : Fin W → Bool}

theorem readAt_ok {α : Type} {l : List α} {i : Nat} {a : α} (run : readAt l i = .ok a) :
    l[i]? = some a := by
  unfold readAt at run
  split at run
  case h_1 here =>
    cases run
    exact here
  case h_2 => cases run

def absorbed (d : DagCircuit W) (gate : Fin W) (i : Nat) (newParent : Fin W) : DagCircuit W :=
  { d with
    mType := update d.mType gate ((d.mType gate).flip (decide (i = 0)) (decide (i = 1)) false)
    mChildren := update d.mChildren newParent (d.mChildren newParent ++ [gate])
    mParents := update d.mParents gate ((d.mParents gate).set i newParent) }

theorem invert_ok {i : Nat} {t t' : GateType} (run : t.invert i = .ok t') :
    t' = t.flip (decide (i = 0)) (decide (i = 1)) false := by
  match i with
  | 0 =>
    rw [GateType.invert_zero] at run
    cases run
    rfl
  | 1 =>
    rw [GateType.invert_one] at run
    cases run
    rfl
  | _ + 2 => cases run

theorem absorbParent_ok {gate : Fin W} {i : Nat} (run : d.absorbParent gate i = .ok d') :
    ∃ parent, (d.mParents gate)[i]? = some parent ∧
      ((¬ d.isInvert parent ∧ d' = d) ∨
        d.isInvert parent ∧ ∃ newParent, d.mParents parent = [newParent] ∧
          (newParent ≠ gate → ¬ d.isInvert newParent) ∧ d' = d.absorbed gate i newParent) := by
  obtain ⟨parent, read, run⟩ := bind_ok run
  refine ⟨parent, readAt_ok read, ?_⟩
  split at run
  case isFalse kept =>
    cases run
    exact .inl ⟨kept, rfl⟩
  case isTrue inverter =>
    obtain ⟨newParent, readNew, run⟩ := bind_ok run
    obtain ⟨mType, inverted, run⟩ := bind_ok run
    obtain ⟨only, one⟩ := parents_of_isInvert inverter
    have here := readAt_ok readNew
    rw [one] at here
    obtain rfl : only = newParent := Option.some.inj here
    obtain rfl := invert_ok inverted
    dsimp only at run
    split at run
    case isTrue => cases run
    case isFalse noInverter =>
      cases run
      refine .inr ⟨inverter, only, one, fun other inverterNow =>
        noInverter ⟨?_, inverterNow.2⟩, rfl⟩
      simp only [update_of_ne other]
      exact inverterNow.1

theorem Shaped.gate_of_parent (shaped : d.Shaped) {n parent : Fin W} {i : Nat}
    (reads : (d.mParents n)[i]? = some parent) : ¬ d.isInput n := by
  intro input
  rw [shaped.inputs n input] at reads
  cases reads

theorem Shaped.cases_of_parent (shaped : d.Shaped) {n parent : Fin W} {i : Nat}
    (reads : (d.mParents n)[i]? = some parent) :
    (d.mParents n = [parent] ∧ i = 0 ∧ (d.mType n = .na ∨ d.mType n = .a)) ∨
      ∃ other, (d.mParents n = [parent, other] ∧ i = 0 ∨ d.mParents n = [other, parent] ∧ i = 1) ∧
        (d.mType n).Garblable := by
  rcases shaped.gates n (shaped.gate_of_parent reads) with
    ⟨only, one, kind⟩ | ⟨parent0, parent1, two, table⟩
  · rw [one] at reads ⊢
    match i, reads with
    | 0, rfl => exact .inl ⟨rfl, rfl, kind⟩
  · rw [two] at reads ⊢
    match i, reads with
    | 0, rfl => exact .inr ⟨parent1, .inl ⟨rfl, rfl⟩, table⟩
    | 1, rfl => exact .inr ⟨parent0, .inr ⟨rfl, rfl⟩, table⟩

theorem Solves.inverter (solves : d.Solves x v) (shaped : d.Shaped) {n parent : Fin W}
    (one : d.mParents n = [parent]) (inverter : d.isInvert n) : v n = !v parent := by
  have gate : ¬ d.isInput n := shaped.gate_of_parent (i := 0) (by rw [one]; rfl)
  have computes := solves.computes n gate
  simp only [Computes, one, inverter.1] at computes
  rw [computes false]
  cases v parent <;> rfl

section Absorbed

variable {gate parent newParent : Fin W} {i : Nat}

theorem absorbed_shaped (shaped : d.Shaped) (reads : (d.mParents gate)[i]? = some parent) :
    (d.absorbed gate i newParent).Shaped := by
  refine ⟨shaped.wired, fun n input => ?_, fun n isGate => ?_⟩
  · have other : n ≠ gate := fun same => shaped.gate_of_parent reads (same ▸ input)
    simp only [absorbed, update_of_ne other]
    exact shaped.inputs n input
  · by_cases same : n = gate
    · subst same
      simp only [absorbed, update_self]
      rcases shaped.cases_of_parent reads with
        ⟨one, rfl, inverter | copy⟩ | ⟨other, ⟨two, rfl⟩ | ⟨two, rfl⟩, table⟩
      · exact .inl ⟨newParent, by rw [one]; rfl, by rw [inverter]; exact .inr rfl⟩
      · exact .inl ⟨newParent, by rw [one]; rfl, by rw [copy]; exact .inl rfl⟩
      · exact .inr ⟨newParent, other, by rw [two]; rfl, GateType.garblable_flip table _ _ _⟩
      · exact .inr ⟨other, newParent, by rw [two]; rfl, GateType.garblable_flip table _ _ _⟩
    · simp only [absorbed, update_of_ne same]
      exact shaped.gates n isGate

/-- The complemented input of the new table is what the inverter has computed. -/
theorem absorbed_solves (shaped : d.Shaped) (reads : (d.mParents gate)[i]? = some parent)
    (inverter : d.isInvert parent) (one : d.mParents parent = [newParent])
    (solves : d.Solves x v) : (d.absorbed gate i newParent).Solves x v := by
  have value := solves.inverter shaped one inverter
  refine ⟨solves.inputs, fun n isGate => ?_⟩
  have computes := solves.computes n isGate
  by_cases same : n = gate
  · subst same
    unfold Computes at computes ⊢
    simp only [absorbed, update_self]
    rcases shaped.cases_of_parent reads with
      ⟨single, rfl, _⟩ | ⟨other, ⟨two, rfl⟩ | ⟨two, rfl⟩, _⟩
    · simp only [single, List.set_cons_zero] at computes ⊢
      intro second
      rw [GateType.apply_flip, computes (second ^^ false), value]
      simp
    · simp only [two, List.set_cons_zero] at computes ⊢
      rw [GateType.apply_flip, computes, value]
      simp
    · simp only [two, List.set_cons_succ, List.set_cons_zero] at computes ⊢
      rw [GateType.apply_flip, computes, value]
      simp
  · unfold Computes at computes ⊢
    simp only [absorbed, update_of_ne same]
    exact computes

end Absorbed

/-- What holds between two steps of the loop, which started with `d₁`: the inverters of `d₁`
    are as they were, only their parents list them, as long as they are not touched, and the
    inputs in `clean` do not come from them. -/
structure Reduced (d₁ d : DagCircuit W) (touched : Fin W → Prop) (clean : Fin W → Nat → Prop) :
    Prop where
  same : ∃ types parents children,
    d = { d₁ with mType := types, mParents := parents, mChildren := children }
  shaped : d.Shaped
  solves : ∀ x v, d₁.Solves x v → d.Solves x v
  untouched : ∀ n, ¬ touched n ∨ d₁.isInvert n →
    d.mType n = d₁.mType n ∧ d.mParents n = d₁.mParents n
  listed : ∀ n q, d₁.isInvert n → n ∈ d.mChildren q →
    d₁.mParents n = [q] ∧ (d.mChildren q).count n ≤ 1 ∧ ¬ touched n
  clean : ∀ n i parent, clean n i → ¬ d₁.isInvert n → (d.mParents n)[i]? = some parent →
    ¬ d₁.isInvert parent

variable {d₁ : DagCircuit W} {touched : Fin W → Prop} {clean : Fin W → Nat → Prop}

theorem Reduced.isInvert_iff (reduced : Reduced d₁ d touched clean) {n : Fin W}
    (old : ¬ touched n ∨ d₁.isInvert n) : d.isInvert n ↔ d₁.isInvert n := by
  obtain ⟨type, parents⟩ := reduced.untouched n old
  unfold isInvert
  rw [type, parents]

theorem Reduced.not_isInvert (reduced : Reduced d₁ d touched clean) {n : Fin W}
    (noInverter : ¬ d.isInvert n) : ¬ d₁.isInvert n :=
  fun inverter => noInverter ((reduced.isInvert_iff (.inr inverter)).mpr inverter)

theorem Reduced.absorb {gate : Fin W} {k : Nat} (reduced : Reduced d₁ d touched clean)
    (isTouched : touched gate) (noInverter : ¬ d₁.isInvert gate)
    (run : d.absorbParent gate k = .ok d') :
    Reduced d₁ d' touched fun n i => clean n i ∨ n = gate ∧ i = k := by
  obtain ⟨parent, reads, ⟨kept, rfl⟩ | ⟨inverter, newParent, one, other, rfl⟩⟩ :=
    absorbParent_ok run
  · refine ⟨reduced.same, reduced.shaped, reduced.solves, reduced.untouched, reduced.listed, ?_⟩
    rintro n i p (before | ⟨rfl, rfl⟩) notSelf here
    · exact reduced.clean n i p before notSelf here
    · rw [reads] at here
      cases here
      exact reduced.not_isInvert kept
  · have newClean : ¬ d₁.isInvert newParent := by
      by_cases self : newParent = gate
      · rw [self]
        exact noInverter
      · exact reduced.not_isInvert (other self)
    refine ⟨?_, absorbed_shaped reduced.shaped reads, fun x v solves =>
      absorbed_solves reduced.shaped reads inverter one (reduced.solves x v solves), ?_, ?_, ?_⟩
    · obtain ⟨types, parents, children, rfl⟩ := reduced.same
      exact ⟨_, _, _, rfl⟩
    · intro n old
      have apart : n ≠ gate := by
        rintro rfl
        exact old.elim (fun new => new isTouched) noInverter
      simp only [absorbed, update_of_ne apart]
      exact reduced.untouched n old
    · intro n q isInverter here
      have apart : n ≠ gate := by
        rintro rfl
        exact noInverter isInverter
      by_cases same : q = newParent
      · subst same
        simp only [absorbed, update_self, List.mem_append, List.mem_singleton] at here ⊢
        rw [List.count_append, List.count_singleton, if_neg (by simpa using Ne.symm apart)]
        exact reduced.listed n q isInverter (here.resolve_right apart)
      · simp only [absorbed, update_of_ne same] at here ⊢
        exact reduced.listed n q isInverter here
    · intro n i p isClean notSelf here
      by_cases same : n = gate
      · subst same
        simp only [absorbed, update_self] at here
        by_cases now : i = k
        · subst now
          rw [List.getElem?_set_self (List.getElem?_eq_some_iff.mp reads).1] at here
          cases here
          exact newClean
        · rw [List.getElem?_set_ne (Ne.symm now)] at here
          exact reduced.clean n i p (isClean.resolve_right fun both => now both.2) notSelf here
      · simp only [absorbed, update_of_ne same] at here
        exact reduced.clean n i p (isClean.resolve_right fun both => same both.1) notSelf here

theorem Reduced.weaken {clean' : Fin W → Nat → Prop} (reduced : Reduced d₁ d touched clean)
    (fewer : ∀ n i, clean' n i → clean n i) : Reduced d₁ d touched clean' :=
  { reduced with clean := fun n i parent isClean => reduced.clean n i parent (fewer n i isClean) }

theorem Reduced.erase {done : List (Fin W)} {gate parent : Fin W} {rest : List (Fin W)}
    (reduced : Reduced d₁ d (· ∈ done) fun n _ => n ∈ done) (inverter : d₁.isInvert gate)
    (one : d₁.mParents gate = [parent]) (perm : (gate :: rest).Perm (d.mChildren parent)) :
    Reduced d₁ { d with mChildren := update d.mChildren parent rest } (· ∈ gate :: done)
      fun n _ => n ∈ gate :: done := by
  refine ⟨?_, ⟨reduced.shaped.wired, reduced.shaped.inputs, reduced.shaped.gates⟩,
    fun x v solves => ⟨(reduced.solves x v solves).inputs, (reduced.solves x v solves).computes⟩,
    ?_, ?_, ?_⟩
  · obtain ⟨types, parents, children, rfl⟩ := reduced.same
    exact ⟨_, _, _, rfl⟩
  · intro n old
    exact reduced.untouched n (old.imp_left fun new early => new (List.mem_cons_of_mem _ early))
  · intro n q isInverter here
    by_cases same : q = parent
    · subst same
      simp only [update_self] at here ⊢
      have before : n ∈ d.mChildren q := perm.subset (List.mem_cons_of_mem _ here)
      obtain ⟨reads, once, new⟩ := reduced.listed n q isInverter before
      rw [← perm.count_eq] at once
      refine ⟨reads, List.count_le_count_cons.trans once, fun listed => ?_⟩
      rcases List.mem_cons.mp listed with rfl | early
      · rw [List.count_cons_self] at once
        have := List.count_pos_iff.mpr here
        omega
      · exact new early
    · simp only [update_of_ne same] at here ⊢
      obtain ⟨reads, once, new⟩ := reduced.listed n q isInverter here
      refine ⟨reads, once, fun listed => ?_⟩
      rcases List.mem_cons.mp listed with rfl | early
      · rw [one] at reads
        cases reads
        exact same rfl
      · exact new early
  · intro n i p listed notSelf
    rcases List.mem_cons.mp listed with rfl | early
    · exact absurd inverter notSelf
    · exact reduced.clean n i p early notSelf

theorem absorbParent_length {gate : Fin W} {i : Nat} (run : d.absorbParent gate i = .ok d') :
    (d'.mParents gate).length = (d.mParents gate).length := by
  obtain ⟨_, _, ⟨_, rfl⟩ | ⟨_, newParent, _, _, rfl⟩⟩ := absorbParent_ok run
  · rfl
  · simp only [absorbed, update_self, List.length_set]

theorem Reduced.reduceInvert {done : List (Fin W)} {gate : Fin W}
    (reduced : Reduced d₁ d (· ∈ done) fun n _ => n ∈ done) (new : gate ∉ done)
    (run : d.reduceInvert gate = .ok d') :
    Reduced d₁ d' (· ∈ gate :: done) fun n _ => n ∈ gate :: done := by
  have self := reduced.isInvert_iff (.inl new)
  unfold DagCircuit.reduceInvert at run
  split at run
  case isTrue inverter =>
    obtain ⟨parent, read, run⟩ := bind_ok run
    obtain ⟨rest, perm, rfl⟩ := eraseChild_ok run
    obtain ⟨only, one⟩ := parents_of_isInvert inverter
    have here := readAt_ok read
    rw [one] at here
    obtain rfl : only = parent := Option.some.inj here
    rw [(reduced.untouched gate (.inl new)).2] at one
    exact reduced.erase (self.mp inverter) one perm
  case isFalse noInverter =>
    have notInverter := fun inverter => noInverter (self.mpr inverter)
    have start : Reduced d₁ d (· ∈ gate :: done) fun n i => n ∈ done ∨ n = gate ∧ i < 0 := by
      refine ⟨reduced.same, reduced.shaped, reduced.solves, ?_, ?_, ?_⟩
      · intro n old
        exact reduced.untouched n (old.imp_left fun new early => new (List.mem_cons_of_mem _ early))
      · intro n q inverter here
        obtain ⟨reads, once, unread⟩ := reduced.listed n q inverter here
        refine ⟨reads, once, fun listed => ?_⟩
        rcases List.mem_cons.mp listed with rfl | early
        · exact notInverter inverter
        · exact unread early
      · rintro n i p (early | ⟨_, none⟩)
        · exact reduced.clean n i p early
        · exact absurd none (Nat.not_lt_zero i)
    obtain ⟨loop, sized⟩ := foldlM_range_ok (fun k (c : DagCircuit W) =>
        (Reduced d₁ c (· ∈ gate :: done) fun n i => n ∈ done ∨ n = gate ∧ i < k) ∧
          (c.mParents gate).length = (d.mParents gate).length)
      (fun k _ b c inv step => by
        refine ⟨?_, (absorbParent_length step).trans inv.2⟩
        refine (inv.1.absorb List.mem_cons_self notInverter step).weaken ?_
        rintro n i (early | ⟨rfl, below⟩)
        · exact .inl (.inl early)
        · rcases Nat.lt_succ_iff_lt_or_eq.mp below with before | now
          · exact .inl (.inr ⟨rfl, before⟩)
          · exact .inr ⟨rfl, now⟩) run ⟨start, rfl⟩
    refine ⟨loop.same, loop.shaped, loop.solves, loop.untouched, loop.listed, ?_⟩
    intro n i p listed notSelf here
    refine loop.clean n i p ?_ notSelf here
    rcases List.mem_cons.mp listed with rfl | early
    · refine .inr ⟨rfl, ?_⟩
      rw [← sized]
      exact (List.getElem?_eq_some_iff.mp here).1
    · exact .inl early

theorem gates_nodup (d : DagCircuit W) : d.gates.Nodup :=
  (List.nodup_finRange W).filter _

theorem mem_gates {n : Fin W} (gate : ¬ d.isInput n) : n ∈ d.gates := by
  unfold gates
  rw [List.mem_filter]
  exact ⟨List.mem_finRange n, decide_eq_true gate⟩

/-- The whole loop: valuations are kept, and from nodes that were no inverters before it no
    parent and no child leads to one that was. -/
theorem reduceInverts_ok (shaped : d.Shaped) (listed : ∀ n q, d.isInvert n →
      n ∈ d.mChildren q → d.mParents n = [q] ∧ (d.mChildren q).count n ≤ 1)
    (run : d.gates.foldlM (fun d gate => d.reduceInvert gate) d = .ok d') :
    d'.Shaped ∧ (∀ x v, d.Solves x v → d'.Solves x v) ∧ d'.Closed (fun n => ¬ d.isInvert n) ∧
      ∃ types parents children,
        d' = { d with mType := types, mParents := parents, mChildren := children } := by
  have start : Reduced d d (· ∈ []) fun n _ => n ∈ [] := by
    refine ⟨⟨_, _, _, rfl⟩, shaped, fun _ _ => id, fun _ _ => ⟨rfl, rfl⟩, ?_, ?_⟩
    · intro n q inverter here
      obtain ⟨reads, once⟩ := listed n q inverter here
      exact ⟨reads, once, List.not_mem_nil⟩
    · exact fun _ _ _ none => absurd none List.not_mem_nil
  have finished := foldlM_nodup_ok (fun done c => Reduced d c (· ∈ done) fun n _ => n ∈ done)
    (fun done gate _ b c new inv step => inv.reduceInvert new step) d.gates_nodup
    (fun _ _ => List.not_mem_nil) run start
  have all : ∀ n, ¬ d.isInput n → n ∈ d.gates.reverse ++ [] := by
    intro n gate
    rw [List.append_nil, List.mem_reverse]
    exact mem_gates gate
  have inputs : ∀ n, d'.isInput n → ¬ d.isInvert n := by
    intro n input inverter
    obtain ⟨types, parents, children, rfl⟩ := finished.same
    rw [isInvert, shaped.inputs n input] at inverter
    exact Nat.zero_ne_one inverter.2
  refine ⟨finished.shaped, finished.solves, ⟨inputs, ?_, ?_⟩, finished.same⟩
  · intro n noInverter parent reads
    obtain ⟨i, here⟩ := List.mem_iff_getElem?.mp reads
    have gate := finished.shaped.gate_of_parent here
    have gate₀ : ¬ d.isInput n := by
      obtain ⟨types, parents, children, rfl⟩ := finished.same
      exact gate
    exact finished.clean n i parent (all n gate₀) noInverter here
  · intro n _ child here inverter
    obtain ⟨reads, _, untouched⟩ := finished.listed child n inverter here
    refine untouched (all child fun input => ?_)
    rw [shaped.inputs child input] at reads
    cases reads

end DagCircuit

end BatchDualEx
