import BatchDualEx.Circuit.DagOrder
import BatchDualEx.Lib.Meets

/- `toCircuit` on any graph, with cycles and with nodes that no line drives: it ends or throws, and
   the gates that it adds are distinct nodes, each with a larger number than its parents. -/
namespace BatchDualEx

open Function Result

/-- An exception, and not undefined behaviour. -/
def Fault.Thrown (fault : Fault) : Prop := ∃ what, fault = .thrown what

namespace DagCircuit

variable {W : Nat} (d : DagCircuit W)

structure Driven (n : Fin W) : Prop where
  gate : ¬ d.isInput n
  wire : d.mWireIdx n = n.val
  parents : (∃ parent, d.mParents n = [parent]) ∨
    ∃ parent0 parent1, d.mParents n = [parent0, parent1] ∧ d.mType n ≠ .na

/-- The nodes of `order` are those that have been added as gates. -/
structure Numbered (kept : Fin W → Prop) (order : List (Fin W)) (s : AddState W) : Prop where
  nodup : order.Nodup
  gates : ∀ n ∈ order, d.Driven n ∧ kept n ∧ d.mType n ≠ .a
  count : s.cir.mGates.length = order.length
  wireCount : s.cir.mWireCount = d.inputWireCount + order.length
  marked : ∀ n ∈ order, s.added n.val = true
  inputs : ∀ w < d.inputWireCount, s.added w = true ∧ s.newWireIdx w = w
  assigned : ∀ n ∈ order, s.newWireIdx n.val < s.cir.mWireCount
  others : ∀ n, d.Driven n → n ∉ order → s.newWireIdx n.val = Circuit.noWire
  rank : ∀ n ∈ order, ∀ parent ∈ d.mParents n,
    s.newWireIdx (d.mWireIdx parent) < s.newWireIdx n.val
  stack : ∀ n ∈ s.addStack, kept n

def Grows (s t : AddState W) : Prop :=
  ∀ w, s.added w = true → t.added w = true ∧ t.newWireIdx w = s.newWireIdx w

variable {d} {kept : Fin W → Prop} {order : List (Fin W)} {s t : AddState W} {n : Fin W}

theorem Grows.refl (s : AddState W) : Grows s s := fun _ marked => ⟨marked, rfl⟩

theorem Grows.trans {u : AddState W} (first : Grows s t) (second : Grows t u) : Grows s u := by
  intro w marked
  obtain ⟨markedT, wireT⟩ := first w marked
  obtain ⟨markedU, wireU⟩ := second w markedT
  exact ⟨markedU, wireU.trans wireT⟩

theorem Grows.marks (grows : Grows s t) : Marks s t := fun m marked => (grows m.val marked).1

theorem length_gates_le {nodes : List (Fin W)} (nodup : nodes.Nodup)
    (gates : ∀ n ∈ nodes, ¬ d.isInput n) : nodes.length ≤ W - d.inputWireCount := by
  have distinct := nodup.map Fin.val_injective
  have inside : nodes.map Fin.val ⊆ List.range' d.inputWireCount (W - d.inputWireCount) := by
    intro w listed
    obtain ⟨n, added, rfl⟩ := List.mem_map.mp listed
    have gate := gates n added
    unfold isInput at gate
    rw [List.mem_range'_1]
    omega
  have short := (distinct.subperm inside).length_le
  rwa [List.length_map, List.length_range'] at short

theorem Numbered.room (numbered : d.Numbered kept order s) (gate : ¬ d.isInput n)
    (new : n ∉ order) : s.cir.mWireCount < W := by
  have few := length_gates_le (List.nodup_cons.mpr ⟨new, numbered.nodup⟩) <|
    List.forall_mem_cons.mpr ⟨gate, fun m added => (numbered.gates m added).1.gate⟩
  unfold isInput at gate
  rw [List.length_cons] at few
  rw [numbered.wireCount]
  omega

theorem Numbered.push (numbered : d.Numbered kept order s) (keeps : kept n) :
    d.Numbered kept order (s.push n) := by
  refine { numbered with stack := ?_ }
  intro m listed
  rcases List.mem_cons.mp listed with rfl | earlier
  · exact keeps
  · exact numbered.stack m earlier

theorem addGate_meets (c : Circuit) (input0 input1 : Nat) (gt : GateType) :
    Meets Fault.Thrown (fun added => input0 ≤ c.mWireCount ∧ (input1 ≤ c.mWireCount ∨ gt = .na) ∧
      gt ≠ .a ∧ added.2 = c.mWireCount ∧ ∃ tables, added.1 = c.concat tables input0 input1 gt)
      (c.addGate input0 input1 gt) := by
  cases run : c.addGate input0 input1 gt with
  | ok added => exact addGate_ok run
  | error fault =>
    unfold Circuit.addGate at run
    split at run
    · cases run
      exact ⟨_, rfl⟩
    · split at run
      · cases run
        exact ⟨_, rfl⟩
      · split at run
        · cases run
          exact ⟨_, rfl⟩
        · cases run

/-- Nodes that the search can visit: with a kept node it comes to kept nodes only, and a kept node
    that no line drives has the wire of an input. -/
structure Walkable (d : DagCircuit W) (kept : Fin W → Prop) : Prop where
  closed : d.Closed kept
  nodes : ∀ n, kept n → d.Driven n ∨ d.mWireIdx n < d.inputWireCount
  small : W ≤ Circuit.noWire

theorem Numbered.accepted (numbered : d.Numbered kept order s) (walk : d.Walkable kept)
    {parent : Fin W} (keeps : kept parent) (room : s.cir.mWireCount < W)
    (accepted : s.newWireIdx (d.mWireIdx parent) ≤ s.cir.mWireCount) :
    s.newWireIdx (d.mWireIdx parent) < s.cir.mWireCount := by
  have small := walk.small
  rcases walk.nodes parent keeps with driven | input
  · rw [driven.wire] at accepted ⊢
    by_cases added : parent ∈ order
    · exact numbered.assigned parent added
    · rw [numbered.others parent driven added] at accepted
      omega
  · have wires := numbered.wireCount
    rw [(numbered.inputs _ input).2]
    omega

def numberedAfter (s : AddState W) (n : Fin W) (cir : Circuit) : AddState W :=
  { s with cir, newWireIdx := update s.newWireIdx n.val s.cir.mWireCount }

theorem Numbered.concat (numbered : d.Numbered kept order s) (walk : d.Walkable kept)
    (driven : d.Driven n) (keeps : kept n) (new : n ∉ order) (marked : s.added n.val = true)
    (noCopy : d.mType n ≠ .a) {input0 input1 tables : Nat}
    (parents : ∀ parent ∈ d.mParents n,
      s.newWireIdx (d.mWireIdx parent) ≤ s.cir.mWireCount) :
    d.Numbered kept (n :: order)
      (numberedAfter s n (s.cir.concat tables input0 input1 (d.mType n))) := by
  have room := numbered.room driven.gate new
  have small := walk.small
  have unassigned := numbered.others n driven new
  -- a wire that has a number is not that of the node
  have before (parent : Fin W) (below : s.newWireIdx (d.mWireIdx parent) < Circuit.noWire) :
      update s.newWireIdx n.val s.cir.mWireCount (d.mWireIdx parent) =
        s.newWireIdx (d.mWireIdx parent) := by
    apply update_of_ne
    intro same
    rw [same, unassigned] at below
    exact lt_irrefl _ below
  have other (m : Fin W) (added : m ∈ order) :
      update s.newWireIdx n.val s.cir.mWireCount m.val = s.newWireIdx m.val := by
    apply update_of_ne
    intro same
    exact new (Fin.ext same ▸ added)
  constructor
  · exact List.nodup_cons.mpr ⟨new, numbered.nodup⟩
  · exact List.forall_mem_cons.mpr ⟨⟨driven, keeps, noCopy⟩, numbered.gates⟩
  · have count := numbered.count
    change (s.cir.mGates ++ [_]).length = _
    rw [List.length_append, List.length_singleton, List.length_cons, count]
  · have count := numbered.wireCount
    change s.cir.mWireCount + 1 = _
    rw [List.length_cons]
    omega
  · exact List.forall_mem_cons.mpr ⟨marked, numbered.marked⟩
  · intro w input
    obtain ⟨isMarked, wire⟩ := numbered.inputs w input
    refine ⟨isMarked, ?_⟩
    have apart : w ≠ n.val := by
      rintro rfl
      exact driven.gate input
    exact (update_of_ne apart _ _).trans wire
  · intro m added
    change update s.newWireIdx n.val s.cir.mWireCount m.val < s.cir.mWireCount + 1
    rcases List.mem_cons.mp added with rfl | earlier
    · rw [update_self]
      exact Nat.lt_succ_self _
    · rw [other m earlier]
      exact Nat.lt_succ_of_lt (numbered.assigned m earlier)
  · intro m drivenM absent
    rw [List.mem_cons, not_or] at absent
    refine (update_of_ne ?_ _ _).trans (numbered.others m drivenM absent.2)
    intro same
    exact absent.1 (Fin.ext same)
  · intro m added parent reads
    change update s.newWireIdx n.val s.cir.mWireCount (d.mWireIdx parent) <
      update s.newWireIdx n.val s.cir.mWireCount m.val
    rcases List.mem_cons.mp added with rfl | earlier
    · have keepsParent := walk.closed.parents m keeps parent reads
      have below := numbered.accepted walk keepsParent room (parents parent reads)
      rw [before parent (by omega), update_self]
      exact below
    · have below := numbered.rank m earlier parent reads
      have assigned := numbered.assigned m earlier
      rw [before parent (by omega), other m earlier]
      exact below
  · exact numbered.stack

theorem addNode_meets (numbered : d.Numbered kept order s) (walk : d.Walkable kept)
    (driven : d.Driven n) (keeps : kept n) (new : n ∉ order) (marked : s.added n.val = true) :
    Meets Fault.Thrown (fun t => d.Numbered kept (n :: order) t ∧
      ∃ cir, t = numberedAfter s n cir) (d.addNode s n) := by
  rcases driven.parents with ⟨parent, one⟩ | ⟨parent0, parent1, two, binary⟩
  · unfold addNode
    rw [one]
    apply (addGate_meets _ _ _ _).bind
    rintro ⟨cir, wire⟩ ⟨in0, -, noCopy, isNext, tables, isGrown⟩
    cases isNext
    cases isGrown
    rw [driven.wire]
    refine ⟨numbered.concat walk driven keeps new marked noCopy ?_, _, rfl⟩
    rw [one]
    exact List.forall_mem_singleton.mpr in0
  · unfold addNode
    rw [two]
    apply (addGate_meets _ _ _ _).bind
    rintro ⟨cir, wire⟩ ⟨in0, in1, noCopy, isNext, tables, isGrown⟩
    cases isNext
    cases isGrown
    rw [driven.wire]
    refine ⟨numbered.concat walk driven keeps new marked noCopy ?_, _, rfl⟩
    rw [two]
    exact List.forall_mem_cons.mpr
      ⟨in0, List.forall_mem_singleton.mpr (in1.resolve_right binary)⟩

/-- What a call leaves: the gates that it has added, and less to do. -/
def Visited (d : DagCircuit W) (kept : Fin W → Prop) (s : AddState W) (before : Nat)
    (t : AddState W) : Prop :=
  (∃ order, d.Numbered kept order t) ∧ Grows s t ∧ d.potential t ≤ before

def VisitMeets (d : DagCircuit W) (kept : Fin W → Prop) (fuel : Nat) (explore : Bool) : Prop :=
  ∀ ⦃s : AddState W⦄ ⦃n : Fin W⦄ ⦃rest : List (Fin W)⦄ ⦃order : List (Fin W)⦄ ⦃before : Nat⦄,
    s.addStack = n :: rest → s.added (d.mWireIdx n) = false → d.Numbered kept order s →
    left (fun _ => 1) s ≤ fuel → d.potential s ≤ before + 1 →
    Meets Fault.Thrown (d.Visited kept s before) (d.depthFirstAdd fuel explore s)

variable {fuel : Nat} {explore : Bool}

theorem Numbered.driven_of_unmarked (numbered : d.Numbered kept order s) (walk : d.Walkable kept)
    (keeps : kept n) (unmarked : s.added (d.mWireIdx n) = false) : d.Driven n := by
  rcases walk.nodes n keeps with driven | input
  · exact driven
  · rw [(numbered.inputs _ input).1] at unmarked
    cases unmarked

theorem visit_parents_meets (visits : d.VisitMeets kept fuel false) {inputs : List (Fin W)}
    (keep : ∀ input ∈ inputs, kept input) (numbered : d.Numbered kept order s)
    (room : left (fun _ => 1) s ≤ fuel) :
    Meets Fault.Thrown (d.Visited kept s (d.potential s))
      (inputs.foldlM (fun s input => if s.added (d.mWireIdx input) then .ok s
        else d.depthFirstAdd fuel false (s.push input)) s) := by
  refine (meets_foldlM (fun rest t => (∀ input ∈ rest, kept input) ∧
    d.Visited kept s (d.potential s) t) ?_ ⟨keep, ⟨order, numbered⟩, .refl s, le_rfl⟩).mono
    fun t inv => inv.2
  rintro input rest t ⟨keep, ⟨order, numbered⟩, grows, lower⟩
  obtain ⟨keeps, keep⟩ := List.forall_mem_cons.mp keep
  split
  · exact ⟨keep, ⟨order, numbered⟩, grows, lower⟩
  · rename_i unmarked
    have small := (left_mono (fun _ => 1) grows.marks).trans room
    have call := visits (s := t.push input) rfl (Bool.eq_false_iff.mpr unmarked)
      (numbered.push keeps) small (potential_push t input).le
    apply call.mono
    rintro u ⟨numbered, grows', lower'⟩
    exact ⟨keep, numbered, grows.trans grows', lower'.trans lower⟩

/-- The loop over the children; those that are pushed only count as much as they weigh. -/
theorem visit_children_meets (visits : explore = true → d.VisitMeets kept fuel true)
    {children : List (Fin W)} (keep : ∀ child ∈ children, kept child)
    (numbered : d.Numbered kept order s) (room : explore = true → left (fun _ => 1) s ≤ fuel) :
    Meets Fault.Thrown
      (d.Visited kept s (d.potential s + if explore then 0 else children.length))
      (children.foldlM (fun s child => if s.added (d.mWireIdx child) then .ok s
        else if explore then d.depthFirstAdd fuel true (s.push child)
        else .ok (s.push child)) s) := by
  refine (meets_foldlM (fun rest t => (∀ child ∈ rest, kept child) ∧
    (∃ order, d.Numbered kept order t) ∧ Grows s t ∧
      d.potential t + (if explore then 0 else rest.length) ≤
        d.potential s + if explore then 0 else children.length) ?_
    ⟨keep, ⟨order, numbered⟩, .refl s, le_rfl⟩).mono ?_
  · rintro child rest t ⟨keep, ⟨order, numbered⟩, grows, lower⟩
    obtain ⟨keeps, keep⟩ := List.forall_mem_cons.mp keep
    by_cases added : t.added (d.mWireIdx child) = true
    · rw [if_pos added]
      refine ⟨keep, ⟨order, numbered⟩, grows, le_trans ?_ lower⟩
      rw [List.length_cons]
      split <;> omega
    · rw [if_neg added]
      cases explore with
      | true =>
        have small := (left_mono (fun _ => 1) grows.marks).trans (room rfl)
        have call := visits rfl (s := t.push child) rfl (Bool.eq_false_iff.mpr added)
          (numbered.push keeps) small (potential_push t child).le
        apply call.mono
        rintro u ⟨numbered, grows', lower'⟩
        exact ⟨keep, numbered, grows.trans grows', lower'.trans lower⟩
      | false =>
        refine ⟨keep, ⟨order, numbered.push keeps⟩, grows, ?_⟩
        rw [potential_push]
        simp only [Bool.false_eq_true, if_false, List.length_cons] at lower ⊢
        omega
  · rintro t ⟨-, numbered, grows, lower⟩
    refine ⟨numbered, grows, ?_⟩
    omega

theorem Numbered.mark {rest : List (Fin W)} (numbered : d.Numbered kept order s)
    (stack : s.addStack = n :: rest) :
    d.Numbered kept order { s with addStack := rest, added := update s.added n.val true } := by
  have marks (w : Nat) (marked : s.added w = true) : update s.added n.val true w = true := by
    by_cases same : w = n.val
    · rw [same, update_self]
    · rwa [update_of_ne same]
  refine { numbered with marked := ?_, inputs := ?_, stack := ?_ }
  · intro m added
    exact marks m.val (numbered.marked m added)
  · intro w input
    exact (numbered.inputs w input).imp_left (marks w)
  · intro m later
    apply numbered.stack m
    rw [stack]
    exact List.mem_cons_of_mem n later

theorem Numbered.pop {rest : List (Fin W)} (numbered : d.Numbered kept order s)
    (stack : s.addStack = n :: rest) : d.Numbered kept order { s with addStack := rest } := by
  refine { numbered with stack := ?_ }
  intro m later
  apply numbered.stack m
  rw [stack]
  exact List.mem_cons_of_mem n later

theorem visits_meets (walk : d.Walkable kept) (fuel : Nat) (explore : Bool) :
    d.VisitMeets kept fuel explore := by
  induction fuel generalizing explore with
  | zero =>
    intro s n rest order before stack unmarked numbered room lower
    have keeps := numbered.stack n (stack ▸ List.mem_cons_self)
    have driven := numbered.driven_of_unmarked walk keeps unmarked
    rw [driven.wire] at unmarked
    have one := left_mark (t := { s with added := update s.added n.val true }) (fun _ => 1)
      unmarked rfl
    omega
  | succ fuel ih =>
    intro s n rest order before stack unmarked numbered room lower
    have keeps := numbered.stack n (stack ▸ List.mem_cons_self)
    have driven := numbered.driven_of_unmarked walk keeps unmarked
    rw [driven.wire] at unmarked
    let s₁ : AddState W := { s with addStack := rest, added := update s.added n.val true }
    have one := left_mark (t := s₁) (fun _ => 1) unmarked rfl
    have children := left_mark (t := s₁) (fun m => (d.mChildren m).length) unmarked rfl
    have popped : d.potential s₁ + (d.mChildren n).length + 1 = d.potential s := by
      unfold potential
      rw [stack, List.length_cons]
      change rest.length + _ + _ + 1 = _
      omega
    have new : n ∉ order := by
      intro added
      cases unmarked.symm.trans (numbered.marked n added)
    have unassigned : s₁.newWireIdx n.val = Circuit.noWire := numbered.others n driven new
    have grows₁ : Grows s s₁ := by
      intro w marked
      refine ⟨?_, rfl⟩
      by_cases same : w = n.val
      · exact (congrArg s₁.added same).trans (update_self _ _ _)
      · exact (update_of_ne same _ _).trans marked
    have room₁ : left (fun _ => 1) s₁ ≤ fuel := by omega
    have parents := visit_parents_meets (ih false) (walk.closed.parents n keeps)
      (numbered.mark stack) room₁
    unfold depthFirstAdd
    rw [stack]
    simp only [driven.wire, unmarked, Bool.false_eq_true, if_false]
    refine Meets.bind (parents.bind ?_ : Meets Fault.Thrown (fun v =>
      (∃ order, d.Numbered kept order v) ∧ Grows s v ∧ Marks s₁ v ∧
        d.potential v ≤ d.potential s₁) _) ?_
    · -- the node itself, which its parents have not added
      rintro u ⟨⟨order, numbered⟩, grows, lower⟩
      have marked : u.added n.val = true ∧ u.newWireIdx n.val = s₁.newWireIdx n.val :=
        grows n.val (update_self _ _ _)
      have new : n ∉ order := by
        intro added
        have small := walk.small
        have below := numbered.assigned n added
        have wires := numbered.wireCount
        have few := length_gates_le numbered.nodup fun m listed =>
          (numbered.gates m listed).1.gate
        have inside := n.isLt
        have gate := driven.gate
        unfold isInput at gate
        rw [marked.2, unassigned] at below
        omega
      apply (addNode_meets numbered walk driven keeps new marked.1).mono
      rintro v ⟨numbered, cir, rfl⟩
      refine ⟨⟨_, numbered⟩, ?_, grows.marks, lower⟩
      intro w before
      have apart : w ≠ n.val := by
        rintro rfl
        cases unmarked.symm.trans before
      obtain ⟨markedU, wireU⟩ := grows₁.trans grows w before
      exact ⟨markedU, (update_of_ne apart _ _).trans wireU⟩
    · rintro v ⟨⟨order, numbered⟩, grows, marks, lower'⟩
      have room₂ := (left_mono (fun _ => 1) marks).trans room₁
      have loop := visit_children_meets (fun _ => ih true) (walk.closed.children n keeps) numbered
        (fun (_ : explore = true) => room₂)
      apply loop.mono
      rintro t ⟨numbered, grows', final⟩
      refine ⟨numbered, grows.trans grows', ?_⟩
      split at final <;> omega

theorem depthFirstAdd_meets (walk : d.Walkable kept) {rest : List (Fin W)}
    (numbered : d.Numbered kept order s) (stack : s.addStack = n :: rest)
    (room : left (fun _ => 1) s < fuel) {before : Nat} (lower : d.potential s ≤ before + 1) :
    Meets Fault.Thrown (d.Visited kept s before) (d.depthFirstAdd fuel true s) := by
  by_cases added : s.added (d.mWireIdx n) = true
  · -- only the children are visited
    obtain ⟨fuel, rfl⟩ := Nat.exists_eq_succ_of_ne_zero (Nat.ne_zero_of_lt room)
    have keeps := numbered.stack n (stack ▸ List.mem_cons_self)
    have popped : d.potential { s with addStack := rest } + 1 = d.potential s := by
      unfold potential
      rw [stack, List.length_cons]
      exact Nat.add_right_comm _ _ _
    have loop := visit_children_meets (fun (_ : true = true) => visits_meets walk fuel true)
      (walk.closed.children n keeps) (numbered.pop stack) fun _ => Nat.le_of_lt_succ room
    unfold depthFirstAdd
    rw [stack]
    simp only [added, if_true]
    apply loop.mono
    rintro t ⟨numbered, grows, final⟩
    refine ⟨numbered, grows, ?_⟩
    rw [if_pos rfl] at final
    omega
  · exact visits_meets walk fuel true stack (Bool.eq_false_iff.mpr added) numbered room.le lower

theorem addAll_meets (walk : d.Walkable kept) {passes : Nat} (numbered : d.Numbered kept order s)
    (room : left (fun _ => 1) s < fuel) (enough : d.potential s ≤ passes) :
    Meets Fault.Thrown (fun t => ∃ order, d.Numbered kept order t) (d.addAll fuel passes s) := by
  induction passes generalizing s order with
  | zero =>
    have empty : s.addStack = [] := by
      apply List.eq_nil_of_length_eq_zero
      unfold potential at enough
      omega
    unfold addAll
    rw [if_pos empty]
    exact ⟨order, numbered⟩
  | succ passes ih =>
    unfold addAll
    cases stack : s.addStack with
    | nil =>
      rw [if_pos rfl]
      exact ⟨order, numbered⟩
    | cons n rest =>
      rw [if_neg (List.cons_ne_nil n rest)]
      apply (depthFirstAdd_meets walk numbered stack room enough).bind
      rintro t ⟨⟨order, numbered⟩, grows, lower⟩
      exact ih numbered ((left_mono _ grows.marks).trans_lt room) lower

theorem numbered_initial (closed : d.Closed kept) : d.Numbered kept [] d.initial where
  nodup := List.nodup_nil
  gates := fun n none => absurd none List.not_mem_nil
  count := rfl
  wireCount := rfl
  marked := fun n none => absurd none List.not_mem_nil
  inputs := fun w input => ⟨decide_eq_true input, if_pos input⟩
  assigned := fun n none => absurd none List.not_mem_nil
  others := fun n driven _ => if_neg driven.gate
  rank := fun n none => absurd none List.not_mem_nil
  stack := by
    intro n listed
    have input := (List.mem_filter.mp (List.mem_reverse.mp listed)).2
    exact closed.inputs n (of_decide_eq_true input)

theorem addOutputs_meets {newWireIdx : Nat → Nat} {outputs : List (Option (Fin W))}
    (driven : none ∉ outputs) (c : Circuit) :
    Meets Fault.Thrown (fun c' : Circuit => c'.mGates = c.mGates ∧
      ∀ n, some n ∈ outputs → newWireIdx (d.mWireIdx n) < c.mWireCount)
      (outputs.foldlM (d.addOutput newWireIdx) c) := by
  refine (meets_foldlM (fun rest (c' : Circuit) => none ∉ rest ∧ c'.mGates = c.mGates ∧
    c'.mWireCount = c.mWireCount ∧ ∀ n, some n ∈ outputs → some n ∈ rest ∨
      newWireIdx (d.mWireIdx n) < c.mWireCount) ?_
    ⟨driven, rfl, rfl, fun _ listed => .inl listed⟩).mono ?_
  · rintro output rest c' ⟨driven, gates, wires, placed⟩
    rw [List.mem_cons, not_or] at driven
    cases output with
    | none => exact absurd rfl driven.1
    | some n =>
      unfold addOutput Circuit.addOutputWire
      dsimp only
      split
      · exact ⟨_, rfl⟩
      · rename_i below
        refine ⟨driven.2, gates, wires, ?_⟩
        intro m listed
        rcases placed m listed with here | before
        · rcases List.mem_cons.mp here with same | later
          · cases same
            rw [Nat.not_le, wires] at below
            exact .inr below
          · exact .inl later
        · exact .inr before
  · rintro c' ⟨_, gates, _, placed⟩
    exact ⟨gates, fun n listed => (placed n listed).resolve_left List.not_mem_nil⟩

/-- The circuit has as many gates as kept nodes have been numbered, and the outputs are among
    them. -/
theorem toCircuit_meets (walk : d.Walkable kept) (driven : none ∉ d.mOutputs)
    (room : left (fun _ => 1) d.initial < fuel) (enough : d.potential d.initial ≤ fuel) :
    Meets Fault.Thrown (fun c => ∃ order s, d.Numbered kept order s ∧
      c.mGates.length = order.length ∧ ∀ n, some n ∈ d.mOutputs → d.Driven n → n ∈ order)
      (d.toCircuit fuel) := by
  apply (addAll_meets walk (numbered_initial walk.closed) room enough).bind
  rintro s ⟨order, numbered⟩
  apply (addOutputs_meets driven s.cir).mono
  rintro c ⟨gates, placed⟩
  refine ⟨order, s, numbered, gates ▸ numbered.count, ?_⟩
  intro n listed driven
  by_contra new
  have room := numbered.room driven.gate new
  have below := placed n listed
  have small := walk.small
  rw [driven.wire, numbered.others n driven new] at below
  omega

end DagCircuit

end BatchDualEx
