import BatchDualEx.Circuit.OutputInverts
import Mathlib.Algebra.BigOperators.Group.Finset.Basic
import Mathlib.Algebra.BigOperators.Group.Finset.Piecewise
import Mathlib.Algebra.Order.BigOperators.Group.Finset

/- `toCircuit` on a graph that is acyclic: the recursion ends, every gate is added once, and it
   comes after its parents. A node is marked before its parents are added; the marked nodes that
   are still waiting for theirs all lie above the node that is being added. -/
namespace BatchDualEx.DagCircuit

open Function Result

variable {W : Nat} (d : DagCircuit W)

/-- The wire of a node once the gates of `order` have been added. -/
def place (order : List (Fin W)) (n : Fin W) : Nat :=
  if d.isInput n then n.val else d.inputWireCount + order.idxOf n

def gateOf (order : List (Fin W)) (n : Fin W) : Gate :=
  match d.mParents n with
  | [] => ⟨0, 0, d.place order n, d.mType n⟩
  | [parent] => ⟨d.place order parent, 0, d.place order n, d.mType n⟩
  | parent0 :: parent1 :: _ =>
    ⟨d.place order parent0, d.place order parent1, d.place order n, d.mType n⟩

def circuitOf (order : List (Fin W)) : Circuit where
  mWireCount := d.inputWireCount + order.length
  mNonXorGateCount := order.countP fun n => !(d.mType n).isXor
  mOutputCount := 0
  mInputs := d.mInputCounts
  mGates := order.map (d.gateOf order)
  mOutputs := []

inductive Ordered : List (Fin W) → Prop
  | nil : Ordered []
  | snoc {order n} (ordered : Ordered order) (gate : ¬ d.isInput n) (new : n ∉ order)
    (parents : ∀ parent ∈ d.mParents n, d.isInput parent ∨ parent ∈ order) :
    Ordered (order ++ [n])

/-- The gates of `order` have been added, and those of `busy` are marked only. -/
structure Placed (busy : Fin W → Prop) (order : List (Fin W)) (s : AddState W) : Prop where
  ordered : d.Ordered order
  apart : ∀ n ∈ order, ¬ busy n
  marks : ∀ n : Fin W, s.added n.val = true ↔ d.isInput n ∨ n ∈ order ∨ busy n
  wires : ∀ n : Fin W, d.isInput n ∨ n ∈ order → s.newWireIdx n.val = d.place order n
  cir : s.cir = d.circuitOf order

/-- The children of a marked node will be visited, or the node itself will. -/
def Covered (exempt : Fin W → Prop) (s : AddState W) : Prop :=
  ∀ m : Fin W, s.added m.val = true → exempt m ∨ m ∈ s.addStack ∨
    ∀ child ∈ d.mChildren m, s.added child.val = true ∨ child ∈ s.addStack

/-- What the nodes that are not marked yet weigh together. -/
def left (weight : Fin W → Nat) (s : AddState W) : Nat :=
  ∑ n : Fin W, if s.added n.val = true then 0 else weight n

/-- How many more nodes can be popped from the stack. -/
def potential (s : AddState W) : Nat :=
  s.addStack.length + left (fun n => (d.mChildren n).length) s

variable {d} {busy exempt : Fin W → Prop} {order : List (Fin W)} {s t : AddState W}
  {n : Fin W}

theorem Ordered.gates (ordered : d.Ordered order) : ∀ n ∈ order, ¬ d.isInput n := by
  induction ordered with
  | nil => exact fun n none => absurd none List.not_mem_nil
  | snoc _ gate _ _ ih =>
    intro m listed
    rcases List.mem_append.mp listed with earlier | last
    · exact ih m earlier
    · rw [List.mem_singleton.mp last]
      exact gate

theorem Ordered.nodup (ordered : d.Ordered order) : order.Nodup := by
  induction ordered with
  | nil => exact List.nodup_nil
  | snoc _ _ new _ ih => exact List.nodup_append.mpr ⟨ih, List.nodup_singleton _, by
      rintro m earlier m' last rfl
      exact new (List.mem_singleton.mp last ▸ earlier)⟩

theorem place_append {m : Fin W} (placed : d.isInput m ∨ m ∈ order) (n : Fin W) :
    d.place (order ++ [n]) m = d.place order m := by
  unfold place
  split
  case isTrue => rfl
  case isFalse gate => rw [List.idxOf_append_of_mem (placed.resolve_left gate)]

theorem place_last (gate : ¬ d.isInput n) (new : n ∉ order) :
    d.place (order ++ [n]) n = d.inputWireCount + order.length := by
  unfold place
  rw [if_neg gate, List.idxOf_append_of_notMem new]
  simp

theorem place_lt {m : Fin W} (placed : d.isInput m ∨ m ∈ order) :
    d.place order m < d.inputWireCount + order.length := by
  unfold place
  split
  case isTrue input => exact Nat.lt_add_right _ input
  case isFalse gate =>
    exact Nat.add_lt_add_left (List.idxOf_lt_length_of_mem (placed.resolve_left gate)) _

theorem Ordered.parents_placed (ordered : d.Ordered order) :
    ∀ n ∈ order, ∀ parent ∈ d.mParents n, d.isInput parent ∨ parent ∈ order := by
  induction ordered with
  | nil => exact fun n none => absurd none List.not_mem_nil
  | snoc _ _ _ parents ih =>
    intro m listed parent reads
    rcases List.mem_append.mp listed with earlier | last
    · exact (ih m earlier parent reads).imp_right (List.mem_append_left _)
    · cases List.mem_singleton.mp last
      exact (parents parent reads).imp_right (List.mem_append_left _)

theorem Ordered.place_parent_lt (ordered : d.Ordered order) :
    ∀ n ∈ order, ∀ parent ∈ d.mParents n, d.place order parent < d.place order n := by
  induction ordered with
  | nil => exact fun n none => absurd none List.not_mem_nil
  | @snoc order n before gate new parents ih =>
    intro m listed parent reads
    rcases List.mem_append.mp listed with earlier | last
    · rw [place_append (before.parents_placed m earlier parent reads), place_append (.inr earlier)]
      exact ih m earlier parent reads
    · cases List.mem_singleton.mp last
      rw [place_append (parents parent reads), place_last gate new]
      exact place_lt (parents parent reads)

theorem gateOf_append (ordered : d.Ordered order) {m : Fin W} (listed : m ∈ order) (n : Fin W) :
    d.gateOf (order ++ [n]) m = d.gateOf order m := by
  have placed := ordered.parents_placed m listed
  unfold gateOf
  split
  case h_1 => rw [place_append (.inr listed)]
  case h_2 parent parents =>
    rw [place_append (.inr listed), place_append (placed parent (by rw [parents]; simp))]
  case h_3 parent0 parent1 _ parents =>
    rw [place_append (.inr listed), place_append (placed parent0 (by rw [parents]; simp)),
      place_append (placed parent1 (by rw [parents]; simp))]

theorem circuitOf_append (ordered : d.Ordered order) (n : Fin W) :
    d.circuitOf (order ++ [n]) = { d.circuitOf order with
      mWireCount := (d.circuitOf order).mWireCount + 1
      mNonXorGateCount := (d.circuitOf order).mNonXorGateCount +
        if (d.mType n).isXor then 0 else 1
      mGates := (d.circuitOf order).mGates ++ [d.gateOf (order ++ [n]) n] } := by
  have gates : order.map (d.gateOf (order ++ [n])) = order.map (d.gateOf order) :=
    List.map_congr_left fun m listed => gateOf_append ordered listed n
  unfold circuitOf
  simp only [List.map_append, gates, List.countP_append, List.length_append, List.length_singleton,
    Nat.add_assoc, List.countP_singleton, List.map_singleton]
  cases (d.mType n).isXor <;> rfl

theorem addGate_total {c : Circuit} {input0 input1 : Nat} {gt : GateType}
    (in0 : input0 ≤ c.mWireCount) (in1 : input1 ≤ c.mWireCount)
    (known : gt = .na ∨ gt.Garblable) : c.addGate input0 input1 gt = .ok ({ c with
      mNonXorGateCount := c.mNonXorGateCount + if gt.isXor then 0 else 1
      mGates := c.mGates ++ [⟨input0, input1, c.mWireCount, gt⟩]
      mWireCount := c.mWireCount + 1 }, c.mWireCount) := by
  have allowed : ¬ (gt = .a ∨ gt = .b ∨ gt = .nb ∨ gt = .one ∨ gt = .zero) := by
    rintro (rfl | rfl | rfl | rfl | rfl) <;> rcases known with other | table <;>
      first | cases other | exact table
  unfold Circuit.addGate
  rw [if_neg (by omega), if_neg (by omega), if_neg allowed]
  cases gt.isXor <;> rfl

theorem addNode_total (shaped : d.Shaped) (fresh : d.Fresh)
    (placed : d.Placed (fun m => busy m ∨ m = n) order s) (gate : ¬ d.isInput n) (idle : ¬ busy n)
    (parents : ∀ parent ∈ d.mParents n, d.isInput parent ∨ parent ∈ order) :
    ∃ t, d.addNode s n = .ok t ∧ d.Placed busy (order ++ [n]) t ∧ t.addStack = s.addStack ∧
      t.added = s.added := by
  have new : n ∉ order := fun listed => placed.apart n listed (.inr rfl)
  have wires (parent : Fin W) (reads : parent ∈ d.mParents n) :
      s.newWireIdx (d.mWireIdx parent) = d.place (order ++ [n]) parent ∧
        d.place (order ++ [n]) parent ≤ s.cir.mWireCount := by
    rw [shaped.wired, place_append (parents parent reads), placed.cir]
    exact ⟨placed.wires parent (parents parent reads), (place_lt (parents parent reads)).le⟩
  have last : s.cir.mWireCount = d.place (order ++ [n]) n := by
    rw [place_last gate new, placed.cir]
    rfl
  -- the gate is the next one of the circuit
  have added : d.addNode s n = .ok { s with
      cir := d.circuitOf (order ++ [n])
      newWireIdx := update s.newWireIdx n.val s.cir.mWireCount } := by
    rw [circuitOf_append placed.ordered, ← placed.cir]
    unfold addNode gateOf
    rcases shaped.gates n gate with ⟨parent, one, _⟩ | ⟨parent0, parent1, two, table⟩
    · obtain ⟨wire, below⟩ := wires parent (by rw [one]; exact List.mem_cons_self)
      simp only [one]
      rw [wire, addGate_total below (Nat.zero_le _) (.inl (fresh n parent one)), last, shaped.wired]
      rfl
    · obtain ⟨wire0, below0⟩ := wires parent0 (by rw [two]; simp)
      obtain ⟨wire1, below1⟩ := wires parent1 (by rw [two]; simp)
      simp only [two]
      rw [wire0, wire1, addGate_total below0 below1 (.inr table), last, shaped.wired]
      rfl
  refine ⟨_, added, ⟨.snoc placed.ordered gate new parents, ?_, ?_, ?_, rfl⟩, rfl, rfl⟩
  · intro m listed
    rcases List.mem_append.mp listed with earlier | here
    · exact fun waiting => placed.apart m earlier (.inl waiting)
    · rw [List.mem_singleton.mp here]
      exact idle
  · intro m
    rw [placed.marks m]
    simp only [List.mem_append, List.mem_singleton]
    tauto
  · intro m done
    rcases eq_or_ne m n with rfl | other
    · exact (update_self _ _ _).trans last
    · have before : d.isInput m ∨ m ∈ order := done.imp_right fun listed =>
        (List.mem_append.mp listed).resolve_right fun here => other (List.mem_singleton.mp here)
      rw [place_append before]
      refine (update_of_ne (fun same => other (Fin.ext same)) _ _).trans (placed.wires m before)

def Marks (s t : AddState W) : Prop := ∀ m : Fin W, s.added m.val = true → t.added m.val = true

theorem Marks.trans {u : AddState W} (first : Marks s t) (second : Marks t u) : Marks s u :=
  fun m marked => second m (first m marked)

theorem left_mono (weight : Fin W → Nat) (marks : Marks s t) : left weight t ≤ left weight s := by
  refine Finset.sum_le_sum fun m _ => ?_
  by_cases marked : s.added m.val = true
  · rw [if_pos (marks m marked)]
    exact Nat.zero_le _
  · rw [if_neg marked]
    split
    · exact Nat.zero_le _
    · exact Nat.le_refl _

theorem left_mark (weight : Fin W → Nat) (unmarked : s.added n.val = false)
    (mark : t.added = update s.added n.val true) : left weight t + weight n = left weight s := by
  unfold left
  rw [← Finset.sum_erase_add _ _ (Finset.mem_univ n),
    ← Finset.sum_erase_add Finset.univ _ (Finset.mem_univ n), mark, update_self, unmarked]
  simp only [if_true, Bool.false_eq_true, if_false, Nat.add_zero]
  congr 1
  refine Finset.sum_congr rfl fun m member => ?_
  rw [update_of_ne fun same => (Finset.mem_erase.mp member).1 (Fin.ext same)]

/-- What holds between two steps of `toCircuit`. -/
structure Sound (d : DagCircuit W) (busy exempt : Fin W → Prop) (s : AddState W) : Prop where
  placed : ∃ order, d.Placed busy order s
  covered : d.Covered exempt s

theorem Sound.push (sound : d.Sound busy exempt s) (n : Fin W) :
    d.Sound busy exempt (s.push n) := by
  obtain ⟨order, placed⟩ := sound.placed
  refine ⟨⟨order, placed.ordered, placed.apart, placed.marks, placed.wires, placed.cir⟩,
    fun m marked => ?_⟩
  refine (sound.covered m marked).imp_right fun covered => ?_
  refine covered.imp (List.mem_cons_of_mem n) fun children child listed => ?_
  exact (children child listed).imp_right (List.mem_cons_of_mem n)

def Visits (d : DagCircuit W) (rank : Fin W → Nat) (fuel : Nat) (explore : Bool) : Prop :=
  ∀ ⦃s : AddState W⦄ ⦃n : Fin W⦄ ⦃rest : List (Fin W)⦄ ⦃busy exempt : Fin W → Prop⦄,
    s.addStack = n :: rest → s.added n.val = false → d.Sound busy exempt s →
    (explore = true → ∀ b, ¬ busy b) → (∀ b, busy b → rank n < rank b) →
    left (fun _ => 1) s ≤ fuel →
    ∃ t, d.depthFirstAdd fuel explore s = .ok t ∧ d.Sound busy exempt t ∧ Marks s t ∧
      t.added n.val = true ∧ rest <:+ t.addStack ∧ d.potential t + 1 ≤ d.potential s

variable {rank : Fin W → Nat} {fuel : Nat} {explore : Bool}

theorem potential_push (s : AddState W) (n : Fin W) :
    d.potential (s.push n) = d.potential s + 1 := Nat.add_right_comm _ 1 _

theorem visit_parents (shaped : d.Shaped) (visits : d.Visits rank fuel false)
    {inputs : List (Fin W)} (low : ∀ input ∈ inputs, ∀ b, busy b → rank input < rank b)
    (sound : d.Sound busy exempt s) (room : left (fun _ => 1) s ≤ fuel) :
    ∃ t, inputs.foldlM (fun s input => if s.added (d.mWireIdx input) then .ok s
        else d.depthFirstAdd fuel false (s.push input)) s = .ok t ∧ d.Sound busy exempt t ∧
      Marks s t ∧ (∀ input ∈ inputs, t.added input.val = true) ∧ s.addStack <:+ t.addStack ∧
      d.potential t ≤ d.potential s := by
  induction inputs generalizing s with
  | nil => exact ⟨s, rfl, sound, fun _ => id, nofun, List.suffix_refl _, Nat.le_refl _⟩
  | cons input inputs ih =>
    have low' := fun other later => low other (List.mem_cons_of_mem _ later)
    rw [List.foldlM_cons, shaped.wired]
    by_cases added : s.added input.val = true
    · obtain ⟨t, run, sound, marks, all, stack, lower⟩ := ih low' sound room
      rw [if_pos added]
      refine ⟨t, run, sound, marks, ?_, stack, lower⟩
      exact List.forall_mem_cons.mpr ⟨marks input added, all⟩
    · have unmarked : (s.push input).added input.val = false := Bool.eq_false_iff.mpr added
      obtain ⟨u, call, sound, marks, here, stack, lower⟩ := visits rfl unmarked
        (sound.push input) (fun explore => by cases explore) (low input List.mem_cons_self) room
      obtain ⟨t, run, sound, marks', all, stack', lower'⟩ :=
        ih low' sound ((left_mono _ marks).trans room)
      rw [if_neg added, call]
      rw [potential_push] at lower
      refine ⟨t, run, sound, marks.trans marks', ?_, stack.trans stack', by omega⟩
      exact List.forall_mem_cons.mpr ⟨marks' input here, all⟩

theorem visit_children (shaped : d.Shaped) (children : List (Fin W))
    (visits : explore = true → d.Visits rank fuel true) (free : explore = true → ∀ b, ¬ busy b)
    (sound : d.Sound busy exempt s)
    (room : explore = true → left (fun _ => 1) s ≤ fuel) :
    ∃ t, children.foldlM (fun s child => if s.added (d.mWireIdx child) then .ok s
        else if explore then d.depthFirstAdd fuel true (s.push child) else .ok (s.push child)) s =
        .ok t ∧ d.Sound busy exempt t ∧ Marks s t ∧
      (∀ child ∈ children, t.added child.val = true ∨ child ∈ t.addStack) ∧
      s.addStack <:+ t.addStack ∧
      d.potential t ≤ d.potential s + if explore then 0 else children.length := by
  induction children generalizing s with
  | nil => exact ⟨s, rfl, sound, fun _ => id, nofun, List.suffix_refl _, Nat.le_add_right _ _⟩
  | cons child children ih =>
    rw [List.foldlM_cons, shaped.wired]
    by_cases added : s.added child.val = true
    · obtain ⟨t, run, sound, marks, all, stack, lower⟩ := ih sound room
      rw [if_pos added]
      refine ⟨t, run, sound, marks, ?_, stack, lower.trans ?_⟩
      · exact List.forall_mem_cons.mpr ⟨.inl (marks child added), all⟩
      · rw [List.length_cons]
        split <;> omega
    · rw [if_neg added]
      cases explore with
      | true =>
        have unmarked : (s.push child).added child.val = false := Bool.eq_false_iff.mpr added
        obtain ⟨u, call, sound, marks, here, stack, lower⟩ := visits rfl rfl unmarked
          (sound.push child) free (fun b busy => absurd busy (free rfl b)) (room rfl)
        obtain ⟨t, run, sound, marks', all, stack', lower'⟩ :=
          ih sound fun _ => (left_mono _ marks).trans (room rfl)
        rw [potential_push] at lower
        simp only [if_true] at lower' ⊢
        rw [call]
        refine ⟨t, run, sound, marks.trans marks', ?_, stack.trans stack', by omega⟩
        exact List.forall_mem_cons.mpr ⟨.inl (marks' child here), all⟩
      | false =>
        obtain ⟨t, run, sound, marks, all, stack, lower⟩ := ih (sound.push child) nofun
        rw [potential_push] at lower
        simp only [Bool.false_eq_true, if_false, List.length_cons] at lower ⊢
        refine ⟨t, run, sound, marks, ?_, (List.suffix_cons child _).trans stack, by omega⟩
        exact List.forall_mem_cons.mpr ⟨.inr (stack.subset List.mem_cons_self), all⟩

theorem Sound.mark {rest : List (Fin W)} (sound : d.Sound busy exempt s)
    (stack : s.addStack = n :: rest) (unmarked : s.added n.val = false) :
    d.Sound (fun m => busy m ∨ m = n) (fun m => exempt m ∨ m = n)
      { s with addStack := rest, added := update s.added n.val true } := by
  obtain ⟨order, placed⟩ := sound.placed
  have marks (m : Fin W) : update s.added n.val true m.val = true ↔
      s.added m.val = true ∨ m = n := by
    rcases eq_or_ne m n with rfl | other
    · simp
    · rw [update_of_ne fun same => other (Fin.ext same)]
      simp [other]
  refine ⟨⟨order, placed.ordered, ?_, ?_, placed.wires, placed.cir⟩, ?_⟩
  · rintro m listed (waiting | rfl)
    · exact placed.apart m listed waiting
    · cases unmarked.symm.trans ((placed.marks m).mpr (.inr (.inl listed)))
  · intro m
    rw [marks m, placed.marks m]
    tauto
  · intro m marked
    rcases (marks m).mp marked with before | rfl
    · have covered := sound.covered m before
      rw [stack] at covered
      rcases covered with exempted | listed | children
      · exact .inl (.inl exempted)
      · exact (List.mem_cons.mp listed).elim (fun same => .inl (.inr same)) fun later =>
          .inr (.inl later)
      · refine .inr (.inr fun child reads => ?_)
        rcases children child reads with added | listed
        · exact .inl ((marks child).mpr (.inl added))
        · exact (List.mem_cons.mp listed).imp_left fun same => (marks child).mpr (.inr same)
    · exact .inl (.inr rfl)

theorem Sound.pop {rest : List (Fin W)} (sound : d.Sound busy exempt s)
    (stack : s.addStack = n :: rest) (marked : s.added n.val = true) :
    d.Sound busy (fun m => exempt m ∨ m = n) { s with addStack := rest } := by
  obtain ⟨order, placed⟩ := sound.placed
  refine ⟨⟨order, placed.ordered, placed.apart, placed.marks, placed.wires, placed.cir⟩, ?_⟩
  intro m before
  have covered := sound.covered m before
  rw [stack] at covered
  rcases covered with exempted | listed | children
  · exact .inl (.inl exempted)
  · exact (List.mem_cons.mp listed).elim (fun same => .inl (.inr same)) fun later =>
      .inr (.inl later)
  · refine .inr (.inr fun child reads => ?_)
    rcases children child reads with added | listed
    · exact .inl added
    · refine (List.mem_cons.mp listed).imp_left fun same => ?_
      subst same
      exact marked

theorem Sound.settle (sound : d.Sound busy (fun m => exempt m ∨ m = n) s)
    (listed : ∀ child ∈ d.mChildren n, s.added child.val = true ∨ child ∈ s.addStack) :
    d.Sound busy exempt s := by
  refine ⟨sound.placed, fun m marked => ?_⟩
  rcases sound.covered m marked with (exempted | rfl) | covered
  · exact .inl exempted
  · exact .inr (.inr listed)
  · exact .inr covered

theorem visits (shaped : d.Shaped) (fresh : d.Fresh) (ranked : d.Ranked rank) (fuel : Nat)
    (explore : Bool) : d.Visits rank fuel explore := by
  induction fuel generalizing explore with
  | zero =>
    intro s n rest busy exempt _ unmarked _ _ _ room
    have one := left_mark (t := { s with added := update s.added n.val true }) (fun _ => 1)
      unmarked rfl
    omega
  | succ fuel ih =>
    intro s n rest busy exempt stack unmarked sound free low room
    obtain ⟨order, placed⟩ := sound.placed
    have absent : ¬ (d.isInput n ∨ n ∈ order ∨ busy n) := fun marked => by
      cases unmarked.symm.trans ((placed.marks n).mpr marked)
    have gate : ¬ d.isInput n := fun input => absent (.inl input)
    have idle : ¬ busy n := fun waiting => absent (.inr (.inr waiting))
    have sound₁ := sound.mark stack unmarked
    let s₁ : AddState W := { s with addStack := rest, added := update s.added n.val true }
    have one := left_mark (t := s₁) (fun _ => 1) unmarked rfl
    have children := left_mark (t := s₁) (fun m => (d.mChildren m).length) unmarked rfl
    -- the parents lie below all nodes that wait
    obtain ⟨u, parents, sound₂, marks₂, added, stack₂, lower₂⟩ :=
      visit_parents shaped (ih false) (s := s₁)
        (fun parent (reads : parent ∈ d.mParents n) b waits =>
        waits.elim (fun waiting => (ranked n parent reads).trans (low b waiting))
          fun same => same ▸ ranked n parent reads) sound₁ (by omega)
    obtain ⟨order₂, placed₂⟩ := sound₂.placed
    obtain ⟨v, node, placed₃, stack₃, added₃⟩ := addNode_total shaped fresh placed₂ gate idle
      fun parent reads => by
        have below := ranked n parent reads
        rcases (placed₂.marks parent).mp (added parent reads) with input | listed | waiting | rfl
        · exact .inl input
        · exact .inr listed
        · have := low parent waiting
          omega
        · omega
    have covered₃ : d.Covered (fun m => exempt m ∨ m = n) v := by
      intro m marked
      rw [stack₃, added₃]
      exact sound₂.covered m (added₃ ▸ marked)
    have left₃ (weight : Fin W → Nat) : left weight v = left weight u := by
      unfold left
      rw [added₃]
    obtain ⟨t, rest_run, sound₄, marks₄, listed, stack₄, lower₄⟩ :=
      visit_children shaped (d.mChildren n) (fun _ => ih true) free ⟨⟨_, placed₃⟩, covered₃⟩
        fun _ => by
          have := left_mono (fun _ => 1) marks₂
          rw [left₃]
          omega
    have marks : Marks s t := by
      refine Marks.trans (t := s₁) ?_ (marks₂.trans fun m marked => marks₄ m (added₃ ▸ marked))
      intro m marked
      by_cases same : m.val = n.val
      · exact (congrArg s₁.added same).trans (update_self _ _ _)
      · exact (update_of_ne same _ _).trans marked
    have here : t.added n.val = true :=
      marks₄ n (added₃ ▸ marks₂ n (update_self _ _ _))
    refine ⟨t, ?_, sound₄.settle listed, marks, here, ?_, ?_⟩
    · unfold depthFirstAdd
      rw [stack]
      simp only [shaped.wired, unmarked, Bool.false_eq_true, if_false]
      simp only [shaped.wired] at parents rest_run
      change (((d.mParents n).foldlM _ s₁ >>= _) >>= _) = _
      rw [parents]
      change (d.addNode u n >>= _) = _
      rw [node]
      exact rest_run
    · rw [stack₃] at stack₄
      exact stack₂.trans stack₄
    · have same : d.potential v = d.potential u := by
        unfold potential
        rw [left₃, stack₃]
      have before : d.potential s₁ + (d.mChildren n).length + 1 = d.potential s := by
        unfold potential
        rw [stack, List.length_cons]
        change rest.length + _ + _ + 1 = _
        omega
      split at lower₄ <;> omega

theorem depthFirstAdd_total (shaped : d.Shaped) (fresh : d.Fresh) (ranked : d.Ranked rank)
    {rest : List (Fin W)} (stack : s.addStack = n :: rest)
    (sound : d.Sound (fun _ => False) (fun _ => False) s) (room : left (fun _ => 1) s < fuel) :
    ∃ t, d.depthFirstAdd fuel true s = .ok t ∧ d.Sound (fun _ => False) (fun _ => False) t ∧
      Marks s t ∧ d.potential t + 1 ≤ d.potential s := by
  by_cases added : s.added n.val = true
  · -- only the children are visited
    obtain ⟨fuel, rfl⟩ := Nat.exists_eq_succ_of_ne_zero (Nat.ne_zero_of_lt room)
    obtain ⟨t, run, sound', marks, listed, _, lower⟩ := visit_children shaped (d.mChildren n)
      (fun (_ : true = true) => visits shaped fresh ranked fuel true) (fun _ _ => id)
      (sound.pop stack added) fun _ => Nat.le_of_lt_succ room
    refine ⟨t, ?_, sound'.settle listed, marks, ?_⟩
    · unfold depthFirstAdd
      rw [stack]
      simp only [shaped.wired, added, if_true]
      simp only [shaped.wired, if_true] at run
      exact run
    · have before : d.potential { s with addStack := rest } + 1 = d.potential s := by
        unfold potential
        rw [stack, List.length_cons]
        exact Nat.add_right_comm _ _ _
      rw [if_pos rfl] at lower
      omega
  · obtain ⟨t, run, sound, marks, _, _, lower⟩ := visits shaped fresh ranked fuel true stack
      (Bool.eq_false_iff.mpr added) sound (fun _ _ => id) (fun _ waits => waits.elim) room.le
    exact ⟨t, run, sound, marks, lower⟩

theorem addAll_total (shaped : d.Shaped) (fresh : d.Fresh) (ranked : d.Ranked rank)
    {passes : Nat} (sound : d.Sound (fun _ => False) (fun _ => False) s)
    (room : left (fun _ => 1) s < fuel) (enough : d.potential s ≤ passes) :
    ∃ t, d.addAll fuel passes s = .ok t ∧ d.Sound (fun _ => False) (fun _ => False) t ∧
      t.addStack = [] := by
  induction passes generalizing s with
  | zero =>
    have empty : s.addStack = [] := by
      refine List.eq_nil_of_length_eq_zero ?_
      unfold potential at enough
      omega
    exact ⟨s, if_pos empty, sound, empty⟩
  | succ passes ih =>
    unfold addAll
    cases stack : s.addStack with
    | nil =>
      rw [if_pos rfl]
      exact ⟨s, rfl, sound, stack⟩
    | cons n rest =>
      obtain ⟨t, run, sound, marks, lower⟩ :=
        depthFirstAdd_total shaped fresh ranked stack sound room
      obtain ⟨u, later, finished⟩ :=
        ih sound ((left_mono _ marks).trans_lt room) (by omega)
      refine ⟨u, ?_, finished⟩
      rw [if_neg (List.cons_ne_nil _ _), run]
      exact later

theorem Sound.complete (shaped : d.Shaped) (linked : d.Linked) (ranked : d.Ranked rank)
    (sound : d.Sound (fun _ => False) (fun _ => False) s) (empty : s.addStack = []) (n : Fin W) :
    s.added n.val = true := by
  obtain ⟨order, placed⟩ := sound.placed
  induction below : rank n using Nat.strongRecOn generalizing n with
  | ind r ih =>
    by_cases input : d.isInput n
    · exact (placed.marks n).mpr (.inl input)
    · obtain ⟨parent, reads⟩ : ∃ parent, parent ∈ d.mParents n := by
        rcases shaped.gates n input with ⟨parent, one, _⟩ | ⟨parent0, parent1, two, _⟩
        · exact ⟨parent, by rw [one]; exact List.mem_cons_self⟩
        · exact ⟨parent0, by rw [two]; exact List.mem_cons_self⟩
      have child : n ∈ d.mChildren parent := by
        rw [← List.count_pos_iff, linked parent n]
        exact List.count_pos_iff.mpr reads
      have marked := ih (rank parent) (below ▸ ranked n parent reads) parent rfl
      rcases sound.covered parent marked with exempted | listed | children
      · exact exempted.elim
      · rw [empty] at listed
        cases listed
      · rcases children n child with added | listed
        · exact added
        · rw [empty] at listed
          cases listed

theorem sound_initial :
    d.Sound (fun _ => False) (fun _ => False) d.initial := by
  refine ⟨⟨[], .nil, ?_, ?_, ?_, rfl⟩, ?_⟩
  · exact fun n none => absurd none List.not_mem_nil
  · intro n
    simp [initial, isInput]
  · intro n placed
    have input := placed.resolve_right List.not_mem_nil
    unfold place
    rw [if_pos input]
    exact if_pos input
  · intro m marked
    have input : d.isInput m := of_decide_eq_true marked
    refine .inr (.inl ?_)
    simpa [initial] using input

theorem left_initial_le (weight : Fin W → Nat) : left weight d.initial ≤ ∑ n, weight n := by
  refine Finset.sum_le_sum fun n _ => ?_
  split
  · exact Nat.zero_le _
  · exact Nat.le_refl _

theorem sum_children (linked : d.Linked) :
    ∑ n, (d.mChildren n).length = ∑ n, (d.mParents n).length := by
  have counted (l : List (Fin W)) : l.length = ∑ n, l.count n := by
    have all := Multiset.sum_count_eq_card (m := (l : Multiset (Fin W))) fun n _ =>
      Finset.mem_univ n
    simpa using all.symm
  calc ∑ n, (d.mChildren n).length = ∑ n, ∑ m, (d.mChildren n).count m :=
        Finset.sum_congr rfl fun n _ => counted _
    _ = ∑ m, ∑ n, (d.mChildren n).count m := Finset.sum_comm
    _ = ∑ m, ∑ n, (d.mParents m).count n :=
        Finset.sum_congr rfl fun m _ => Finset.sum_congr rfl fun n _ => linked n m
    _ = ∑ m, (d.mParents m).length := Finset.sum_congr rfl fun m _ => (counted _).symm

theorem potential_initial_le (shaped : d.Shaped) (linked : d.Linked) :
    d.potential d.initial ≤ 2 * W := by
  have stack : d.initial.addStack.length = ∑ n : Fin W, if d.isInput n then 1 else 0 := by
    rw [← Finset.card_filter]
    exact (List.length_reverse.trans rfl)
  have children := left_initial_le (d := d) fun n => (d.mChildren n).length
  rw [sum_children linked] at children
  calc d.potential d.initial
      ≤ (∑ n, if d.isInput n then 1 else 0) + ∑ n, (d.mParents n).length :=
        Nat.add_le_add stack.le children
    _ = ∑ n, ((if d.isInput n then 1 else 0) + (d.mParents n).length) :=
        Finset.sum_add_distrib.symm
    _ ≤ ∑ _ : Fin W, 2 := Finset.sum_le_sum fun n _ => by
        split
        case isTrue input => rw [shaped.inputs n input]; exact Nat.le_succ 1
        case isFalse => rw [Nat.zero_add]; exact shaped.parents_length n
    _ = 2 * W := by simp [Nat.mul_comm]

theorem addOutputs_total {newWireIdx : Nat → Nat} (wired : ∀ n, d.mWireIdx n = n.val)
    (ns : List (Fin W)) {c : Circuit} (below : ∀ n ∈ ns, newWireIdx n.val < c.mWireCount) :
    (ns.map some).foldlM (d.addOutput newWireIdx) c = .ok { c with
      mOutputs := c.mOutputs ++ ns.map fun n => newWireIdx n.val
      mOutputCount := c.mOutputCount + ns.length } := by
  induction ns generalizing c with
  | nil => simp [pure, Except.pure]
  | cons n ns ih =>
    have first : d.addOutput newWireIdx c (some n) = .ok { c with
        mOutputs := c.mOutputs ++ [newWireIdx n.val]
        mOutputCount := c.mOutputCount + 1 } := by
      simp only [addOutput, Circuit.addOutputWire]
      rw [wired, if_neg (Nat.not_le.mpr (below n List.mem_cons_self))]
    rw [List.map_cons, List.foldlM_cons, first]
    refine Eq.trans (ih fun m later => ?_ : List.foldlM _ _ _ = _) ?_
    · exact below m (List.mem_cons_of_mem _ later)
    simp only [List.append_assoc, List.singleton_append, List.map_cons, List.length_cons,
      Nat.add_assoc, Nat.add_comm 1]

/-- The circuit of an acyclic graph: all its gates, each once and after its parents. -/
theorem toCircuit_total (shaped : d.Shaped) (linked : d.Linked) (fresh : d.Fresh)
    (ranked : d.Ranked rank) {ns : List (Fin W)} (outputs : d.mOutputs = ns.map some)
    (enough : 2 * W < fuel) :
    ∃ order, d.Ordered order ∧ (∀ n, n ∈ order ↔ ¬ d.isInput n) ∧
      d.toCircuit fuel = .ok { d.circuitOf order with
        mOutputs := ns.map (d.place order)
        mOutputCount := ns.length } := by
  have room : left (fun _ => 1) d.initial < fuel := by
    have all := left_initial_le (d := d) fun _ => 1
    simp only [Finset.sum_const, Finset.card_univ, Fintype.card_fin, nsmul_one, Nat.cast_id] at all
    omega
  obtain ⟨s, added, sound, empty⟩ := addAll_total shaped fresh ranked sound_initial room
    ((potential_initial_le shaped linked).trans enough.le)
  obtain ⟨order, placed⟩ := sound.placed
  have complete (n : Fin W) : d.isInput n ∨ n ∈ order :=
    ((placed.marks n).mp (sound.complete shaped linked ranked empty n)).imp_right fun listed =>
      listed.resolve_right id
  refine ⟨order, placed.ordered, fun n => ⟨placed.ordered.gates n, (complete n).resolve_left⟩, ?_⟩
  unfold toCircuit
  rw [added, outputs]
  refine (addOutputs_total shaped.wired ns fun n _ => ?_).trans ?_
  · rw [placed.wires n (complete n), placed.cir]
    exact place_lt (complete n)
  · rw [placed.cir, List.map_congr_left fun n _ => placed.wires n (complete n)]
    simp [circuitOf]

end BatchDualEx.DagCircuit
