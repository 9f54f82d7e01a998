import BatchDualEx.Circuit.DagCircuit
import BatchDualEx.Lib.Lists
import BatchDualEx.Lib.Result

/- What `toCircuit` returns: the circuit computes any valuation of the nodes which solves the
   equations of the gates, and adds only nodes that can be reached. -/
namespace BatchDualEx

open Function Result Lists

namespace Circuit

theorem foldl_evaluateGate_agree {n : Nat} {gs : List Gate} {labels labels' : List Bool}
    (reads : ∀ g ∈ gs, g.mInput0 < n ∧ g.mInput1 < n) (sized : n ≤ labels.length)
    (sized' : n ≤ labels'.length)
    (agree : ∀ w < n, labels.getD w false = labels'.getD w false) :
    ∀ w < n, (gs.foldl evaluateGate labels).getD w false =
      (gs.foldl evaluateGate labels').getD w false := by
  induction gs generalizing labels labels' with
  | nil => exact agree
  | cons g gs ih =>
    have first := reads g List.mem_cons_self
    refine ih (fun g later => reads g (List.mem_cons_of_mem _ later))
      (by rw [evaluateGate_length]; exact sized) (by rw [evaluateGate_length]; exact sized') ?_
    intro w below
    rw [evaluateGate_eq, evaluateGate_eq, agree _ first.1, agree _ first.2]
    by_cases written : g.mOutput = w
    · subst written
      rw [getD_set_self (by omega), getD_set_self (by omega)]
    · rw [getD_set_ne _ written, getD_set_ne _ written]
      exact agree w below

theorem orderedFrom_reads {n : Nat} {gs : List Gate} (ordered : OrderedFrom n gs) :
    ∀ g ∈ gs, g.mInput0 < n + gs.length ∧ g.mInput1 < n + gs.length := by
  induction gs generalizing n with
  | nil => exact fun g none => absurd none List.not_mem_nil
  | cons first gs ih =>
    obtain ⟨_, in0, in1, rest⟩ := ordered
    intro g listed
    rw [List.length_cons]
    rcases List.mem_cons.mp listed with rfl | later
    · omega
    · have := ih rest g later
      omega

def concat (c : Circuit) (tables input0 input1 : Nat) (gt : GateType) : Circuit :=
  { c with
    mNonXorGateCount := tables
    mGates := c.mGates ++ [⟨input0, input1, c.mWireCount, gt⟩]
    mWireCount := c.mWireCount + 1 }

theorem evaluate_concat {c : Circuit} (ordered : OrderedFrom c.inputWireCount c.mGates)
    (wires : c.mWireCount = c.inputWireCount + c.mGates.length) (labels : List Bool)
    {input0 input1 : Nat} (below0 : input0 < c.mWireCount) (below1 : input1 < c.mWireCount)
    (tables : Nat) (gt : GateType) :
    (∀ w < c.mWireCount, ((c.concat tables input0 input1 gt).evaluate labels).getD w false =
        (c.evaluate labels).getD w false) ∧
      ((c.concat tables input0 input1 gt).evaluate labels).getD c.mWireCount false =
        gt.apply ((c.evaluate labels).getD input0 false)
          ((c.evaluate labels).getD input1 false) := by
  have reads := orderedFrom_reads ordered
  rw [← wires] at reads
  have before : ∀ w < c.mWireCount,
      (c.mGates.foldl evaluateGate (labels.takeD (c.mWireCount + 1) false)).getD w false =
        (c.evaluate labels).getD w false := by
    refine foldl_evaluateGate_agree reads ?_ ?_ fun w below => ?_
    · rw [List.takeD_length]
      omega
    · rw [List.takeD_length]
    · rw [getD_takeD _ _ _ (by omega), getD_takeD _ _ _ below]
  have sized : (c.mGates.foldl evaluateGate (labels.takeD (c.mWireCount + 1) false)).length =
      c.mWireCount + 1 := by
    rw [foldl_evaluateGate_length, List.takeD_length]
  have evaluated : (c.concat tables input0 input1 gt).evaluate labels = evaluateGate
      (c.mGates.foldl evaluateGate (labels.takeD (c.mWireCount + 1) false))
      ⟨input0, input1, c.mWireCount, gt⟩ := by
    simp only [concat, evaluate, List.foldl_append, List.foldl_cons, List.foldl_nil]
  rw [evaluated, evaluateGate_eq]
  simp only
  constructor
  · intro w below
    rw [← before w below]
    exact getD_set_ne _ (Nat.ne_of_gt below) _ _
  · rw [getD_set_self (by omega), before _ below0, before _ below1]

end Circuit

namespace DagCircuit

variable {W : Nat} (d : DagCircuit W)

/-- The node has the value which its type gives to the values of its parents. With one parent
    the second input is some wire and must not matter. -/
def Computes (v : Fin W → Bool) (n : Fin W) : Prop :=
  match d.mParents n with
  | [] => True
  | [parent] => ∀ other, v n = (d.mType n).apply (v parent) other
  | parent0 :: parent1 :: _ => v n = (d.mType n).apply (v parent0) (v parent1)

structure Solves (x : List Bool) (v : Fin W → Bool) : Prop where
  inputs : ∀ n, d.isInput n → v n = x.getD n.val false
  computes : ∀ n, ¬ d.isInput n → d.Computes v n

/-- What is kept of the file by every step: nodes have their own wire index, a gate has one
    parent and is an inverter or a copy, or it has two and a table with both inputs. -/
structure Shaped : Prop where
  wired : ∀ n, d.mWireIdx n = n.val
  inputs : ∀ n, d.isInput n → d.mParents n = []
  gates : ∀ n, ¬ d.isInput n →
    (∃ parent, d.mParents n = [parent] ∧ (d.mType n = .na ∨ d.mType n = .a)) ∨
      ∃ parent0 parent1, d.mParents n = [parent0, parent1] ∧ (d.mType n).Garblable

/-- Nodes from which parents and children lead to such nodes only. -/
structure Closed (kept : Fin W → Prop) : Prop where
  inputs : ∀ n, d.isInput n → kept n
  parents : ∀ n, kept n → ∀ parent ∈ d.mParents n, kept parent
  children : ∀ n, kept n → ∀ child ∈ d.mChildren n, kept child

/-- Between two steps of `toCircuit`: every node that has a wire is kept and has its value. -/
structure AddInv (kept : Fin W → Prop) (x : List Bool) (v : Fin W → Bool) (s : AddState W) :
    Prop where
  inputs : s.cir.inputWireCount = d.inputWireCount
  wires : s.cir.mWireCount = d.inputWireCount + s.cir.mGates.length
  ordered : Circuit.OrderedFrom d.inputWireCount s.cir.mGates
  values : ∀ n : Fin W, s.newWireIdx n.val ≠ Circuit.noWire → kept n ∧
    s.newWireIdx n.val < s.cir.mWireCount ∧
      (s.cir.evaluate x).getD (s.newWireIdx n.val) false = v n

/-- A run of `toCircuit` only adds gates, and keeps the invariant as long as no wire gets the
    number that stands for no wire. -/
structure Extends (kept : Fin W → Prop) (x : List Bool) (v : Fin W → Bool) (s t : AddState W) :
    Prop where
  grows : s.cir.mWireCount ≤ t.cir.mWireCount
  balanced : t.cir.mWireCount + s.cir.mGates.length = s.cir.mWireCount + t.cir.mGates.length
  outputs : t.cir.mOutputs = s.cir.mOutputs ∧ t.cir.mOutputCount = s.cir.mOutputCount
  inv : t.cir.mWireCount ≤ Circuit.noWire → d.AddInv kept x v s → d.AddInv kept x v t

def Adds (kept : Fin W → Prop) (x : List Bool) (v : Fin W → Bool) (s t : AddState W) : Prop :=
  (∀ n ∈ s.addStack, kept n) → (∀ n ∈ t.addStack, kept n) ∧ d.Extends kept x v s t

variable {d} {kept : Fin W → Prop} {x : List Bool} {v : Fin W → Bool}

theorem Extends.refl (s : AddState W) : d.Extends kept x v s s :=
  ⟨le_rfl, rfl, ⟨rfl, rfl⟩, fun _ inv => inv⟩

theorem Extends.trans {s t u : AddState W} (first : d.Extends kept x v s t)
    (second : d.Extends kept x v t u) : d.Extends kept x v s u where
  grows := first.grows.trans second.grows
  balanced := by
    have := first.balanced
    have := second.balanced
    omega
  outputs := ⟨second.outputs.1.trans first.outputs.1, second.outputs.2.trans first.outputs.2⟩
  inv := fun bound inv => second.inv bound (first.inv (second.grows.trans bound) inv)

theorem Adds.refl (s : AddState W) : d.Adds kept x v s s := fun stack => ⟨stack, .refl s⟩

theorem Adds.trans {s t u : AddState W} (first : d.Adds kept x v s t)
    (second : d.Adds kept x v t u) : d.Adds kept x v s u := by
  intro stack
  obtain ⟨stack, extends_t⟩ := first stack
  obtain ⟨stack, extends_u⟩ := second stack
  exact ⟨stack, extends_t.trans extends_u⟩

theorem addGate_ok {c c' : Circuit} {input0 input1 wire : Nat} {gt : GateType}
    (run : c.addGate input0 input1 gt = .ok (c', wire)) :
    input0 ≤ c.mWireCount ∧ (input1 ≤ c.mWireCount ∨ gt = .na) ∧ gt ≠ .a ∧
      wire = c.mWireCount ∧ ∃ tables, c' = c.concat tables input0 input1 gt := by
  unfold Circuit.addGate at run
  split at run
  case isTrue => cases run
  case isFalse in0 =>
    split at run
    case isTrue => cases run
    case isFalse in1 =>
      split at run
      case isTrue => cases run
      case isFalse allowed =>
        cases run
        refine ⟨by omega, ?_, fun copy => allowed (.inl copy), rfl, _, rfl⟩
        by_cases inverter : gt = .na
        · exact .inr inverter
        · left
          by_contra above
          exact in1 ⟨by omega, .inl inverter⟩

theorem AddInv.concat {s : AddState W} (inv : d.AddInv kept x v s) {n : Fin W}
    {input0 input1 : Nat} {gt : GateType} (keeps : kept n) (below0 : input0 < s.cir.mWireCount)
    (below1 : input1 < s.cir.mWireCount)
    (value : v n = gt.apply ((s.cir.evaluate x).getD input0 false)
      ((s.cir.evaluate x).getD input1 false)) (tables : Nat) :
    d.AddInv kept x v { s with
      newWireIdx := update s.newWireIdx n.val s.cir.mWireCount
      cir := s.cir.concat tables input0 input1 gt } := by
  have ordered := inv.ordered
  rw [← inv.inputs] at ordered
  have labels := Circuit.evaluate_concat ordered (inv.inputs ▸ inv.wires) x below0 below1
    tables gt
  refine ⟨inv.inputs, ?_, ?_, fun m assigned => ?_⟩
  · have := inv.wires
    simp only [Circuit.concat, List.length_append, List.length_singleton]
    omega
  · simp only [Circuit.concat]
    rw [Circuit.orderedFrom_append]
    refine ⟨inv.ordered, inv.wires, ?_, ?_, trivial⟩
    · rw [← inv.wires]
      exact below0
    · rw [← inv.wires]
      exact below1
  · by_cases same : m = n
    · subst same
      simp only [update_self]
      exact ⟨keeps, Nat.lt_succ_self _, labels.2.trans value.symm⟩
    · have apart : m.val ≠ n.val := fun equal => same (Fin.ext equal)
      simp only [update_of_ne apart] at assigned ⊢
      obtain ⟨keepsOld, below, old⟩ := inv.values m assigned
      exact ⟨keepsOld, Nat.lt_succ_of_lt below, (labels.1 _ below).trans old⟩

theorem AddInv.input {s : AddState W} (inv : d.AddInv kept x v s) {n : Fin W}
    (accepted : s.newWireIdx n.val ≤ s.cir.mWireCount)
    (room : s.cir.mWireCount + 1 ≤ Circuit.noWire) :
    s.newWireIdx n.val < s.cir.mWireCount ∧
      (s.cir.evaluate x).getD (s.newWireIdx n.val) false = v n :=
  (inv.values n (by omega)).2

theorem addNode_adds (shaped : d.Shaped) (solves : d.Solves x v) {n : Fin W}
    (keeps : kept n) {s t : AddState W} (run : d.addNode s n = .ok t) :
    d.Adds kept x v s t := by
  have gate : ¬ d.isInput n := by
    intro input
    unfold addNode at run
    rw [shaped.inputs n input] at run
    cases run
  have computes := solves.computes n gate
  rcases shaped.gates n gate with ⟨parent, parents, inverter⟩ | ⟨parent0, parent1, parents, table⟩
  · unfold addNode at run
    simp only [parents, shaped.wired] at run
    obtain ⟨⟨cir, wire⟩, added, run⟩ := bind_ok run
    obtain ⟨accepted, _, noCopy, rfl, tables, rfl⟩ := addGate_ok added
    cases run
    refine fun stack => ⟨stack, Nat.le_succ _, ?_, ⟨rfl, rfl⟩, fun room inv => ?_⟩
    · simp only [Circuit.concat, List.length_append, List.length_singleton]
      omega
    · obtain ⟨below, value⟩ := inv.input accepted room
      simp only [Computes, parents] at computes
      refine inv.concat keeps below (by omega) ?_ tables
      rw [value]
      exact computes _
  · unfold addNode at run
    simp only [parents, shaped.wired] at run
    obtain ⟨⟨cir, wire⟩, added, run⟩ := bind_ok run
    obtain ⟨accepted0, accepted1, _, rfl, tables, rfl⟩ := addGate_ok added
    cases run
    refine fun stack => ⟨stack, Nat.le_succ _, ?_, ⟨rfl, rfl⟩, fun room inv => ?_⟩
    · simp only [Circuit.concat, List.length_append, List.length_singleton]
      omega
    · have both := accepted1.resolve_right fun inverter => by
        rw [inverter] at table
        exact table
      obtain ⟨below0, value0⟩ := inv.input accepted0 room
      obtain ⟨below1, value1⟩ := inv.input both room
      simp only [Computes, parents] at computes
      refine inv.concat keeps below0 below1 ?_ tables
      rw [value0, value1]
      exact computes

theorem adds_of_stack {s t : AddState W} (wires : t.newWireIdx = s.newWireIdx)
    (cir : t.cir = s.cir) (stack : (∀ n ∈ s.addStack, kept n) → ∀ n ∈ t.addStack, kept n) :
    d.Adds kept x v s t := by
  refine fun keptStack => ⟨stack keptStack, by rw [cir], by rw [cir], by rw [cir]; exact ⟨rfl, rfl⟩,
    fun _ inv => ?_⟩
  exact ⟨by rw [cir]; exact inv.inputs, by rw [cir]; exact inv.wires,
    by rw [cir]; exact inv.ordered, by rw [cir, wires]; exact inv.values⟩

theorem push_adds (s : AddState W) {n : Fin W} (keeps : kept n) :
    d.Adds kept x v s (s.push n) := by
  refine adds_of_stack rfl rfl fun stack m listed => ?_
  rcases List.mem_cons.mp listed with rfl | later
  · exact keeps
  · exact stack m later

/-- Every call adds kept nodes only: the popped node is on the stack and so kept, and with it
    its parents and children. -/
theorem depthFirstAdd_adds (shaped : d.Shaped) (solves : d.Solves x v) (closed : d.Closed kept)
    {fuel : Nat} {explore : Bool} {s t : AddState W}
    (run : d.depthFirstAdd fuel explore s = .ok t) : d.Adds kept x v s t := by
  induction fuel generalizing explore s t with
  | zero => cases run
  | succ fuel ih =>
    unfold depthFirstAdd at run
    split at run
    case h_1 => cases run
    case h_2 n rest popped =>
      intro stack
      have keeps : kept n := stack n (by rw [popped]; exact List.mem_cons_self)
      obtain ⟨s', added, run⟩ := bind_ok run
      have pop : d.Adds kept x v s { s with addStack := rest } := by
        refine adds_of_stack rfl rfl fun stack m listed => stack m ?_
        rw [popped]
        exact List.mem_cons_of_mem _ listed
      have first : d.Adds kept x v { s with addStack := rest } s' := by
        split at added
        case isTrue =>
          cases added
          exact .refl _
        case isFalse =>
          obtain ⟨s'', parents, added⟩ := bind_ok added
          have mark : d.Adds kept x v { s with addStack := rest }
              { s with addStack := rest, added := update s.added (d.mWireIdx n) true } :=
            adds_of_stack rfl rfl id
          refine mark.trans (.trans ?_ (addNode_adds shaped solves keeps added))
          refine foldlM_ok .refl .trans (fun parent listed a b step => ?_) parents
          split at step
          case isTrue =>
            cases step
            exact .refl _
          case isFalse =>
            exact .trans (push_adds a (closed.parents n keeps parent listed)) (ih step)
      refine (pop.trans (first.trans ?_)) stack
      refine foldlM_ok .refl .trans (fun child listed a b step => ?_) run
      have pushed := push_adds (d := d) (x := x) (v := v) a (closed.children n keeps child listed)
      split at step
      case isTrue =>
        cases step
        exact .refl _
      case isFalse =>
        split at step
        case isTrue => exact .trans pushed (ih step)
        case isFalse =>
          cases step
          exact pushed

theorem addAll_adds (shaped : d.Shaped) (solves : d.Solves x v) (closed : d.Closed kept)
    {fuel passes : Nat} {s t : AddState W} (run : d.addAll fuel passes s = .ok t) :
    d.Adds kept x v s t := by
  induction passes generalizing s with
  | zero =>
    unfold addAll at run
    split at run
    case isTrue =>
      cases run
      exact .refl _
    case isFalse => cases run
  | succ passes ih =>
    unfold addAll at run
    split at run
    case isTrue =>
      cases run
      exact .refl _
    case isFalse =>
      obtain ⟨s', first, run⟩ := bind_ok run
      exact .trans (depthFirstAdd_adds shaped solves closed first) (ih run)

theorem inv_initial (solves : d.Solves x v) (closed : d.Closed kept) :
    d.AddInv kept x v d.initial := by
  refine ⟨rfl, rfl, trivial, fun n assigned => ?_⟩
  by_cases input : d.isInput n
  · have wire : d.initial.newWireIdx n.val = n.val := if_pos input
    rw [wire]
    refine ⟨closed.inputs n input, input, ?_⟩
    rw [solves.inputs n input]
    exact getD_takeD _ _ _ input
  · exact absurd (if_neg input) assigned

theorem addOutputs_ok {newWireIdx : Nat → Nat} {outputs : List (Option (Fin W))}
    {c c' : Circuit} (run : outputs.foldlM (d.addOutput newWireIdx) c = .ok c') :
    ∃ ns : List (Fin W), outputs = ns.map some ∧
      (∀ n ∈ ns, newWireIdx (d.mWireIdx n) < c.mWireCount) ∧ c' = { c with
        mOutputs := c.mOutputs ++ ns.map fun n => newWireIdx (d.mWireIdx n)
        mOutputCount := c.mOutputCount + ns.length } := by
  induction outputs generalizing c with
  | nil =>
    cases run
    exact ⟨[], rfl, fun n none => absurd none List.not_mem_nil, by simp⟩
  | cons output outputs ih =>
    obtain ⟨next, first, run⟩ := bind_ok run
    cases output with
    | none => cases first
    | some n =>
      simp only [addOutput, Circuit.addOutputWire] at first
      split at first
      case isTrue => cases first
      case isFalse below =>
        cases first
        obtain ⟨ns, rfl, wires, rfl⟩ := ih run
        refine ⟨n :: ns, rfl, fun m listed => ?_, ?_⟩
        · rcases List.mem_cons.mp listed with rfl | later
          · exact Nat.lt_of_not_le below
          · exact wires m later
        · simp only [List.map_cons, List.append_assoc, List.singleton_append, List.length_cons,
            Nat.add_assoc, Nat.add_comm 1]

/-- A circuit whose number of wires can be told from `(u64) -1` computes every valuation that
    solves the graph, on outputs that are all kept. -/
theorem toCircuit_correct (shaped : d.Shaped) (solves : d.Solves x v) (closed : d.Closed kept)
    {fuel : Nat} {c : Circuit} (run : d.toCircuit fuel = .ok c)
    (room : d.inputWireCount + c.mGates.length ≤ Circuit.noWire) :
    ∃ ns : List (Fin W), d.mOutputs = ns.map some ∧ (∀ n ∈ ns, kept n) ∧
      c.translate (c.evaluate x) = ns.map v := by
  obtain ⟨s, built, run⟩ := bind_ok run
  obtain ⟨ns, outputs, wires, rfl⟩ := addOutputs_ok run
  have start : ∀ n ∈ d.initial.addStack, kept n := by
    intro n listed
    have input := (List.mem_filter.mp (List.mem_reverse.mp listed)).2
    exact closed.inputs n (of_decide_eq_true input)
  obtain ⟨_, extends_s⟩ := addAll_adds shaped solves closed built start
  have count : s.cir.mWireCount = d.inputWireCount + s.cir.mGates.length := extends_s.balanced
  have inv := extends_s.inv (count ▸ room) (inv_initial solves closed)
  have none : s.cir.mOutputs = [] ∧ s.cir.mOutputCount = 0 := extends_s.outputs
  have values : ∀ n ∈ ns, kept n ∧
      (s.cir.evaluate x).getD (s.newWireIdx (d.mWireIdx n)) false = v n := by
    intro n listed
    have wire := wires n listed
    rw [shaped.wired] at wire ⊢
    have assigned := inv.values n (by rw [count] at wire; simp only at room; omega)
    exact ⟨assigned.1, assigned.2.2⟩
  refine ⟨ns, outputs, fun n listed => (values n listed).1, ?_⟩
  change (List.map _ (s.cir.mOutputs ++ _)).takeD (s.cir.mOutputCount + ns.length) false = _
  rw [none.1, none.2, List.nil_append, List.map_map, Nat.zero_add,
    List.takeD_eq_take _ (by rw [List.length_map]),
    List.take_of_length_le (by rw [List.length_map])]
  exact List.map_congr_left fun n listed => (values n listed).2

end DagCircuit

end BatchDualEx
