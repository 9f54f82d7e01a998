import BatchDualEx.Circuit.Circuit

/- Building a circuit by calls of `AddGate` and `AddOutputWire` with arbitrary arguments: which
   calls keep the circuit one that can be evaluated. -/
namespace BatchDualEx.Circuit

inductive Call where
  | addGate (input0 input1 : Nat) (gt : GateType)
  | addOutputWire (i : Nat)
  deriving DecidableEq, Repr

def ofInputs (n0 n1 : Nat) : Circuit := ⟨(n0 + n1) % 2 ^ 64, 0, 0, (n0, n1), [], []⟩

/-- The circuit after a call that returns; `mWireCount` is a `u64`. -/
def call (c : Circuit) : Call → Except Fault Circuit
  | .addGate input0 input1 gt => do
    let (c', _) ← c.addGate input0 input1 gt
    .ok { c' with mWireCount := c'.mWireCount % 2 ^ 64 }
  | .addOutputWire i => c.addOutputWire i

/-- Every check comes before the first change. -/
def after (c : Circuit) (call : Call) : Circuit :=
  match c.call call with
  | .ok c' => c'
  | .error _ => c

/-- A call throws, or it returns a circuit in which every gate reads wires before its own. -/
def Behaves (c : Circuit) (call : Call) : Prop :=
  (∃ what, c.call call = .error (.thrown what)) ∨ ∃ c', c.call call = .ok c' ∧ c'.WellFormed

/-- What the checks of `AddGate` let through. -/
structure Accepted (c : Circuit) (input0 input1 : Nat) (gt : GateType) : Prop where
  input0 : input0 ≤ c.mWireCount
  input1 : input1 ≤ c.mWireCount ∨ gt = .na ∧ input1 = noWire
  supported : ¬(gt = .a ∨ gt = .b ∨ gt = .nb ∨ gt = .one ∨ gt = .zero)

/-- The inputs of a gate that is let through are wires, and its output has a number. -/
def Keeps (c : Circuit) : Call → Prop
  | .addGate input0 input1 gt => c.Accepted input0 input1 gt →
      input0 < c.mWireCount ∧ input1 < c.mWireCount ∧ c.mWireCount + 1 < 2 ^ 64
  | .addOutputWire _ => True

def grown (c : Circuit) (input0 input1 : Nat) (gt : GateType) : Circuit :=
  { c with
    mNonXorGateCount := if gt.isXor then c.mNonXorGateCount else c.mNonXorGateCount + 1
    mGates := c.mGates ++ [⟨input0, input1, c.mWireCount, gt⟩]
    mWireCount := (c.mWireCount + 1) % 2 ^ 64 }

theorem addGate_accepted {c : Circuit} {input0 input1 : Nat} {gt : GateType}
    (accepted : c.Accepted input0 input1 gt) :
    c.call (.addGate input0 input1 gt) = .ok (c.grown input0 input1 gt) := by
  obtain ⟨first, second, supported⟩ := accepted
  have passes : ¬(c.mWireCount < input1 ∧ (gt ≠ .na ∨ input1 ≠ noWire)) := by
    rintro ⟨beyond, other⟩
    rcases second with inside | ⟨unary, marker⟩
    · omega
    · rcases other with kind | wire
      · exact kind unary
      · exact wire marker
  rw [call, addGate, if_neg (by omega), if_neg passes, if_neg supported]
  rfl

theorem addGate_refused {c : Circuit} {input0 input1 : Nat} {gt : GateType}
    (refused : ¬ c.Accepted input0 input1 gt) :
    c.call (.addGate input0 input1 gt) = .error (.thrown "") := by
  rw [call, addGate]
  by_cases first : c.mWireCount < input0
  · rw [if_pos first]
    rfl
  rw [if_neg first]
  by_cases second : c.mWireCount < input1 ∧ (gt ≠ .na ∨ input1 ≠ noWire)
  · rw [if_pos second]
    rfl
  rw [if_neg second]
  by_cases unsupported : gt = .a ∨ gt = .b ∨ gt = .nb ∨ gt = .one ∨ gt = .zero
  · rw [if_pos unsupported]
    rfl
  exfalso
  apply refused
  refine ⟨by omega, ?_, unsupported⟩
  by_contra other
  apply second
  constructor
  · by_contra inside
    exact other (.inl (by omega))
  · by_contra same
    push Not at same
    exact other (.inr same)

theorem grown_wellFormed_iff {c : Circuit} (wf : c.WellFormed) (input0 input1 : Nat)
    (gt : GateType) : (c.grown input0 input1 gt).WellFormed ↔
      input0 < c.mWireCount ∧ input1 < c.mWireCount ∧ c.mWireCount + 1 < 2 ^ 64 := by
  have next := wf.wires
  have ordered : OrderedFrom c.inputWireCount (c.grown input0 input1 gt).mGates ↔
      input0 < c.mWireCount ∧ input1 < c.mWireCount := by
    have gates : (c.grown input0 input1 gt).mGates =
        c.mGates ++ [⟨input0, input1, c.mWireCount, gt⟩] := rfl
    rw [gates, orderedFrom_append, ← next]
    constructor
    · rintro ⟨_, _, reads0, reads1, _⟩
      exact ⟨reads0, reads1⟩
    · rintro ⟨reads0, reads1⟩
      exact ⟨wf.ordered, rfl, reads0, reads1, trivial⟩
  have wires : (c.grown input0 input1 gt).mWireCount =
      c.inputWireCount + (c.grown input0 input1 gt).mGates.length ↔ c.mWireCount + 1 < 2 ^ 64 := by
    have count : (c.grown input0 input1 gt).mGates.length = c.mGates.length + 1 :=
      List.length_append
    have wrapped : (c.grown input0 input1 gt).mWireCount = (c.mWireCount + 1) % 2 ^ 64 := rfl
    rw [count, wrapped]
    omega
  constructor
  · intro wf'
    exact ⟨(ordered.mp wf'.ordered).1, (ordered.mp wf'.ordered).2, wires.mp wf'.wires⟩
  · rintro ⟨reads0, reads1, room⟩
    refine ⟨ordered.mpr ⟨reads0, reads1⟩, wires.mpr room, ?_, ?_, wf.outputCount⟩
    · simp only [grown, List.countP_append, List.countP_singleton, ← wf.tables]
      cases gt.isXor <;> simp
    · intro o listed
      have count : (c.grown input0 input1 gt).mWireCount = c.mWireCount + 1 :=
        Nat.mod_eq_of_lt room
      have old := wf.outputs o listed
      omega

theorem addOutputWire_behaves {c : Circuit} (wf : c.WellFormed) (i : Nat) :
    c.Behaves (.addOutputWire i) := by
  by_cases beyond : c.mWireCount ≤ i
  · exact .inl ⟨"", if_pos beyond⟩
  · refine .inr ⟨_, if_neg beyond, wf.ordered, wf.wires, wf.tables, ?_, ?_⟩
    · intro o listed
      rcases List.mem_append.mp listed with old | new
      · exact wf.outputs o old
      · rw [List.mem_singleton.mp new]
        exact Nat.lt_of_not_le beyond
    · simp only [List.length_append, List.length_singleton, wf.outputCount]

/-- On a circuit that can be evaluated a call goes well exactly when it meets the condition. -/
theorem behaves_iff {c : Circuit} (wf : c.WellFormed) (call : Call) :
    c.Behaves call ↔ c.Keeps call := by
  cases call with
  | addOutputWire i => exact iff_of_true (addOutputWire_behaves wf i) trivial
  | addGate input0 input1 gt =>
    by_cases accepted : c.Accepted input0 input1 gt
    · have kept := grown_wellFormed_iff wf input0 input1 gt
      rw [Behaves, addGate_accepted accepted]
      constructor
      · rintro (⟨what, thrown⟩ | ⟨c', returned, wf'⟩)
        · cases thrown
        · cases returned
          exact fun _ => kept.mp wf'
      · intro keeps
        exact .inr ⟨_, rfl, kept.mpr (keeps accepted)⟩
    · exact iff_of_true (.inl ⟨"", addGate_refused accepted⟩) fun passed => absurd passed accepted

theorem after_wellFormed {c : Circuit} (wf : c.WellFormed) {call : Call}
    (behaves : c.Behaves call) : (c.after call).WellFormed := by
  rcases behaves with ⟨what, thrown⟩ | ⟨c', returned, wf'⟩
  · rwa [after, thrown]
  · rwa [after, returned]

theorem ofInputs_wellFormed {n0 n1 : Nat} (fits : n0 + n1 < 2 ^ 64) :
    (ofInputs n0 n1).WellFormed :=
  ⟨trivial, Nat.mod_eq_of_lt fits, rfl, fun _ listed => absurd listed List.not_mem_nil, rfl⟩

def before (c : Circuit) (calls : List Call) (k : Nat) : Circuit := (calls.take k).foldl after c

theorem before_succ (c : Circuit) (calls : List Call) {k : Nat} (inside : k < calls.length) :
    c.before calls (k + 1) = (c.before calls k).after calls[k] := by
  rw [before, List.take_succ_eq_append_getElem inside, List.foldl_append]
  rfl

theorem before_wellFormed {c : Circuit} (wf : c.WellFormed) {calls : List Call} {k : Nat}
    (within : k ≤ calls.length)
    (behaves : ∀ j (_ : j < calls.length), j < k → (c.before calls j).Behaves calls[j]) :
    (c.before calls k).WellFormed := by
  induction k with
  | zero => exact wf
  | succ k ih =>
    have earlier := ih (by omega) fun j inside below => behaves j inside (by omega)
    rw [before_succ c calls within]
    exact after_wellFormed earlier (behaves k within (Nat.lt_succ_self k))

/-- All calls of a sequence go well exactly when each of them meets the condition. -/
theorem calls_behave_iff {n0 n1 : Nat} (fits : n0 + n1 < 2 ^ 64) (calls : List Call) :
    (∀ k (_ : k < calls.length), ((ofInputs n0 n1).before calls k).Behaves calls[k]) ↔
      ∀ k (_ : k < calls.length), ((ofInputs n0 n1).before calls k).Keeps calls[k] := by
  have start := ofInputs_wellFormed fits
  constructor
  · intro behaves k inside
    have now := before_wellFormed start (Nat.le_of_lt inside) fun j below _ => behaves j below
    exact (behaves_iff now _).mp (behaves k inside)
  · intro keeps k
    induction k using Nat.strong_induction_on with
    | _ k ih =>
      intro inside
      have now := before_wellFormed start (Nat.le_of_lt inside) fun j below earlier =>
        ih j earlier below
      exact (behaves_iff now _).mpr (keeps k inside)

theorem calls_behave_iff_two_calls :
    (∀ k (_ : k < [Call.addGate 0 1 .and, .addOutputWire 2].length),
        ((ofInputs 1 1).before [.addGate 0 1 .and, .addOutputWire 2] k).Behaves
          [.addGate 0 1 .and, .addOutputWire 2][k]) ↔
      ∀ k (_ : k < [Call.addGate 0 1 .and, .addOutputWire 2].length),
        ((ofInputs 1 1).before [.addGate 0 1 .and, .addOutputWire 2] k).Keeps
          [.addGate 0 1 .and, .addOutputWire 2][k] :=
  calls_behave_iff (by decide) _

/-- On a circuit of two inputs `AddGate(0, 2, And)` adds a gate that reads its own output, and
    the second input of `AddGate(0, (u64)-1, na)` is no wire. -/
theorem addGate_misbehaves :
    (ofInputs 1 1).call (.addGate 0 2 .and) = .ok ⟨3, 1, 0, (1, 1), [⟨0, 2, 2, .and⟩], []⟩ ∧
      ¬ (ofInputs 1 1).Behaves (.addGate 0 2 .and) ∧
      ¬ (ofInputs 1 1).Behaves (.addGate 0 noWire .na) := by
  have wf : (ofInputs 1 1).WellFormed := ofInputs_wellFormed (by decide)
  refine ⟨by decide, ?_, ?_⟩
  · intro behaves
    have keeps := (behaves_iff wf _).mp behaves ⟨by decide, .inl (by decide), by decide⟩
    exact absurd keeps.2.1 (by decide)
  · intro behaves
    have keeps := (behaves_iff wf _).mp behaves ⟨by decide, .inr ⟨rfl, rfl⟩, by decide⟩
    exact absurd keeps.2.1 (by decide)

end BatchDualEx.Circuit
