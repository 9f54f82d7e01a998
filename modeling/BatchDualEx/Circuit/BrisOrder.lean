import BatchDualEx.Circuit.BrisRegular
import BatchDualEx.Circuit.DagCount

/- The graph of a netlist that may be malformed, and what follows when as many gates are added as
   there are lines: these drive distinct wires, and no line depends on a cycle. -/
namespace BatchDualEx

open Function

namespace DagCircuit

section Nodes

variable {f : BrisFile} {d d' : DagCircuit f.mWireCount}

theorem Loaded.cases (loaded : Loaded f f.lines.reverse d) (lines : ∀ l ∈ f.lines, l.Connected)
    (n : Fin f.mWireCount) :
    (d.mParents n = [] ∧ (∀ l ∈ f.lines, l.output ≠ n.val) ∧
      d.mWireIdx n = if n.val < f.inputWireCount then n.val else 0) ∨
    ∃ l ∈ f.lines, l.output = n.val ∧ d.mWireIdx n = n.val ∧
      (d.mParents n).map Fin.val = l.inputs ∧ (l.gateType = "INV" ∧ d.isInvert n ∨
        l.gateType ≠ "INV" ∧ (d.mType n).Garblable ∧
          ((d.mParents n).length = 1 ∨ (d.mParents n).length = 2)) := by
  by_cases drives : ∃ l ∈ f.lines.reverse, l.output = n.val
  · obtain ⟨l, listed, here, wire, inputs, k, parsed⟩ := loaded.driven n drives
    have inFile := List.mem_reverse.mp listed
    refine .inr ⟨l, inFile, here, wire, inputs, ?_⟩
    have sized : l.inputs.length = (d.mParents n).length := by rw [← inputs, List.length_map]
    have type {t : GateType} {j : Nat} (known : parseType l.gateType = .ok (t, j)) :
        d.mType n = t := by
      rw [parsed] at known
      cases known
      rfl
    rcases (lines l inFile).2 with ⟨isInv, one⟩ | ⟨isXor | isAnd, few⟩
    · have inverts : d.mType n = .na := type (by rw [isInv]; rfl)
      exact .inl ⟨isInv, inverts, sized ▸ one⟩
    · have table : d.mType n = .xor := type (by rw [isXor]; rfl)
      rw [isXor, table, ← sized]
      exact .inr ⟨by decide, trivial, few⟩
    · have table : d.mType n = .and := type (by rw [isAnd]; rfl)
      rw [isAnd, table, ← sized]
      exact .inr ⟨by decide, trivial, few⟩
  · have none (l : BrisLine) (listed : l ∈ f.lines) : l.output ≠ n.val := fun here =>
      drives ⟨l, List.mem_reverse.mpr listed, here⟩
    obtain ⟨bare, wire⟩ := loaded.undriven n fun l listed => none l (List.mem_reverse.mp listed)
    exact .inl ⟨bare, none, wire⟩

theorem Loaded.inputWireCount (loaded : Loaded f f.lines.reverse d) :
    d.inputWireCount = f.inputWireCount := by
  unfold DagCircuit.inputWireCount BrisFile.inputWireCount
  rw [loaded.inputCounts]

theorem Loaded.outputs_driven (loaded : Loaded f f.lines.reverse d) (driven : f.OutputsDriven) :
    ∃ ns : List (Fin f.mWireCount), d.mOutputs = ns.map some ∧ ns.map Fin.val = f.outputWires := by
  have wide := driven.wide
  refine exists_outputs wide loaded.outputs fun k below => ?_
  obtain ⟨l, inFile, output⟩ := driven k below
  exact ⟨l, List.mem_reverse.mpr inFile, by omega⟩

/-- The graph as it is read, or with its INV gates removed. -/
structure Follows {W : Nat} (d d' : DagCircuit W) : Prop where
  inputCounts : d'.mInputCounts = d.mInputCounts
  wires : d'.mWireIdx = d.mWireIdx
  lengths : ∀ n, (d'.mParents n).length = (d.mParents n).length
  tables : ∀ n, (d.mType n).Garblable → (d'.mType n).Garblable

theorem Loaded.driven_or (loaded : Loaded f f.lines.reverse d) (inRange : f.InRange)
    (lines : ∀ l ∈ f.lines, l.Connected) (follows : Follows d d') (n : Fin f.mWireCount) :
    d'.Driven n ∨ d.mParents n = [] ∧
      d'.mWireIdx n = if n.val < f.inputWireCount then n.val else 0 := by
  have sized := follows.lengths n
  rcases loaded.cases lines n with ⟨bare, _, wire⟩ | ⟨l, inFile, here, wire, _, kind⟩
  · refine .inr ⟨bare, ?_⟩
    rw [follows.wires, wire]
  · left
    constructor
    · have above := (inRange.outputs l inFile).1
      have count := loaded.inputWireCount
      unfold isInput
      unfold DagCircuit.inputWireCount at count ⊢
      rw [follows.inputCounts]
      omega
    · rw [follows.wires, wire]
    · rcases kind with ⟨_, isInv⟩ | ⟨_, table, one | two⟩
      · exact .inl (List.length_eq_one_iff.mp (sized.trans isInv.2))
      · exact .inl (List.length_eq_one_iff.mp (sized.trans one))
      · obtain ⟨p0, p1, two'⟩ := List.length_eq_two.mp (sized.trans two)
        refine .inr ⟨p0, p1, two', ?_⟩
        intro isInv
        have table' := follows.tables n table
        rw [isInv] at table'
        exact table'

theorem Loaded.walkable (loaded : Loaded f f.lines.reverse d) (inRange : f.InRange)
    (lines : ∀ l ∈ f.lines, l.Connected) (follows : Follows d d') {kept : Fin f.mWireCount → Prop}
    (closed : d'.Closed kept) (start : ∀ n, kept n → 0 < f.inputWireCount) :
    d'.Walkable kept where
  closed := closed
  nodes := by
    intro n keeps
    refine (loaded.driven_or inRange lines follows n).imp_right ?_
    rintro ⟨_, wire⟩
    have some := start n keeps
    have count := loaded.inputWireCount
    unfold DagCircuit.inputWireCount at count ⊢
    rw [follows.inputCounts, wire, count]
    split <;> assumption
  small := inRange.u64

end Nodes

section Order

variable {W : Nat} {d₀ d : DagCircuit W} {kept inverter : Fin W → Prop} {order : List (Fin W)}
  {s : AddState W}

theorem Numbered.parent_mem (numbered : d.Numbered kept order s) (walk : d.Walkable kept)
    {n q : Fin W} (added : n ∈ order) (reads : q ∈ d.mParents n) (driven : d.Driven q) :
    q ∈ order ∧ s.newWireIdx q.val < s.newWireIdx n.val := by
  have rank := numbered.rank n added q reads
  rw [driven.wire] at rank
  refine ⟨?_, rank⟩
  by_contra new
  have room := numbered.room driven.gate new
  have small := walk.small
  have assigned := numbered.assigned n added
  rw [numbered.others q driven new] at rank
  omega

/-- A gate that has been added comes, in the graph as it was read, at the end of no cycle: its
    parents there have smaller numbers, or they are inverters behind such gates. -/
theorem Numbered.acc (numbered : d.Numbered kept order s) (walk : d.Walkable kept)
    (bare : ∀ n, ¬ d.Driven n → d₀.mParents n = [])
    (single : ∀ n, inverter n → ∃ parent, d₀.mParents n = [parent])
    (keeps : ∀ n ∈ order, ∀ p ∈ d₀.mParents n, (¬ inverter p → p ∈ d.mParents n) ∧
      ∀ q, inverter p → d₀.mParents p = [q] → q ∈ d.mParents n) :
    ∀ n ∈ order, Acc (fun p n => p ∈ d₀.mParents n) n := by
  intro n added
  induction number : s.newWireIdx n.val using Nat.strongRecOn generalizing n with
  | ind k ih =>
    have below (q : Fin W) (reads : q ∈ d.mParents n) : Acc (fun p n => p ∈ d₀.mParents n) q := by
      by_cases driven : d.Driven q
      · obtain ⟨earlier, rank⟩ := numbered.parent_mem walk added reads driven
        exact ih _ (number ▸ rank) q earlier rfl
      · constructor
        intro p none
        rw [bare q driven] at none
        cases none
    constructor
    intro p reads
    obtain ⟨direct, behind⟩ := keeps n added p reads
    by_cases isInverter : inverter p
    · obtain ⟨q, one⟩ := single p isInverter
      constructor
      intro q' reads'
      rw [one, List.mem_singleton] at reads'
      rw [reads']
      exact below q (behind q isInverter one)
    · exact below p (direct isInverter)

end Order

section Whole

variable {f : BrisFile} {d d' : DagCircuit f.mWireCount} {kept : Fin f.mWireCount → Prop}
  {order : List (Fin f.mWireCount)} {s : AddState f.mWireCount}

theorem Loaded.acc_reads (loaded : Loaded f f.lines.reverse d)
    (lines : ∀ l ∈ f.lines, l.Connected) (distinct : (f.lines.map (·.output)).Nodup)
    {n : Fin f.mWireCount} (acc : Acc (fun p n => p ∈ d.mParents n) n) : Acc f.Feeds n.val := by
  induction acc with
  | intro n _ ih =>
    constructor
    rintro _ ⟨l, listed, here, reads⟩
    rcases loaded.cases lines n with ⟨_, none, _⟩ | ⟨l', inFile, here', _, inputs, _⟩
    · exact absurd here (none l listed)
    · obtain rfl := List.inj_on_of_nodup_map distinct inFile listed (here'.trans here.symm)
      rw [← inputs] at reads
      obtain ⟨p, member, rfl⟩ := List.mem_map.mp reads
      exact ih p member

/-- As many gates as lines that are counted: these lines drive distinct wires, and all of them have
    been added. -/
theorem outputs_perm {lines : List BrisLine} (nodup : order.Nodup)
    (inside : ∀ n ∈ order, ∃ l ∈ lines, l.output = n.val) (count : order.length = lines.length) :
    (order.map Fin.val).Perm (lines.map (·.output)) := by
  have distinct := nodup.map Fin.val_injective
  refine (distinct.subperm ?_).perm_of_length_le ?_
  · intro w added
    obtain ⟨n, here, rfl⟩ := List.mem_map.mp added
    obtain ⟨l, listed, output⟩ := inside n here
    exact List.mem_map.mpr ⟨l, listed, output⟩
  · rw [List.length_map, List.length_map, count]

theorem mem_order {lines : List BrisLine}
    (perm : (order.map Fin.val).Perm (lines.map (·.output))) {l : BrisLine} (listed : l ∈ lines)
    {n : Fin f.mWireCount} (here : l.output = n.val) : n ∈ order := by
  have added := perm.symm.subset (List.mem_map_of_mem (f := (·.output)) listed)
  obtain ⟨m, member, same⟩ := List.mem_map.mp added
  rwa [← Fin.ext (same.trans here)]

theorem follows_refl {W : Nat} (d : DagCircuit W) : Follows d d :=
  ⟨rfl, rfl, fun _ => rfl, fun _ table => table⟩

theorem Loaded.bare (loaded : Loaded f f.lines.reverse d) (inRange : f.InRange)
    (lines : ∀ l ∈ f.lines, l.Connected) (follows : Follows d d') (n : Fin f.mWireCount)
    (undriven : ¬ d'.Driven n) : d.mParents n = [] :=
  ((loaded.driven_or inRange lines follows n).resolve_left undriven).1

theorem Loaded.line_of_driven (loaded : Loaded f f.lines.reverse d)
    (lines : ∀ l ∈ f.lines, l.Connected)
    (follows : Follows d d') {n : Fin f.mWireCount} (driven : d'.Driven n) :
    ∃ l ∈ f.lines, l.output = n.val ∧ (l.gateType = "INV" → d.isInvert n) := by
  rcases loaded.cases lines n with
    ⟨none, _⟩ | ⟨l, inFile, here, _, _, ⟨_, isInv⟩ | ⟨other, _⟩⟩
  · have sized := follows.lengths n
    rw [none] at sized
    rcases driven.parents with ⟨parent, one⟩ | ⟨parent0, parent1, two, _⟩
    · rw [one] at sized
      cases sized
    · rw [two] at sized
      cases sized
  · exact ⟨l, inFile, here, fun _ => isInv⟩
  · exact ⟨l, inFile, here, fun isInv => absurd isInv other⟩

/-- With all gates the file is regular. -/
theorem Loaded.regular_of_plain (loaded : Loaded f f.lines.reverse d) (inRange : f.InRange)
    (lines : ∀ l ∈ f.lines, l.Connected) (walk : d.Walkable kept)
    (numbered : d.Numbered kept order s) (count : order.length = f.lines.length) :
    f.Regular false := by
  have perm := outputs_perm numbered.nodup (fun n added => by
    obtain ⟨l, inFile, here, _⟩ := loaded.line_of_driven lines (follows_refl d)
      (numbered.gates n added).1
    exact ⟨l, inFile, here⟩) count
  have distinct := perm.nodup_iff.mp (numbered.nodup.map Fin.val_injective)
  have acc := numbered.acc walk (loaded.bare inRange lines (follows_refl d))
    (fun _ (never : False) => never.elim) fun n _ p reads =>
      ⟨fun _ => reads, fun _ never => never.elim⟩
  refine ⟨distinct, ?_, ?_⟩
  · intro l listed _
    exact loaded.acc_reads lines distinct
      (acc ⟨l.output, (inRange.outputs l listed).2⟩ (mem_order perm listed rfl))
  · intro reduced
    cases reduced

end Whole

end DagCircuit

end BatchDualEx
