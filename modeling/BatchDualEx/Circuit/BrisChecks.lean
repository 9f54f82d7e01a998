import BatchDualEx.Circuit.BrisOrder
import BatchDualEx.Circuit.RemoveInverts

/- Which malformed netlists `Circuit::readBris` refuses: nothing looks for cycles, or for wires that
   are driven twice or not at all, but the number of the gates that are added shows them. -/
namespace BatchDualEx

open Function Result

namespace DagCircuit

section Inverts

variable {f : BrisFile} {d d' : DagCircuit f.mWireCount} {n : Fin f.mWireCount}
  {kept : Fin f.mWireCount → Prop} {order : List (Fin f.mWireCount)} {s : AddState f.mWireCount}

theorem eq_of_count_one {lines : List BrisLine} {l l' : BrisLine}
    (once : (lines.map (·.output)).count l.output = 1) (listed : l ∈ lines) (listed' : l' ∈ lines)
    (same : l'.output = l.output) : l' = l := by
  rw [List.count_eq_countP, List.countP_map, List.countP_eq_length_filter] at once
  obtain ⟨only, one⟩ := List.length_eq_one_iff.mp once
  have here (k : BrisLine) (listed : k ∈ lines) (same : k.output = l.output) : k = only := by
    rw [← List.mem_singleton, ← one, List.mem_filter]
    exact ⟨listed, by simp [same]⟩
  exact (here l' listed' same).trans (here l listed rfl).symm

theorem Loaded.line_of_isInvert (loaded : Loaded f f.lines.reverse d)
    (lines : ∀ l ∈ f.lines, l.Connected) (inverter : d.isInvert n) :
    ∃ l ∈ f.lines, l.gateType = "INV" ∧ l.output = n.val ∧
      (d.mParents n).map Fin.val = l.inputs := by
  rcases loaded.cases lines n with
    ⟨bare, _⟩ | ⟨l, inFile, here, _, inputs, ⟨isInv, _⟩ | ⟨_, table, _⟩⟩
  · have one := inverter.2
    rw [bare] at one
    cases one
  · exact ⟨l, inFile, isInv, here, inputs⟩
  · rw [inverter.1] at table
    exact table.elim

theorem Loaded.driven_of_isInvert (loaded : Loaded f f.lines.reverse d) (inRange : f.InRange)
    (lines : ∀ l ∈ f.lines, l.Connected) (follows : Follows d d') (inverter : d.isInvert n) :
    d'.Driven n := by
  refine (loaded.driven_or inRange lines follows n).resolve_right ?_
  rintro ⟨none, _⟩
  have one := inverter.2
  rw [none] at one
  cases one

theorem Loaded.unreduced (loaded : Loaded f f.lines.reverse d) (inRange : f.InRange)
    (lines : ∀ l ∈ f.lines, l.Connected)
    (once : ∀ l ∈ f.lines, l.gateType = "INV" → (f.lines.map (·.output)).count l.output = 1) :
    d.Unreduced where
  inputs := by
    intro n input
    rcases loaded.cases lines n with ⟨bare, _⟩ | ⟨l, inFile, here, _⟩
    · exact bare
    · have above := (inRange.outputs l inFile).1
      have count := loaded.inputWireCount
      unfold isInput at input
      omega
  gates := by
    intro n
    rcases loaded.cases lines n with
      ⟨bare, _⟩ | ⟨l, _, _, _, _, ⟨_, isInv⟩ | ⟨_, table, sized⟩⟩
    · exact .inl bare
    · exact .inr (.inl isInv)
    · exact .inr (.inr ⟨by omega, table⟩)
  listed := by
    intro n isInv
    apply loaded.linked
    obtain ⟨l, inFile, type, here, _⟩ := loaded.line_of_isInvert lines isInv
    have single := once l inFile type
    rw [here, List.count_eq_countP, List.countP_map] at single
    rw [List.countP_reverse]
    exact single.le

theorem Loaded.inverted (loaded : Loaded f f.lines.reverse d) (inRange : f.InRange)
    (lines : ∀ l ∈ f.lines, l.Connected)
    (once : ∀ l ∈ f.lines, l.gateType = "INV" → (f.lines.map (·.output)).count l.output = 1) :
    f.inverted = d.inverted := by
  funext w
  unfold BrisFile.inverted
  cases found : f.lines.find? fun l => l.gateType = "INV" ∧ l.output = w with
  | none =>
    have none := List.find?_eq_none.mp found
    rw [Option.bind_none]
    by_cases inside : w < f.mWireCount
    · refine (inverted_of_not (n := ⟨w, inside⟩) fun isInv => ?_).symm
      obtain ⟨l, inFile, type, here, _⟩ := loaded.line_of_isInvert lines isInv
      exact none l inFile (decide_eq_true ⟨type, here⟩)
    · unfold DagCircuit.inverted
      rw [dif_neg inside]
  | some l =>
    have inFile := List.mem_of_find?_eq_some found
    have isLine := List.find?_some found
    obtain ⟨type, rfl⟩ := of_decide_eq_true isLine
    have inside := (inRange.outputs l inFile).2
    rcases loaded.cases lines ⟨l.output, inside⟩ with
      ⟨_, none, _⟩ | ⟨l', inFile', here, _, inputs, kind⟩
    · exact absurd rfl (none l inFile)
    · obtain rfl := eq_of_count_one (once l inFile type) inFile inFile' here
      rcases kind with ⟨_, isInv⟩ | ⟨other, _⟩
      · obtain ⟨q, one⟩ := List.length_eq_one_iff.mp isInv.2
        rw [one] at inputs
        rw [Option.bind_some, ← inputs]
        exact (inverted_of_isInvert (n := ⟨l'.output, inside⟩) isInv one).symm
      · exact absurd type other

theorem Loaded.settled (loaded : Loaded f f.lines.reverse d) (lines : ∀ l ∈ f.lines, l.Connected)
    (same : f.inverted = d.inverted) (inverts : f.InvertsTrusted) : d.Settled f.dropped where
  copies := same ▸ inverts.settled
  short := by
    intro n p q isInv one inverter one' copy noInverter
    obtain ⟨l, inFile, type, here, inputs⟩ := loaded.line_of_isInvert lines isInv
    have short := inverts.short l inFile type
    rw [same, here, ← inputs, one] at short
    have reads := inverted_of_isInvert inverter.1 one'
    rcases short copy p.val List.mem_cons_self q.val reads (inverted_of_not noInverter) with
      copied | moved
    · rw [inverter.2] at copied
      cases copied
    · exact moved

variable {inverter blocked : Fin f.mWireCount → Prop}

theorem Removed.follows (removed : Removed d d' inverter blocked) : Follows d d' := by
  refine ⟨?_, ?_, removed.lengths, removed.tables⟩
  · obtain ⟨types, parents, children, outputs, rfl⟩ := removed.same
    rfl
  · obtain ⟨types, parents, children, outputs, rfl⟩ := removed.same
    rfl

theorem Removed.closed (removed : Removed d d' inverter blocked)
    (inputs : ∀ n, d.isInput n → d.mParents n = []) :
    d'.Closed fun n => 0 < d'.inputWireCount ∧ ¬ inverter n where
  inputs := by
    intro n input
    refine ⟨Nat.zero_lt_of_lt input, ?_⟩
    intro isInverter
    obtain ⟨parent, one⟩ := parents_of_isInvert (removed.single n isInverter)
    have input₀ : d.isInput n := by
      obtain ⟨types, parents, children, outputs, rfl⟩ := removed.same
      exact input
    rw [inputs n input₀] at one
    cases one
  parents := fun n keeps p reads => ⟨keeps.1, removed.parents n keeps.2 p reads⟩
  children := fun n keeps child here =>
    ⟨keeps.1, fun isInverter => removed.children child n isInverter here⟩

/-- No INV gate has been added: one that is left is a copy, or it is behind another one. -/
theorem Removed.not_isInvert (removed : Removed d d' inverter blocked)
    (blocks : ∀ n, blocked n → d.isInvert n ∧ ¬ inverter n)
    (driven : ∀ n, d.isInvert n → d'.Driven n) (walk : d'.Walkable kept)
    (kept_not : ∀ n, kept n → ¬ inverter n) (numbered : d'.Numbered kept order s) :
    ∀ n ∈ order, ¬ d.isInvert n := by
  intro n added isInv
  induction number : s.newWireIdx n.val using Nat.strongRecOn generalizing n with
  | ind k ih =>
    obtain ⟨_, keeps, noCopy⟩ := numbered.gates n added
    rcases removed.copies n isInv (kept_not n keeps) with copy | ⟨q, one, isBlocked⟩
    · exact noCopy copy
    · have isInv' := (blocks q isBlocked).1
      obtain ⟨earlier, rank⟩ := numbered.parent_mem walk added
        (one ▸ List.mem_singleton_self q) (driven q isInv')
      exact ih _ (number ▸ rank) q earlier isInv' rfl

theorem Removed.reads (removed : Removed d d' inverter blocked)
    (blocks : ∀ n, blocked n → d.isInvert n ∧ ¬ inverter n)
    (driven : ∀ n, d.isInvert n → d'.Driven n) (walk : d'.Walkable kept)
    (kept_not : ∀ n, kept n → ¬ inverter n) (numbered : d'.Numbered kept order s)
    {n p : Fin f.mWireCount} (added : n ∈ order) (reads : p ∈ d.mParents n) :
    ¬ d.isInvert p ∧ p ∈ d'.mParents n ∨
      inverter p ∧ ∃ q, d.mParents p = [q] ∧ q ∈ d'.mParents n ∧ ¬ d.isInvert q := by
  have noInverter := removed.not_isInvert blocks driven walk kept_not numbered
  have others (q : Fin f.mWireCount) (reads : q ∈ d'.mParents n) : ¬ d.isInvert q := by
    intro isInv
    obtain ⟨earlier, _⟩ := numbered.parent_mem walk added reads (driven q isInv)
    exact noInverter q earlier isInv
  obtain ⟨direct, behind, blocking⟩ :=
    removed.keeps n (kept_not n (numbered.gates n added).2.1) p reads
  by_cases isInv : d.isInvert p
  · by_cases isRemoved : inverter p
    · obtain ⟨q, one⟩ := parents_of_isInvert isInv
      have here := behind q isRemoved one
      exact .inr ⟨isRemoved, q, one, here, others q here⟩
    · obtain ⟨q, here, isBlocked⟩ := blocking isInv isRemoved
      exact absurd (blocks q isBlocked).1 (others q here)
  · exact .inl ⟨isInv, direct isInv⟩

/-- Every INV gate of an output has been dropped, and the output moved to another gate. -/
structure OutputsMoved {W : Nat} (d : DagCircuit W) (ns : List (Fin W)) (dropped : List Nat) :
    Prop where
  drops : dropped = dropInverts d.inverted (ns.map Fin.val) []
  sorted : (ns.map Fin.val).Pairwise (· < ·)
  gates : ∀ n ∈ ns, d.isInvert n → n.val ∈ dropped ∧ ∃ q, d.mParents n = [q] ∧
    ¬ d.isInput q ∧ ¬ d.isInvert q

variable {ns : List (Fin f.mWireCount)} {dropped : List Nat}

theorem OutputsMoved.moves (moved : OutputsMoved d ns dropped) (member : n ∈ ns) {w : Nat}
    (reads : d.inverted n.val = some w) : n.val ∈ dropped ∧
      ∃ q : Fin f.mWireCount, q.val = w ∧ ¬ d.isInput q ∧ ¬ d.isInvert q := by
  obtain ⟨isInv, q, here, one⟩ := isInvert_of_inverted reads
  obtain ⟨gone, q', one', noInput, other⟩ := moved.gates n member isInv
  rw [one] at one'
  cases one'
  exact ⟨gone, q, here, noInput, other⟩

theorem OutputsMoved.unread (moved : OutputsMoved d ns dropped) (isInv : d.isInvert n) :
    readers d.inverted dropped n.val = 0 := by
  by_contra some
  obtain ⟨w, gone, reads⟩ := List.countP_pos_iff.mp (Nat.pos_of_ne_zero some)
  rcases mem_dropInverts (moved.drops ▸ gone) with none | ⟨listed, _⟩
  · exact absurd none List.not_mem_nil
  · obtain ⟨m, member, rfl⟩ := List.mem_map.mp listed
    obtain ⟨_, q, here, _, other⟩ := moved.moves member (of_decide_eq_true reads)
    rw [Fin.val_inj.mp here] at other
    exact other isInv

theorem OutputsMoved.readers_le_one (moved : OutputsMoved d ns dropped) (p : Nat) :
    readers d.inverted dropped p ≤ 1 := by
  rw [moved.drops]
  refine BatchDualEx.readers_le_one moved.sorted (fun k none => absurd none List.not_mem_nil)
    (Nat.zero_le 1) ?_
  intro w reads
  rw [← moved.drops]
  by_cases inside : w < f.mWireCount
  · exact moved.unread (n := ⟨w, inside⟩) (isInvert_of_inverted (n := ⟨w, inside⟩) reads).1
  · unfold DagCircuit.inverted at reads
    rw [dif_neg inside] at reads
    cases reads

theorem eq_of_readers_le_one {inverted : Nat → Option Nat} {w w' p : Nat}
    (few : readers inverted dropped p ≤ 1) (gone : w ∈ dropped) (gone' : w' ∈ dropped)
    (reads : inverted w = some p) (reads' : inverted w' = some p) : w = w' := by
  unfold readers at few
  rw [List.countP_eq_length_filter] at few
  have here : w ∈ dropped.filter fun n => inverted n = some p :=
    List.mem_filter.mpr ⟨gone, decide_eq_true reads⟩
  have here' : w' ∈ dropped.filter fun n => inverted n = some p :=
    List.mem_filter.mpr ⟨gone', decide_eq_true reads'⟩
  obtain ⟨only, one⟩ : ∃ only, (dropped.filter fun n => inverted n = some p) = [only] :=
    List.length_eq_one_iff.mp (Nat.le_antisymm few (List.length_pos_of_mem here))
  rw [one, List.mem_singleton] at here here'
  exact here.trans here'.symm

/-- An INV gate that an added gate reads has been removed, and does not read another one. -/
def Absorbed {W : Nat} (d : DagCircuit W) (dropped : List Nat) (p : Fin W) : Prop :=
  d.remains dropped p ∧ ∀ q, d.mParents p = [q] → ¬ d.isInvert q

theorem OutputsMoved.removable (moved : OutputsMoved d ns dropped) (inRange : f.InRange)
    (same : f.inverted = d.inverted) (count : d.inputWireCount = f.inputWireCount)
    (wires : ns.map Fin.val = f.outputWires)
    (copies : ∀ w ∈ dropped, copied d.inverted dropped w = true)
    (absorbed : ∀ p : Fin f.mWireCount, f.ReadByGate p.val → d.isInvert p →
      d.Absorbed dropped p) : f.Removable := by
  have output {w : Nat} (out : f.isOutput w) : ∃ n ∈ ns, n.val = w := by
    have listed : w ∈ ns.map Fin.val := by
      rw [wires, BrisFile.outputWires, List.mem_range'_1]
      have wide : f.mWireCount - f.outputCount ≤ w ∧ w < f.mWireCount := out
      omega
    obtain ⟨n, member, here⟩ := List.mem_map.mp listed
    exact ⟨n, member, here⟩
  have read {w : Nat} (reads : f.ReadByGate w) : ∃ n : Fin f.mWireCount, n.val = w := by
    obtain ⟨l, inFile, _, member⟩ := reads
    exact ⟨⟨w, inRange.inputs l inFile w member⟩, rfl⟩
  refine ⟨?_, ?_, ?_, ?_⟩
  · intro w used p reads
    rw [same] at reads ⊢
    rcases used with out | gate
    · obtain ⟨n, member, rfl⟩ := output out
      obtain ⟨_, q, rfl, _, other⟩ := moved.moves member reads
      exact inverted_of_not other
    · obtain ⟨n, rfl⟩ := read gate
      obtain ⟨isInv, q, rfl, one⟩ := isInvert_of_inverted reads
      exact inverted_of_not ((absorbed n gate isInv).2 q one)
  · intro w out p reads
    rw [same] at reads
    obtain ⟨n, member, rfl⟩ := output out
    obtain ⟨_, q, rfl, noInput, _⟩ := moved.moves member reads
    unfold isInput at noInput
    omega
  · intro w out isSome gate
    rw [same] at isSome
    obtain ⟨n, member, rfl⟩ := output out
    obtain ⟨p, reads⟩ := Option.isSome_iff_exists.mp isSome
    have copy := copies n.val (moved.moves member reads).1
    rw [(absorbed n gate (isInvert_of_inverted reads).1).1.2] at copy
    cases copy
  · intro w w' out used p reads reads'
    rw [same] at reads reads'
    obtain ⟨n, member, rfl⟩ := output out
    have gone := (moved.moves member reads).1
    rcases used with out' | gate
    · obtain ⟨n', member', rfl⟩ := output out'
      have gone' := (moved.moves member' reads').1
      exact eq_of_readers_le_one (moved.readers_le_one p) gone gone' reads reads'
    · -- one gate before it is complemented once, so that the other INV gate would be a copy
      obtain ⟨n', rfl⟩ := read gate
      have isInv' := (isInvert_of_inverted reads').1
      have noCopy := (absorbed n' gate isInv').1.2
      by_cases gone' : n'.val ∈ dropped
      · exact eq_of_readers_le_one (moved.readers_le_one p) gone gone' reads reads'
      · have some : 0 < readers d.inverted dropped p :=
          List.countP_pos_iff.mpr ⟨n.val, gone, decide_eq_true reads⟩
        have once := moved.readers_le_one p
        unfold copied at noCopy
        rw [if_neg gone', moved.unread isInv', reads', decide_eq_false_iff_not] at noCopy
        change ¬ (0 + readers d.inverted dropped p) % 2 = 1 at noCopy
        omega

/-- With all gates but the INV gates the file is regular. -/
theorem Loaded.regular_of_removed (loaded : Loaded f f.lines.reverse d) (inRange : f.InRange)
    (trusted : f.Trusted true) (wires : ns.map Fin.val = f.outputWires)
    (moves : ∀ n ∈ ns, n.val ∈ f.dropped → ¬ d.isInput (d.moved f.dropped n))
    (removed : Removed d d' (d.remains f.dropped) blocked)
    (blocks : ∀ n, blocked n → d.isInvert n ∧ ¬ d.remains f.dropped n)
    (walk : d'.Walkable kept) (kept_not : ∀ n, kept n → ¬ d.remains f.dropped n)
    (numbered : d'.Numbered kept order s)
    (outputs : ∀ n ∈ ns, d'.Driven (d.moved f.dropped n) → d.moved f.dropped n ∈ order)
    (count : order.length = (f.lines.filter (·.gateType ≠ "INV")).length) : f.Regular true := by
  have lines := trusted.lines
  have inverts := trusted.inverts rfl
  have same := loaded.inverted inRange lines inverts.once
  have settled := loaded.settled lines same inverts
  have follows := removed.follows
  have driven (n : Fin f.mWireCount) (isInv : d.isInvert n) : d'.Driven n :=
    loaded.driven_of_isInvert inRange lines follows isInv
  have noInverter := removed.not_isInvert blocks driven walk kept_not numbered
  have perm := outputs_perm numbered.nodup (fun n added => by
    obtain ⟨l, inFile, here, isInv⟩ :=
      loaded.line_of_driven lines follows (numbered.gates n added).1
    refine ⟨l, List.mem_filter.mpr ⟨inFile, ?_⟩, here⟩
    exact decide_eq_true fun type => noInverter n added (isInv type)) count
  have distinct : (f.lines.map (·.output)).Nodup := by
    rw [List.nodup_iff_count_le_one]
    intro w
    by_cases isInv : ∃ l ∈ f.lines, l.gateType = "INV" ∧ l.output = w
    · obtain ⟨l, inFile, type, rfl⟩ := isInv
      exact (inverts.once l inFile type).le
    · have gates := perm.nodup_iff.mp (numbered.nodup.map Fin.val_injective)
      have once := List.nodup_iff_count_le_one.mp gates w
      rw [List.count_eq_countP, List.countP_map, List.countP_filter] at once
      rw [List.count_eq_countP, List.countP_map]
      refine (List.countP_mono_left fun l inFile here => ?_).trans once
      have output : l.output = w := by simpa using here
      have other : l.gateType ≠ "INV" := fun type => isInv ⟨l, inFile, type, output⟩
      simp [output, other]
  have added (l : BrisLine) (inFile : l ∈ f.lines) (other : l.gateType ≠ "INV") :
      (⟨l.output, (inRange.outputs l inFile).2⟩ : Fin f.mWireCount) ∈ order :=
    mem_order perm (List.mem_filter.mpr ⟨inFile, decide_eq_true other⟩) rfl
  have reads {n p : Fin f.mWireCount} (added : n ∈ order) (reads : p ∈ d.mParents n) :=
    removed.reads blocks driven walk kept_not numbered added reads
  have acc := numbered.acc walk (loaded.bare inRange lines follows)
    (fun n inverter => parents_of_isInvert (removed.single n inverter)) fun n added p here => by
      rcases reads added here with ⟨other, direct⟩ | ⟨isRemoved, q, one, behind, _⟩
      · exact ⟨fun _ => direct, fun _ isRemoved => absurd (removed.single p isRemoved) other⟩
      · refine ⟨fun other => absurd isRemoved other, fun q' _ one' => ?_⟩
        rw [one] at one'
        cases one'
        exact behind
  refine ⟨distinct, ?_, fun _ => ?_⟩
  · intro l inFile other
    have other' : l.gateType ≠ "INV" := fun type => Bool.noConfusion (other type)
    exact loaded.acc_reads lines distinct (acc _ (added l inFile other'))
  · have sorted : (ns.map Fin.val).Pairwise (· < ·) := by
      rw [wires]
      exact List.pairwise_lt_range'
    have moved : OutputsMoved d ns f.dropped := by
      refine ⟨?_, sorted, ?_⟩
      · rw [wires, ← same]
        rfl
      · intro n member isInv
        obtain ⟨q, one⟩ := parents_of_isInvert isInv
        by_cases gone : n.val ∈ f.dropped
        · have noInput := moves n member gone
          have placed := outputs n member
          rw [moved_of_mem gone one] at noInput placed
          exact ⟨gone, q, one, noInput, fun isInv' =>
            noInverter q (placed (driven q isInv')) isInv'⟩
        · have placed := outputs n member
          rw [moved_of_not gone] at placed
          exact absurd isInv (noInverter n (placed (driven n isInv)))
    refine moved.removable inRange same loaded.inputWireCount wires settled.copies ?_
    rintro p ⟨l, inFile, other, member⟩ isInv
    have listed := added l inFile other
    rcases loaded.cases lines ⟨l.output, (inRange.outputs l inFile).2⟩ with
      ⟨_, none, _⟩ | ⟨l', inFile', here, _, inputs, _⟩
    · exact absurd rfl (none l inFile)
    · obtain rfl := List.inj_on_of_nodup_map distinct inFile' inFile here
      rw [← inputs] at member
      obtain ⟨p', reads', equal⟩ := List.mem_map.mp member
      rw [Fin.val_inj.mp equal] at reads'
      rcases reads listed reads' with ⟨noInv, _⟩ | ⟨isRemoved, q, one, _, noInv⟩
      · exact absurd isInv noInv
      · refine ⟨isRemoved, fun q' one' => ?_⟩
        rw [one] at one'
        cases one'
        exact noInv

end Inverts

end DagCircuit

section Checks

open DagCircuit

variable {f : BrisFile}

theorem readBris_plain_meets (inRange : f.InRange) (trusted : f.Trusted false) :
    ∃ enough, ∀ fuel ≥ enough,
      Meets Fault.Thrown (fun _ => f.Regular false) (Circuit.readBris f fuel false) := by
  have lines := trusted.lines
  obtain ⟨d, built⟩ := readBris_total inRange fun l listed => (lines l listed).readable
  have loaded := loaded_of_ok trusted.outputs.wide built
  obtain ⟨ns, slots, _⟩ := loaded.outputs_driven trusted.outputs
  have driven : none ∉ d.mOutputs := by simp [slots]
  have closed : d.Closed fun _ => 0 < d.inputWireCount :=
    ⟨fun _ input => Nat.zero_lt_of_lt input, fun _ some _ _ => some, fun _ some _ _ => some⟩
  have walk := loaded.walkable inRange lines (follows_refl d) closed
    fun _ some => loaded.inputWireCount ▸ some
  refine ⟨max (left (fun _ => 1) d.initial + 1) (d.potential d.initial), fun fuel enough => ?_⟩
  unfold Circuit.readBris
  rw [built, ok_bind]
  apply (toCircuit_meets walk driven
    (Nat.lt_of_succ_le ((le_max_left _ _).trans enough)) ((le_max_right _ _).trans enough)).bind
  rintro c ⟨order, s, numbered, gates, _⟩
  split
  · rename_i all
    rw [gates, loaded.numGates] at all
    exact loaded.regular_of_plain inRange lines walk numbered all
  · exact ⟨_, rfl⟩

theorem readBris_reduced_meets (inRange : f.InRange) (trusted : f.Trusted true) :
    ∃ enough, ∀ fuel ≥ enough,
      Meets Fault.Thrown (fun _ => f.Regular true) (Circuit.readBris f fuel true) := by
  have lines := trusted.lines
  have inverts := trusted.inverts rfl
  obtain ⟨d, built⟩ := readBris_total inRange fun l listed => (lines l listed).readable
  have loaded := loaded_of_ok trusted.outputs.wide built
  obtain ⟨ns, slots, wires⟩ := loaded.outputs_driven trusted.outputs
  have unreduced := loaded.unreduced inRange lines inverts.once
  have same := loaded.inverted inRange lines inverts.once
  have sorted : (ns.map Fin.val).Pairwise (· < ·) := wires ▸ List.pairwise_lt_range'
  have drops : f.dropped = dropInverts d.inverted (ns.map Fin.val) [] := by
    rw [wires, ← same]
    rfl
  have removing := removeInvertGates_meets unreduced slots sorted drops
    (loaded.settled lines same inverts)
  cases reduced : d.removeInvertGates with
  | error fault =>
    rw [reduced] at removing
    refine ⟨0, fun fuel _ => ?_⟩
    unfold Circuit.readBris
    rw [built, ok_bind, if_pos rfl, reduced]
    exact removing
  | ok d' =>
    rw [reduced] at removing
    obtain ⟨slots', moves, blocked, removed, which⟩ := removing
    have driven : none ∉ d'.mOutputs := by simp [slots']
    have walk := loaded.walkable inRange lines removed.follows
      (removed.closed unreduced.inputs) fun n keeps => by
        have some := keeps.1
        have count := loaded.inputWireCount
        unfold inputWireCount at some count
        rwa [removed.follows.inputCounts, count] at some
    refine ⟨max (left (fun _ => 1) d'.initial + 1) (d'.potential d'.initial), fun fuel enough => ?_⟩
    unfold Circuit.readBris
    rw [built, ok_bind, if_pos rfl, reduced, ok_bind]
    apply (toCircuit_meets walk driven
      (Nat.lt_of_succ_le ((le_max_left _ _).trans enough)) ((le_max_right _ _).trans enough)).bind
    rintro c ⟨order, s, numbered, gates, placed⟩
    have outputs (n : Fin f.mWireCount) (member : n ∈ ns)
        (driven : d'.Driven (d.moved f.dropped n)) : d.moved f.dropped n ∈ order :=
      placed _ (slots' ▸ List.mem_map_of_mem member) driven
    split
    · rename_i all
      have counted : d'.mNonInvertGateCount = d.mNonInvertGateCount := by
        obtain ⟨types, parents, children, outputs, rfl⟩ := removed.same
        rfl
      rw [gates, counted, loaded.counted, List.countP_reverse, List.countP_eq_length_filter] at all
      rcases which with blocks | ⟨n, member, remains⟩
      · exact loaded.regular_of_removed inRange trusted wires moves removed blocks walk
          (fun n keeps => keeps.2) numbered outputs all
      · -- an output has come to a gate that is removed and has no wire
        have driven := loaded.driven_of_isInvert inRange lines removed.follows remains.1
        exact absurd remains (numbered.gates _ (outputs n member driven)).2.1.2
    · exact ⟨_, rfl⟩

/-- Wire 2 is driven twice and wire 3 not at all, and the output is an INV of an INV. -/
def twiceFile : BrisFile :=
  ⟨6, (1, 1), 1, [⟨[0, 1], 1, 2, "AND"⟩, ⟨[0, 1], 1, 2, "XOR"⟩, ⟨[2], 1, 4, "INV"⟩,
    ⟨[4], 1, 5, "INV"⟩]⟩

theorem twiceFile_inRange : twiceFile.InRange :=
  ⟨rfl, by decide, by decide, by decide⟩

def oneGate (l : BrisLine) : BrisFile := ⟨3, (1, 1), 1, [l]⟩

/-- An INV gate that reads itself, and a gate beside it that is the output. -/
def invertItself : BrisFile :=
  ⟨4, (1, 1), 1, [⟨[2], 1, 2, "INV"⟩, ⟨[0, 1], 1, 3, "AND"⟩]⟩

/-- Wire 2 is driven three times, and the output is behind three INV gates. -/
def invertThrice : BrisFile :=
  ⟨8, (1, 1), 1, [⟨[0, 1], 1, 2, "XOR"⟩, ⟨[0, 1], 1, 2, "XOR"⟩, ⟨[0, 1], 1, 2, "AND"⟩,
    ⟨[2], 1, 5, "INV"⟩, ⟨[5], 1, 6, "INV"⟩, ⟨[6], 1, 7, "INV"⟩]⟩

end Checks

end BatchDualEx
