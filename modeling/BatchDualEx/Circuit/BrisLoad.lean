import BatchDualEx.Circuit.DagCircuit
import BatchDualEx.Lib.Result
import Mathlib.Data.List.Count
import Mathlib.Data.List.Forall2

/- The graph after some lines have been read, also when lines drive one wire twice: a node has the
   parents and the type of the last line that drives it. -/
namespace BatchDualEx

open Function Result

/-- What the reader checks of a line: not whether the type has this many inputs. -/
structure BrisLine.Readable (l : BrisLine) : Prop where
  fanIn : l.inputs.length ≤ 2
  fanOut : l.fanOut = 1
  gateType : l.gateType = "XOR" ∨ l.gateType = "AND" ∨ l.gateType = "INV"

namespace BrisFile

/-- There are as many lines as gates, every wire of a line exists, and every output is a gate. -/
structure InRange (f : BrisFile) : Prop where
  gates : f.inputWireCount + f.lines.length = f.mWireCount
  outputs : ∀ l ∈ f.lines, f.inputWireCount ≤ l.output ∧ l.output < f.mWireCount
  inputs : ∀ l ∈ f.lines, ∀ i ∈ l.inputs, i < f.mWireCount
  u64 : f.mWireCount ≤ Circuit.noWire

/-- The first line that the reader refuses has no third input. -/
def Rejected (f : BrisFile) : Prop :=
  ∃ before l after, f.lines = before ++ l :: after ∧ (∀ l' ∈ before, l'.Readable) ∧
    l.inputs.length ≤ 2 ∧ ¬ l.Readable

end BrisFile

namespace DagCircuit

variable {W : Nat} {d d' : DagCircuit W}

theorem foldl_pushChild (gate : Fin W) (parents : List (Fin W)) (d : DagCircuit W) :
    parents.foldl (pushChild · gate) d = { d with
      mChildren := fun q => d.mChildren q ++ List.replicate (parents.count q) gate } := by
  induction parents generalizing d with
  | nil => simp
  | cons parent parents ih =>
    rw [List.foldl_cons, ih]
    unfold pushChild
    congr 1
    funext q
    by_cases same : q = parent
    · subst same
      simp only [update_self, List.count_cons_self, List.append_assoc]
      rw [List.replicate_succ, List.singleton_append]
    · simp only [update_of_ne same, List.count_cons_of_ne (Ne.symm same)]

theorem node_ok {i : Nat} {n : Fin W} (run : node W i = .ok n) : n.val = i := by
  unfold node at run
  split at run
  case isTrue inside =>
    cases run
    rfl
  case isFalse => cases run

theorem nodes_ok {is : List Nat} {ns : List (Fin W)} (run : is.mapM (node W) = .ok ns) :
    ns.map Fin.val = is := by
  have each := (mapM_ok run).imp fun i n found => (node_ok found).symm
  rw [← List.forall₂_map_right_iff (f := Fin.val), List.forall₂_eq_eq_eq] at each
  exact each.symm

theorem readLine_ok {outputCount : Nat} {l : BrisLine}
    (run : d.readLine outputCount l = .ok d') :
    ∃ gate parents mType counted, gate.val = l.output ∧ parents.map Fin.val = l.inputs ∧
      parseType l.gateType = .ok (mType, counted) ∧
      d' = d.link outputCount gate parents mType counted := by
  unfold readLine at run
  split at run
  case isTrue => cases run
  case isFalse =>
    split at run
    case isTrue => cases run
    case isFalse =>
      split at run
      case isTrue => cases run
      case isFalse =>
        obtain ⟨gate, found, run⟩ := bind_ok run
        obtain ⟨parents, all, run⟩ := bind_ok run
        obtain ⟨⟨mType, counted⟩, parsed, run⟩ := bind_ok run
        cases run
        exact ⟨gate, parents, mType, counted, node_ok found, nodes_ok all, parsed, rfl⟩

theorem parseType_counted {gateType : String} {mType : GateType} {counted : Nat}
    (parsed : parseType gateType = .ok (mType, counted)) :
    counted = if gateType = "INV" then 0 else 1 := by
  unfold parseType at parsed
  split at parsed
  case isTrue isXor =>
    cases parsed
    rw [isXor]
    rfl
  case isFalse =>
    split at parsed
    case isTrue isAnd =>
      cases parsed
      rw [isAnd]
      rfl
    case isFalse =>
      split at parsed
      case isTrue isInv =>
        cases parsed
        rw [if_pos isInv]
      case isFalse => cases parsed

theorem link_eq (d : DagCircuit W) (outputCount : Nat) (gate : Fin W) (parents : List (Fin W))
    (mType : GateType) (counted : Nat) :
    d.link outputCount gate parents mType counted = { d with
      mChildren := fun q => d.mChildren q ++ List.replicate (parents.count q) gate
      mWireIdx := update d.mWireIdx gate gate.val
      mParents := update d.mParents gate parents
      mType := update d.mType gate mType
      mNonInvertGateCount := d.mNonInvertGateCount + counted
      mOutputs := d.setOutput outputCount gate } := by
  unfold link
  rw [foldl_pushChild]

/-- The graph after the lines `done`, the last of them first. -/
structure Loaded (f : BrisFile) (done : List BrisLine) (d : DagCircuit f.mWireCount) : Prop where
  inputCounts : d.mInputCounts = f.mInputCounts
  numGates : d.numGates = f.lines.length
  counted : d.mNonInvertGateCount = done.countP (·.gateType ≠ "INV")
  undriven : ∀ n : Fin f.mWireCount, (∀ l ∈ done, l.output ≠ n.val) →
    d.mParents n = [] ∧ d.mWireIdx n = if n.val < f.inputWireCount then n.val else 0
  driven : ∀ n : Fin f.mWireCount, (∃ l ∈ done, l.output = n.val) → ∃ l ∈ done,
    l.output = n.val ∧ d.mWireIdx n = n.val ∧ (d.mParents n).map Fin.val = l.inputs ∧
      ∃ k, parseType l.gateType = .ok (d.mType n, k)
  linked : ∀ n : Fin f.mWireCount, done.countP (·.output = n.val) ≤ 1 → ∀ q,
    (d.mChildren q).count n = (d.mParents n).count q
  outputs : d.mOutputs.length = f.outputCount ∧
    ∀ k (n : Fin f.mWireCount), n.val = f.mWireCount - f.outputCount + k →
      k < f.outputCount → d.mOutputs[k]? = some
        (if ∃ l ∈ done, l.output = n.val then some n else none)

variable {f : BrisFile} {done : List BrisLine} {d : DagCircuit f.mWireCount}

theorem loaded_empty (f : BrisFile) : Loaded f [] (empty f) := by
  refine ⟨rfl, rfl, rfl, fun _ _ => ⟨rfl, rfl⟩, ?_, fun _ _ _ => rfl, ?_⟩
  · rintro n ⟨l, none, _⟩
    exact absurd none List.not_mem_nil
  · refine ⟨List.length_replicate, fun k n _ below => ?_⟩
    rw [if_neg (by rintro ⟨l, none, _⟩; exact List.not_mem_nil none)]
    exact List.getElem?_replicate_of_lt below

section Link

variable {l : BrisLine} {gate : Fin f.mWireCount} {parents : List (Fin f.mWireCount)}
  {mType : GateType} {counted : Nat}

theorem exists_cons_of_ne (here : gate.val = l.output) {n : Fin f.mWireCount} (apart : n ≠ gate) :
    (∃ l' ∈ l :: done, l'.output = n.val) ↔ ∃ l' ∈ done, l'.output = n.val := by
  rw [List.exists_mem_cons_iff, or_iff_right]
  intro equal
  exact apart (Fin.ext (equal.symm.trans here.symm))

theorem Loaded.setOutput (loaded : Loaded f done d) (wide : f.outputCount ≤ f.mWireCount)
    (here : gate.val = l.output) : (d.setOutput f.outputCount gate).length = f.outputCount ∧
    ∀ k (n : Fin f.mWireCount), n.val = f.mWireCount - f.outputCount + k →
      k < f.outputCount → (d.setOutput f.outputCount gate)[k]? = some
        (if ∃ l' ∈ l :: done, l'.output = n.val then some n else none) := by
  obtain ⟨sized, before⟩ := loaded.outputs
  unfold DagCircuit.setOutput
  by_cases output : f.mWireCount - f.outputCount ≤ gate.val
  · rw [if_pos ⟨wide, output⟩]
    refine ⟨by rw [List.length_set]; exact sized, fun k n at_k below => ?_⟩
    by_cases now : n = gate
    · subst now
      have slot : n.val - (f.mWireCount - f.outputCount) = k := by omega
      rw [slot, List.getElem?_set_self (by omega), if_pos ⟨l, List.mem_cons_self, here.symm⟩]
    · have apart : n.val ≠ gate.val := fun equal => now (Fin.ext equal)
      rw [List.getElem?_set_ne (by omega), before k n at_k below]
      simp only [exists_cons_of_ne here now]
  · rw [if_neg fun both => output both.2]
    refine ⟨sized, fun k n at_k below => ?_⟩
    have apart : n ≠ gate := by
      rintro rfl
      omega
    rw [before k n at_k below]
    simp only [exists_cons_of_ne here apart]

theorem Loaded.link (loaded : Loaded f done d) (wide : f.outputCount ≤ f.mWireCount)
    (here : gate.val = l.output) (inputs : parents.map Fin.val = l.inputs)
    (parsed : parseType l.gateType = .ok (mType, counted)) :
    Loaded f (l :: done) (d.link f.outputCount gate parents mType counted) := by
  rw [link_eq]
  refine ⟨loaded.inputCounts, loaded.numGates, ?_, ?_, ?_, ?_, loaded.setOutput wide here⟩
  · change d.mNonInvertGateCount + counted = _
    rw [List.countP_cons, loaded.counted, parseType_counted parsed]
    by_cases isInv : l.gateType = "INV"
    · simp [isInv]
    · simp [isInv]
  · intro n other
    have apart : n ≠ gate := by
      rintro rfl
      exact other l List.mem_cons_self here.symm
    simp only [update_of_ne apart]
    exact loaded.undriven n fun l' earlier => other l' (List.mem_cons_of_mem _ earlier)
  · intro n drives
    by_cases now : n = gate
    · subst now
      simp only [update_self, true_and]
      exact ⟨l, List.mem_cons_self, here.symm, inputs, counted, parsed⟩
    · obtain ⟨l', earlier, rest⟩ := loaded.driven n ((exists_cons_of_ne here now).mp drives)
      simp only [update_of_ne now]
      exact ⟨l', List.mem_cons_of_mem _ earlier, rest⟩
  · intro n once q
    rw [List.countP_cons] at once
    simp only [List.count_append, List.count_replicate]
    by_cases now : n = gate
    · subst now
      rw [if_pos (decide_eq_true here.symm)] at once
      have none : done.countP (·.output = n.val) = 0 := by omega
      have fresh : d.mParents n = [] := by
        refine (loaded.undriven n fun l' earlier => ?_).1
        simpa using List.countP_eq_zero.mp none l' earlier
      rw [loaded.linked n (by omega) q, fresh, update_self]
      simp
    · rw [loaded.linked n (by omega) q, update_of_ne now]
      simp [Ne.symm now]

end Link

theorem loaded_of_ok (wide : f.outputCount ≤ f.mWireCount) (run : readBris f = .ok d) :
    Loaded f f.lines.reverse d := by
  unfold readBris at run
  split at run
  case isTrue => cases run
  case isFalse =>
    have finished := foldlM_done_ok (fun done d => Loaded f done d)
      (fun done l b c loaded step => by
        obtain ⟨gate, parents, mType, counted, here, inputs, parsed, rfl⟩ := readLine_ok step
        exact loaded.link wide here inputs parsed)
      run (loaded_empty f)
    rwa [List.append_nil] at finished

theorem exists_outputs (wide : f.outputCount ≤ f.mWireCount)
    (outputs : d.mOutputs.length = f.outputCount ∧
      ∀ k (n : Fin f.mWireCount), n.val = f.mWireCount - f.outputCount + k →
        k < f.outputCount → d.mOutputs[k]? = some
          (if ∃ l ∈ done, l.output = n.val then some n else none))
    (driven : ∀ k < f.outputCount, ∃ l ∈ done, l.output = f.mWireCount - f.outputCount + k) :
    ∃ ns : List (Fin f.mWireCount), d.mOutputs = ns.map some ∧
      ns.map Fin.val = List.range' (f.mWireCount - f.outputCount) f.outputCount := by
  obtain ⟨sized, slots⟩ := outputs
  have room (k : Fin f.outputCount) : f.mWireCount - f.outputCount + k.val < f.mWireCount := by
    omega
  refine ⟨List.ofFn fun k => ⟨_, room k⟩, List.ext_getElem? fun k => ?_, ?_⟩
  · by_cases below : k < f.outputCount
    · rw [slots k ⟨_, room ⟨k, below⟩⟩ rfl below, if_pos (driven k below)]
      simp [below]
    · rw [List.getElem?_eq_none (by omega), List.getElem?_eq_none (by simp; omega)]
  · refine List.ext_getElem (by simp) fun k _ _ => ?_
    simp

section Total

theorem parseType_total {l : BrisLine} (readable : l.Readable) :
    ∃ parsed, parseType l.gateType = .ok parsed := by
  rcases readable.gateType with isXor | isAnd | isInv
  · exact ⟨(.xor, 1), by rw [isXor]; rfl⟩
  · exact ⟨(.and, 1), by rw [isAnd]; rfl⟩
  · exact ⟨(.na, 0), by rw [isInv]; rfl⟩

theorem node_total {W i : Nat} (inside : i < W) : node W i = .ok ⟨i, inside⟩ :=
  dif_pos inside

variable {W outputCount : Nat} {d : DagCircuit W} {l : BrisLine}

theorem nodes_total (inside : ∀ i ∈ l.inputs, i < W) : ∃ ns, l.inputs.mapM (node W) = .ok ns :=
  mapM_total fun i reads => ⟨_, node_total (inside i reads)⟩

theorem readLine_total (readable : l.Readable)
    (output : d.inputWireCount ≤ l.output ∧ l.output < W) (inputs : ∀ i ∈ l.inputs, i < W) :
    ∃ d', d.readLine outputCount l = .ok d' ∧ d'.mInputCounts = d.mInputCounts := by
  obtain ⟨parents, nodes⟩ := nodes_total inputs
  obtain ⟨⟨mType, counted⟩, parsed⟩ := parseType_total readable
  refine ⟨d.link outputCount ⟨l.output, output.2⟩ parents mType counted, ?_, ?_⟩
  · unfold readLine
    rw [if_neg (Nat.not_lt.mpr readable.fanIn), if_neg (not_not.mpr readable.fanOut),
      if_neg (Nat.not_lt.mpr output.1), node_total output.2, nodes, parsed]
    rfl
  · rw [link_eq]

theorem readLine_refused (few : l.inputs.length ≤ 2) (refused : ¬ l.Readable)
    (output : d.inputWireCount ≤ l.output ∧ l.output < W) (inputs : ∀ i ∈ l.inputs, i < W) :
    d.readLine outputCount l = .error (.thrown "") := by
  obtain ⟨parents, nodes⟩ := nodes_total inputs
  unfold readLine
  rw [if_neg (Nat.not_lt.mpr few)]
  by_cases one : l.fanOut = 1
  · have unknown : parseType l.gateType = .error (.thrown "") := by
      unfold parseType
      rw [if_neg fun isXor => refused ⟨few, one, .inl isXor⟩,
        if_neg fun isAnd => refused ⟨few, one, .inr (.inl isAnd)⟩,
        if_neg fun isInv => refused ⟨few, one, .inr (.inr isInv)⟩]
    rw [if_neg (not_not.mpr one), if_neg (Nat.not_lt.mpr output.1), node_total output.2, nodes,
      unknown]
    rfl
  · exact if_pos one

theorem readLines_total (inRange : f.InRange) {lines : List BrisLine} (listed : lines ⊆ f.lines)
    (readable : ∀ l ∈ lines, l.Readable) :
    ∃ d, lines.foldlM (fun d l => d.readLine f.outputCount l) (empty f) = .ok d ∧
      d.inputWireCount = f.inputWireCount := by
  obtain ⟨d, run, _, counts⟩ := foldlM_total (f := fun (d : DagCircuit f.mWireCount) l =>
      d.readLine f.outputCount l)
    (fun rest d => rest ⊆ lines ∧ d.mInputCounts = f.mInputCounts)
    (fun l rest d inv => by
      obtain ⟨here, rest⟩ := List.cons_subset.mp inv.1
      have output := inRange.outputs l (listed here)
      have same : d.inputWireCount = f.inputWireCount := by
        unfold inputWireCount BrisFile.inputWireCount
        rw [inv.2]
      obtain ⟨d', step, counts⟩ := readLine_total (readable l here) (same ▸ output)
        (inRange.inputs l (listed here))
      exact ⟨d', step, rest, counts.trans inv.2⟩)
    (b := empty f) ⟨List.Subset.refl lines, rfl⟩
  refine ⟨d, run, ?_⟩
  unfold inputWireCount BrisFile.inputWireCount
  rw [counts]

theorem readBris_eq (inRange : f.InRange) : readBris f =
    f.lines.foldlM (fun d l => d.readLine f.outputCount l) (empty f) := by
  have gates := inRange.gates
  unfold readBris
  rw [if_neg (by omega)]

theorem readBris_total (inRange : f.InRange) (readable : ∀ l ∈ f.lines, l.Readable) :
    ∃ d, readBris f = .ok d := by
  obtain ⟨d, run, _⟩ := readLines_total inRange (List.Subset.refl _) readable
  exact ⟨d, (readBris_eq inRange).trans run⟩

theorem readBris_rejected (inRange : f.InRange) (rejected : f.Rejected) :
    readBris f = .error (.thrown "") := by
  obtain ⟨before, l, after, lines, readable, few, refused⟩ := rejected
  have earlier : before ⊆ f.lines := lines ▸ List.subset_append_left _ _
  have listed : l ∈ f.lines := lines ▸ List.mem_append_right _ List.mem_cons_self
  obtain ⟨d, run, counts⟩ := readLines_total inRange earlier readable
  have output := inRange.outputs l listed
  rw [readBris_eq inRange, lines, List.foldlM_append, run, ok_bind, List.foldlM_cons,
    readLine_refused few refused (counts ▸ output) (inRange.inputs l listed)]
  rfl

end Total

end DagCircuit

end BatchDualEx
