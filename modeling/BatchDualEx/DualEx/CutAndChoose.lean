import BatchDualEx.Circuit.Circuit
import BatchDualEx.Lib.Buffer
import BatchDualEx.Lib.Sampling
import Mathlib.Data.Finset.Powerset
import Mathlib.Data.List.GetD

/- `GetRandSubset`: the sampler which picks the circuits that are opened. A draw is the word
   `prng.get_u64()` returns; `draw k` is the word of the `k`-th pass through the loop. -/
namespace BatchDualEx

open Finset Sampling

structure RandSubset where
  subset : List Nat
  difference : List Nat
  deriving DecidableEq, Repr

def randSubsetStep (subsetSize i j word : Nat) (s : RandSubset) : RandSubset :=
  let difference := s.difference.set j i
  let randIdx := word % i
  if randIdx < subsetSize then
    { subset := s.subset.set randIdx (difference.getD j 0)
      difference := difference.set j (s.subset.getD randIdx 0) }
  else { s with difference := difference }

def randSubsetLoop (subsetSize setSize : Nat) (draw : Nat → Nat) : Nat → RandSubset
  | 0 => ⟨List.range subsetSize, List.replicate (setSize - subsetSize) 0⟩
  | k + 1 => randSubsetStep subsetSize (subsetSize + k) k (draw k)
      (randSubsetLoop subsetSize setSize draw k)

def GetRandSubset (subsetSize setSize : Nat) (draw : Nat → Nat) : RandSubset :=
  if subsetSize ≠ 0 then randSubsetLoop subsetSize setSize draw (setSize - subsetSize)
  else ⟨[], List.range setSize⟩

/-- Replacing an entry and keeping the old one at the end permutes the new one in. -/
theorem swap_perm {l : List Nat} {r : Nat} (inside : r < l.length) (d : List Nat) (x : Nat) :
    (l.set r x ++ (d ++ [l.getD r 0])).Perm ((l ++ d) ++ [x]) := by
  rw [List.getD_eq_getElem _ _ inside]
  have out := List.getElem_cons_eraseIdx_perm inside
  have into := List.set_perm_cons_eraseIdx inside x
  calc (l.set r x ++ (d ++ [l[r]])).Perm ((x :: l.eraseIdx r) ++ (d ++ [l[r]])) :=
        into.append_right _
    _ |>.Perm ((l[r] :: l.eraseIdx r) ++ (d ++ [x])) := by
        simp only [List.perm_iff_count, List.count_append, List.count_cons, List.count_nil]
        intro a; omega
    _ |>.Perm ((l ++ d) ++ [x]) := by
        rw [List.append_assoc]
        exact out.append_right _

/-- After `k` passes `subset` and the filled part of `difference` together hold the first
    `subsetSize + k` indices once each. -/
structure Partitioned (subsetSize setSize k : Nat) (s : RandSubset) : Prop where
  subsetLength : s.subset.length = subsetSize
  differenceLength : s.difference.length = setSize - subsetSize
  indices : (s.subset ++ s.difference.take k).Perm (List.range (subsetSize + k))

theorem take_set_succ (l : List Nat) {k : Nat} (inside : k < l.length) (x : Nat) :
    (l.set k x).take (k + 1) = l.take k ++ [x] := by
  rw [List.take_succ_eq_append_getElem (by simpa using inside), List.getElem_set_self,
    List.take_set_of_le (le_refl k)]

theorem randSubsetStep_partitioned {subsetSize setSize k : Nat} {s : RandSubset}
    (within : k < setSize - subsetSize) (word : Nat)
    (now : Partitioned subsetSize setSize k s) :
    Partitioned subsetSize setSize (k + 1)
      (randSubsetStep subsetSize (subsetSize + k) k word s) := by
  obtain ⟨subsetLength, differenceLength, indices⟩ := now
  have inside : k < s.difference.length := by omega
  have grown : ((s.subset ++ s.difference.take k) ++ [subsetSize + k]).Perm
      (List.range (subsetSize + (k + 1))) := by
    rw [← Nat.add_assoc, List.range_succ]
    exact indices.append_right _
  simp only [randSubsetStep]
  split
  · refine ⟨by simpa using subsetLength, by simpa using differenceLength, ?_⟩
    simp only [List.set_set, take_set_succ _ inside]
    rw [List.getD_eq_getElem _ _ (by simpa using inside), List.getElem_set_self]
    exact (swap_perm (by omega) _ _).trans grown
  · refine ⟨subsetLength, by simpa using differenceLength, ?_⟩
    rw [take_set_succ _ inside, ← List.append_assoc]
    exact grown

theorem randSubsetLoop_partitioned {subsetSize setSize k : Nat} (draw : Nat → Nat)
    (within : k ≤ setSize - subsetSize) :
    Partitioned subsetSize setSize k (randSubsetLoop subsetSize setSize draw k) := by
  induction k with
  | zero => exact ⟨by simp [randSubsetLoop], by simp [randSubsetLoop], by simp [randSubsetLoop]⟩
  | succ k ih => exact randSubsetStep_partitioned (by omega) (draw k) (ih (by omega))

/-- Whatever the words are, every circuit is either opened or kept, and none is both. -/
theorem getRandSubset_partition {subsetSize setSize : Nat} (fits : subsetSize ≤ setSize)
    (draw : Nat → Nat) :
    ((GetRandSubset subsetSize setSize draw).subset ++
      (GetRandSubset subsetSize setSize draw).difference).Perm (List.range setSize) := by
  rw [GetRandSubset]
  split
  · have final := randSubsetLoop_partitioned draw (le_refl (setSize - subsetSize))
    have indices := final.indices
    rw [List.take_of_length_le (by rw [final.differenceLength])] at indices
    rwa [Nat.add_sub_cancel' fits] at indices
  · simp

def fillIndices (xs : List Nat) (n : Nat) : Except Fault (List Nat) :=
  (List.range n).foldlM (fun xs i => Buffer.writeAt .undefined xs i i) xs

/-- One pass in which an index out of range and a remainder by zero end the call. -/
def checkedPass (subsetSize : Nat) (draw : Nat → Nat) (s : RandSubset) (j : Nat) :
    Except Fault RandSubset := do
  let i := subsetSize + j
  let difference ← Buffer.writeAt .undefined s.difference j i
  Result.require (i ≠ 0) .undefined
  let randIdx := draw j % i
  if randIdx < subsetSize then
    let opened ← Buffer.readAt .undefined s.subset randIdx
    let kept ← Buffer.readAt .undefined difference j
    let subset ← Buffer.writeAt .undefined s.subset randIdx kept
    let difference ← Buffer.writeAt .undefined difference j opened
    .ok ⟨subset, difference⟩
  else .ok ⟨s.subset, difference⟩

def checkedRandSubset (subsetSize setSize : Nat) (draw : Nat → Nat) : Except Fault RandSubset := do
  let subset ← fillIndices (List.replicate subsetSize 0) subsetSize
  let difference := List.replicate (setSize - subsetSize) 0
  if subsetSize ≠ 0 then
    (List.range (setSize - subsetSize)).foldlM (checkedPass subsetSize draw) ⟨subset, difference⟩
  else
    let difference ← fillIndices difference setSize
    .ok ⟨subset, difference⟩

theorem fillIndices_eq {xs : List Nat} {n : Nat} (fits : n ≤ xs.length) :
    fillIndices xs n = .ok (List.range n ++ xs.drop n) := by
  refine Result.foldlM_range_eq (fun k => List.range k ++ xs.drop k) fun k below => ?_
  have room : k < (List.range k ++ xs.drop k).length := by
    rw [List.length_append, List.length_range, List.length_drop]; omega
  have stored : (List.range k ++ xs.drop k).set k k = List.range (k + 1) ++ xs.drop (k + 1) := by
    rw [List.set_append_right _ _ (by simp), List.length_range, Nat.sub_self,
      List.drop_eq_getElem_cons (by omega), List.set_cons_zero, List.range_succ]
    simp
  rw [Buffer.writeAt, if_pos room, stored]

theorem fillIndices_replicate (n : Nat) :
    fillIndices (List.replicate n 0) n = .ok (List.range n) := by
  rw [fillIndices_eq (by simp), List.drop_of_length_le (by simp), List.append_nil]

theorem checkedPass_eq {subsetSize setSize k : Nat} {s : RandSubset} (positive : subsetSize ≠ 0)
    (within : k < setSize - subsetSize) (draw : Nat → Nat)
    (now : Partitioned subsetSize setSize k s) :
    checkedPass subsetSize draw s k =
      .ok (randSubsetStep subsetSize (subsetSize + k) k (draw k) s) := by
  obtain ⟨subsetLength, differenceLength, _⟩ := now
  have room : k < s.difference.length := by omega
  have divides : Result.require (subsetSize + k ≠ 0) Fault.undefined = .ok () :=
    Result.require_ok_iff.mpr (by omega)
  have written : ∀ x, Buffer.writeAt Fault.undefined s.difference k x =
      .ok (s.difference.set k x) := fun x => if_pos room
  simp only [checkedPass, randSubsetStep, written, divides, bind, Except.bind]
  split
  · rename_i drawn
    have inside : draw k % (subsetSize + k) < s.subset.length := by omega
    have still : k < (s.difference.set k (subsetSize + k)).length := by simpa using room
    rw [Buffer.readAt_ok inside 0, Buffer.readAt_ok still 0]
    simp only [Buffer.writeAt, if_pos inside, if_pos still]
  · rfl

theorem checkedRandSubset_eq (subsetSize setSize : Nat) (draw : Nat → Nat) :
    checkedRandSubset subsetSize setSize draw = .ok (GetRandSubset subsetSize setSize draw) := by
  rw [checkedRandSubset, GetRandSubset, fillIndices_replicate]
  by_cases positive : subsetSize ≠ 0
  · simp only [if_pos positive, bind, Except.bind]
    refine Result.foldlM_range_eq (randSubsetLoop subsetSize setSize draw) fun k below => ?_
    exact checkedPass_eq positive below draw (randSubsetLoop_partitioned draw (Nat.le_of_lt below))
  · obtain rfl : subsetSize = 0 := by omega
    simp only [if_neg positive, Nat.sub_zero, fillIndices_replicate, bind, Except.bind,
      List.range_zero]

theorem getRandSubset_lengths {subsetSize setSize : Nat} (draw : Nat → Nat) :
    (GetRandSubset subsetSize setSize draw).subset.length = subsetSize ∧
      (GetRandSubset subsetSize setSize draw).difference.length = setSize - subsetSize := by
  rw [GetRandSubset]
  split
  · have final := randSubsetLoop_partitioned draw (le_refl (setSize - subsetSize))
    exact ⟨final.subsetLength, final.differenceLength⟩
  · constructor
    · simp only [List.length_nil]; omega
    · simp only [List.length_range]; omega

/-- The call is defined and splits the circuits into those opened and those evaluated. -/
theorem checkedRandSubset_splits {subsetSize setSize : Nat} (fits : subsetSize ≤ setSize)
    (draw : Nat → Nat) :
    ∃ sets, checkedRandSubset subsetSize setSize draw = .ok sets ∧
      sets.subset.length = subsetSize ∧ sets.difference.length = setSize - subsetSize ∧
      (sets.subset ++ sets.difference).Perm (List.range setSize) ∧
      ∀ i < setSize, i ∈ sets.subset ↔ i ∉ sets.difference := by
  have whole := getRandSubset_partition fits draw
  have lengths := @getRandSubset_lengths subsetSize setSize draw
  refine ⟨_, checkedRandSubset_eq subsetSize setSize draw, lengths.1, lengths.2, whole, ?_⟩
  intro i inside
  have apart := List.disjoint_of_nodup_append (whole.nodup_iff.mpr List.nodup_range)
  constructor
  · intro opened kept
    exact apart opened kept
  · intro missing
    rcases List.mem_append.mp (whole.mem_iff.mpr (List.mem_range.mpr inside)) with opened | kept
    · exact opened
    · exact absurd kept missing

theorem checkedRandSubset_splits_two_of_five :
    ∃ sets, checkedRandSubset 2 5 (fun k => 7 * k) = .ok sets ∧
      sets.subset.length = 2 ∧ sets.difference.length = 3 ∧
      (sets.subset ++ sets.difference).Perm (List.range 5) ∧
      ∀ i < 5, i ∈ sets.subset ↔ i ∉ sets.difference :=
  checkedRandSubset_splits (by decide) fun k => 7 * k

def openedSet (subsetSize setSize : Nat) (draws : List Nat) : Finset Nat :=
  (GetRandSubset subsetSize setSize (draws.getD · 0)).subset.toFinset

/-- One free choice from `{0, ..., m - 1}` for every `prng.get_u64() % m` of a call. -/
def drawSequences (subsetSize setSize : Nat) : Finset (List Nat) :=
  sequences (subsetSize + ·) (setSize - subsetSize)

theorem openedSet_mem {subsetSize setSize : Nat} (positive : 1 ≤ subsetSize)
    (fits : subsetSize ≤ setSize) (draws : List Nat) :
    openedSet subsetSize setSize draws ∈ (range setSize).powersetCard subsetSize := by
  have final := randSubsetLoop_partitioned (draws.getD · 0) (le_refl (setSize - subsetSize))
  have whole := getRandSubset_partition fits (draws.getD · 0)
  have distinct := (whole.nodup_iff.mpr List.nodup_range).of_append_left
  rw [mem_powersetCard]
  refine ⟨fun w inOpened => ?_, ?_⟩
  · have listed := List.mem_toFinset.mp inOpened
    simpa using whole.mem_iff.mp (List.mem_append_left _ listed)
  · rw [openedSet, List.toFinset_card_of_nodup distinct, GetRandSubset, if_pos (by omega)]
    exact final.subsetLength

/-- The last index enters `subset` in the last pass or not at all. -/
theorem last_opened_iff {subsetSize setSize : Nat} (positive : 1 ≤ subsetSize)
    (kept : subsetSize < setSize) (draws : List Nat) :
    setSize - 1 ∈ openedSet subsetSize setSize draws ↔
      draws.getD (setSize - subsetSize - 1) 0 % (setSize - 1) < subsetSize := by
  obtain ⟨k, passes⟩ : ∃ k, setSize - subsetSize = k + 1 := ⟨setSize - subsetSize - 1, by omega⟩
  have before : Partitioned subsetSize setSize k
      (randSubsetLoop subsetSize setSize (draws.getD · 0) k) :=
    randSubsetLoop_partitioned (draws.getD · 0) (by omega)
  have index : subsetSize + k = setSize - 1 := by omega
  have absent : setSize - 1 ∉
      (randSubsetLoop subsetSize setSize (draws.getD · 0) k).subset := by
    intro present
    have early := before.indices.mem_iff.mp (List.mem_append_left _ present)
    simp only [List.mem_range] at early
    omega
  rw [openedSet, GetRandSubset, if_pos (by omega), passes, List.mem_toFinset, randSubsetLoop,
    randSubsetStep, index]
  simp only [Nat.add_sub_cancel]
  split
  · rename_i drawn
    have inside : draws.getD k 0 % (setSize - 1) <
        (randSubsetLoop subsetSize setSize (draws.getD · 0) k).subset.length := by
      rw [before.subsetLength]; exact drawn
    have room : k < (randSubsetLoop subsetSize setSize (draws.getD · 0) k).difference.length := by
      rw [before.differenceLength]; omega
    have stored : ((randSubsetLoop subsetSize setSize (draws.getD · 0) k).difference.set k
        (setSize - 1)).getD k 0 = setSize - 1 := by
      rw [List.getD_eq_getElem _ _ (by simpa using room), List.getElem_set_self]
    rw [stored]
    exact iff_of_true (List.mem_set inside _) drawn
  · rename_i missed
    exact iff_of_false absent missed

/-- The share `s / n` of the `s`-element subsets of `{0, ..., n-1}` contains the last index. -/
theorem card_with_last {s n : Nat} (positive : 1 ≤ s) (fits : s ≤ n) :
    n * #{a ∈ (range n).powersetCard s | n - 1 ∈ a} = #((range n).powersetCard s) * s := by
  obtain ⟨t, rfl⟩ : ∃ t, s = t + 1 := ⟨s - 1, by omega⟩
  obtain ⟨m, rfl⟩ : ∃ m, n = m + 1 := ⟨n - 1, by omega⟩
  have inserted : {a ∈ (range (m + 1)).powersetCard (t + 1) | m ∈ a} =
      ((range m).powersetCard t).image (insert m) := by
    ext a
    rw [range_add_one, powersetCard_succ_insert notMem_range_self]
    simp only [mem_filter, mem_union, mem_image]
    constructor
    · rintro ⟨without | image, present⟩
      · exact absurd ((mem_powersetCard.mp without).1 present) notMem_range_self
      · exact image
    · rintro ⟨b, part, rfl⟩
      exact ⟨.inr ⟨b, part, rfl⟩, mem_insert_self m b⟩
  have injective : Set.InjOn (insert m) (((range m).powersetCard t : Finset (Finset Nat)) :
      Set (Finset Nat)) := by
    intro a inA b inB same
    have freshA : m ∉ a := fun present =>
      notMem_range_self ((mem_powersetCard.mp (mem_coe.mp inA)).1 present)
    have freshB : m ∉ b := fun present =>
      notMem_range_self ((mem_powersetCard.mp (mem_coe.mp inB)).1 present)
    rw [← erase_insert freshA, ← erase_insert freshB, same]
  rw [Nat.add_sub_cancel, inserted, card_image_of_injOn injective, card_powersetCard,
    card_powersetCard, card_range, card_range]
  exact Nat.add_one_mul_choose_eq m t

theorem drawSequences_nonempty {s : Nat} (positive : 1 ≤ s) (n : Nat) :
    0 < #(drawSequences s n) :=
  card_pos.mpr (sequences_nonempty fun i _ => by omega)

theorem last_opened_share {s n : Nat} (positive : 1 ≤ s) (kept : s < n) :
    (n - 1) * #{d ∈ drawSequences s n | n - 1 ∈ openedSet s n d} = #(drawSequences s n) * s := by
  obtain ⟨k, passes⟩ : ∃ k, n - s = k + 1 := ⟨n - s - 1, by omega⟩
  have index : s + k = n - 1 := by omega
  have below : {d ∈ drawSequences s n | n - 1 ∈ openedSet s n d} =
      {d ∈ drawSequences s n | d.getD k 0 < s} := by
    refine filter_congr fun d run => ?_
    rw [drawSequences, passes] at run
    obtain ⟨front, inFront, last, small, rfl⟩ := mem_sequences_succ.mp run
    have sized := length_of_mem inFront
    have drawn : (front ++ [last]).getD k 0 = last := by simp [← sized]
    rw [last_opened_iff positive kept, passes, Nat.add_sub_cancel, drawn, ← index,
      Nat.mod_eq_of_lt small]
  rw [below, drawSequences, passes, card_last_lt (by omega), card_sequences_succ, ← index]
  ac_rfl

/-- Every subset of the requested size is opened equally often exactly when the call draws
    nothing: the modulus `i` instead of `i + 1` favours the last index of every pass. -/
theorem getRandSubset_uniform_iff {s n : Nat} (positive : 1 ≤ s) (fits : s ≤ n) :
    Uniform (drawSequences s n) (openedSet s n) ((range n).powersetCard s) ↔ s = n := by
  constructor
  · intro uniform
    by_contra different
    have kept : s < n := by omega
    have share := uniform.share (fun d _ => openedSet_mem positive fits d)
      (filter_subset (fun a => n - 1 ∈ a) _)
    have landed : {d ∈ drawSequences s n | openedSet s n d ∈
        ({a ∈ (range n).powersetCard s | n - 1 ∈ a} : Finset (Finset Nat))} =
        {d ∈ drawSequences s n | n - 1 ∈ openedSet s n d} :=
      filter_congr fun d _ => by simp [openedSet_mem positive fits d]
    rw [landed] at share
    have runs := drawSequences_nonempty positive n
    have targets : 0 < #((range n).powersetCard s) := by
      rw [card_powersetCard, card_range]; exact Nat.choose_pos fits
    have opened := last_opened_share positive kept
    have family := card_with_last positive fits
    generalize #(drawSequences s n) = total at *
    generalize #((range n).powersetCard s) = subsets at *
    have scaled : n * (total * s * subsets) = (n - 1) * (total * s * subsets) := by
      calc n * (total * s * subsets)
          = n * ((n - 1) * #{d ∈ drawSequences s n | n - 1 ∈ openedSet s n d} * subsets) := by
            rw [opened]
        _ = (n - 1) * (n * (total * #{a ∈ (range n).powersetCard s | n - 1 ∈ a})) := by
            rw [← share]; ac_rfl
        _ = (n - 1) * (total * s * subsets) := by
            rw [Nat.mul_left_comm n total, family]; ac_rfl
    have equal := Nat.eq_of_mul_eq_mul_right (Nat.mul_pos (Nat.mul_pos runs positive) targets)
      scaled
    omega
  · rintro rfl a inA b inB
    have whole : ∀ c ∈ (range s).powersetCard s, c = range s := by
      intro c inC
      obtain ⟨part, sized⟩ := mem_powersetCard.mp inC
      exact eq_of_subset_of_card_le part (by simp [sized])
    rw [whole a inA, whole b inB]

theorem getRandSubset_uniform_two_of_two :
    Uniform (drawSequences 2 2) (openedSet 2 2) ((range 2).powersetCard 2) ↔ 2 = 2 :=
  getRandSubset_uniform_iff (by decide) (by decide)

/-- Opening one of two circuits always opens the second. -/
theorem getRandSubset_one_of_two_biased :
    ¬ Uniform (drawSequences 1 2) (openedSet 1 2) ((range 2).powersetCard 1) := by
  intro uniform
  have equal := uniform {0} (by decide) {1} (by decide)
  revert equal
  decide

end BatchDualEx
