import BatchDualEx.DualEx.BucketLoops
import BatchDualEx.DualEx.CutAndChoose
import BatchDualEx.Lib.Reservoir

/- The chances of a garbler of bad circuits at the cut and choose: how many draws open each set of
   circuits, how many open none of the bad ones, and how many keep a bucket as it was foreseen. -/
namespace BatchDualEx

open Finset Sampling

theorem toFinset_set {l : List ℕ} {i x : ℕ} (distinct : l.Nodup) (inside : i < l.length) :
    (l.set i x).toFinset = insert x (l.toFinset.erase (l.getD i 0)) := by
  rw [List.getD_eq_getElem _ _ inside, List.toFinset_eq_of_perm _ _
    (List.set_perm_cons_eraseIdx inside x), List.toFinset_cons]
  have out := List.getElem_cons_eraseIdx_perm inside
  have fresh : l[i] ∉ l.eraseIdx i := (List.nodup_cons.mp (out.nodup_iff.mpr distinct)).1
  rw [← List.toFinset_eq_of_perm _ _ out, List.toFinset_cons,
    erase_insert (fun listed => fresh (List.mem_toFinset.mp listed))]

theorem randSubsetLoop_congr {s n : ℕ} {draw draw' : ℕ → ℕ} {k : ℕ}
    (same : ∀ j < k, draw j = draw' j) :
    randSubsetLoop s n draw k = randSubsetLoop s n draw' k := by
  induction k with
  | zero => rfl
  | succ k ih =>
    rw [randSubsetLoop, randSubsetLoop, ih fun j below => same j (Nat.lt_succ_of_lt below),
      same k (Nat.lt_succ_self k)]

theorem randSubsetStep_subset {s i j w : ℕ} {t : RandSubset} (room : j < t.difference.length) :
    (randSubsetStep s i j w t).subset =
      if w % i < s then t.subset.set (w % i) i else t.subset := by
  have stored : (t.difference.set j i).getD j 0 = i := Lists.getD_set_self room _ _
  simp only [randSubsetStep, stored]
  split <;> rfl

theorem randSubsetLoop_subset {s n n' k : ℕ} (draw : ℕ → ℕ) (fits : s + k ≤ n)
    (fits' : s + k ≤ n') :
    (randSubsetLoop s n draw k).subset = (randSubsetLoop s n' draw k).subset := by
  induction k with
  | zero => rfl
  | succ k ih =>
    have before := randSubsetLoop_partitioned draw (show k ≤ n - s by omega)
    have before' := randSubsetLoop_partitioned draw (show k ≤ n' - s by omega)
    rw [randSubsetLoop, randSubsetLoop, randSubsetStep_subset
      (by rw [before.differenceLength]; omega),
      randSubsetStep_subset (by rw [before'.differenceLength]; omega), ih (by omega) (by omega)]

def held (s n : ℕ) (draws : List ℕ) : List ℕ :=
  (randSubsetLoop s n (draws.getD · 0) (n - s)).subset

theorem openedSet_eq {s n : ℕ} (positive : 1 ≤ s) (draws : List ℕ) :
    openedSet s n draws = (held s n draws).toFinset := by
  rw [openedSet, GetRandSubset, if_pos (by omega), held]

theorem held_append {s n : ℕ} (fits : s ≤ n) {front : List ℕ} (sized : front.length = n - s)
    {last : ℕ} (below : last < n) :
    held s (n + 1) (front ++ [last]) =
      if last < s then (held s n front).set last n else held s n front := by
  have before := randSubsetLoop_partitioned ((front ++ [last]).getD · 0)
    (show n - s ≤ n + 1 - s by omega)
  have drawn : (front ++ [last]).getD (n - s) 0 = last := by
    rw [← sized]
    exact Lists.getD_append_last _ _ _
  have same : (randSubsetLoop s (n + 1) ((front ++ [last]).getD · 0) (n - s)).subset =
      held s n front := by
    rw [randSubsetLoop_subset _ (show s + (n - s) ≤ n + 1 by omega) (show s + (n - s) ≤ n by omega),
      held, randSubsetLoop_congr]
    intro j earlier
    exact List.getD_append _ _ _ _ (by omega)
  rw [held, show n + 1 - s = n - s + 1 by omega, randSubsetLoop,
    randSubsetStep_subset (by rw [before.differenceLength]; omega), drawn,
    Nat.add_sub_cancel' fits, Nat.mod_eq_of_lt below, same]

theorem held_partitioned {s n : ℕ} (fits : s ≤ n) (draws : List ℕ) :
    (held s n draws).length = s ∧ (held s n draws).Nodup ∧ ∀ a ∈ held s n draws, a < n := by
  have final := randSubsetLoop_partitioned (draws.getD · 0) (le_refl (n - s))
  have indices := final.indices
  rw [Nat.add_sub_cancel' fits] at indices
  refine ⟨final.subsetLength, (indices.nodup_iff.mpr List.nodup_range).of_append_left, ?_⟩
  intro a listed
  exact List.mem_range.mp (indices.mem_iff.mp (List.mem_append_left _ listed))

def openings (s n : ℕ) (A : Finset ℕ) : ℕ := #{d ∈ drawSequences s n | openedSet s n d = A}

theorem length_of_run {s n : ℕ} {draws : List ℕ} (run : draws ∈ drawSequences s n) :
    draws.length = n - s := length_of_mem run

theorem openings_succ {s n : ℕ} (fits : s ≤ n) (A : Finset ℕ) :
    openings s (n + 1) A = ∑ front ∈ drawSequences s n,
      #{last ∈ range n | openedSet s (n + 1) (front ++ [last]) = A} := by
  have passes : n + 1 - s = n - s + 1 := by omega
  rw [openings, drawSequences, passes, card_filter_succ, drawSequences, Nat.add_sub_cancel' fits]

section

variable {s n : ℕ} {front : List ℕ}

theorem openedSet_append (positive : 1 ≤ s) (fits : s ≤ n) (sized : front.length = n - s) {last : ℕ}
    (below : last < n) : openedSet s (n + 1) (front ++ [last]) =
      if last < s then
        insert n ((openedSet s n front).erase ((held s n front).getD last 0))
      else openedSet s n front := by
  obtain ⟨length, distinct, -⟩ := held_partitioned fits front
  rw [openedSet_eq positive, openedSet_eq positive, held_append fits sized below]
  split
  · rename_i small
    rw [toFinset_set distinct (by omega)]
  · rfl

theorem notMem_openedSet (positive : 1 ≤ s) (fits : s ≤ n) (draws : List ℕ) :
    n ∉ openedSet s n draws := by
  intro opened
  have part := (mem_powersetCard.mp (openedSet_mem positive fits draws)).1
  exact absurd (mem_range.mp (part opened)) (Nat.lt_irrefl n)

theorem last_missed (positive : 1 ≤ s) (fits : s ≤ n) (sized : front.length = n - s) {A : Finset ℕ}
    (absent : n ∉ A) : #{last ∈ range n | openedSet s (n + 1) (front ++ [last]) = A} =
      if openedSet s n front = A then n - s else 0 := by
  have missed (last : ℕ) (listed : last ∈ range n) :
      openedSet s (n + 1) (front ++ [last]) = A ↔ s ≤ last ∧ openedSet s n front = A := by
    rw [openedSet_append positive fits sized (mem_range.mp listed)]
    by_cases small : last < s
    · rw [if_pos small]
      constructor
      · intro same
        exact absurd (same ▸ mem_insert_self n _) absent
      · intro large
        exact absurd large.1 (Nat.not_le.mpr small)
    · rw [if_neg small]
      exact ⟨fun same => ⟨Nat.not_lt.mp small, same⟩, fun same => same.2⟩
  rw [filter_congr missed]
  by_cases same : openedSet s n front = A
  · have later : {last ∈ range n | s ≤ last ∧ openedSet s n front = A} = Ico s n := by
      ext last
      simp only [mem_filter, mem_range, mem_Ico, same, and_true]
      exact and_comm
    rw [later, Nat.card_Ico, if_pos same]
  · rw [if_neg same, card_eq_zero, filter_eq_empty_iff]
    exact fun last _ both => same both.2

/-- A set with the new item is made in one pass from each set that has another item instead. -/
theorem last_entered (positive : 1 ≤ s) (fits : s ≤ n) (sized : front.length = n - s) {A : Finset ℕ}
    (entered : n ∈ A) : #{last ∈ range n | openedSet s (n + 1) (front ++ [last]) = A} =
      #{x ∈ range n \ A | openedSet s n front = insert x (A.erase n)} := by
  obtain ⟨length, distinct, below⟩ := held_partitioned fits front
  have fresh := notMem_openedSet positive fits front
  have isSet := openedSet_eq (n := n) positive front
  have replaced (last : ℕ) (listed : last ∈ range n) :
      openedSet s (n + 1) (front ++ [last]) = A ↔
        last < s ∧ (openedSet s n front).erase ((held s n front).getD last 0) = A.erase n := by
    rw [openedSet_append positive fits sized (mem_range.mp listed)]
    by_cases small : last < s
    · rw [if_pos small]
      constructor
      · intro same
        refine ⟨small, ?_⟩
        rw [← same, erase_insert (fun member => fresh (mem_of_mem_erase member))]
      · intro ⟨_, same⟩
        rw [same, insert_erase entered]
    · rw [if_neg small]
      constructor
      · intro same
        exact absurd (same ▸ entered) fresh
      · intro both
        exact absurd both.1 small
  rw [filter_congr replaced]
  apply card_nbij fun last => (held s n front).getD last 0
  · intro last listed
    obtain ⟨-, small, same⟩ := mem_filter.mp listed
    have inside : last < (held s n front).length := by omega
    have member : (held s n front).getD last 0 ∈ held s n front := by
      rw [List.getD_eq_getElem _ _ inside]
      exact List.getElem_mem inside
    have opened : (held s n front).getD last 0 ∈ openedSet s n front := by
      rw [isSet, List.mem_toFinset]
      exact member
    have out : (held s n front).getD last 0 ∉ A := by
      intro kept
      have different : (held s n front).getD last 0 ≠ n := Nat.ne_of_lt (below _ member)
      have erased : (held s n front).getD last 0 ∈ A.erase n := mem_erase.mpr ⟨different, kept⟩
      rw [← same] at erased
      exact notMem_erase _ _ erased
    rw [mem_coe, mem_filter, mem_sdiff, mem_range]
    exact ⟨⟨below _ member, out⟩, by rw [← same, insert_erase opened]⟩
  · intro a listed b listed' same
    obtain ⟨-, small, -⟩ := mem_filter.mp listed
    obtain ⟨-, small', -⟩ := mem_filter.mp listed'
    have inside : a < (held s n front).length := by omega
    have inside' : b < (held s n front).length := by omega
    simp only [List.getD_eq_getElem _ _ inside, List.getD_eq_getElem _ _ inside'] at same
    exact distinct.getElem_inj_iff.mp same
  · intro x listed
    obtain ⟨out, same⟩ := mem_filter.mp listed
    obtain ⟨-, absent⟩ := mem_sdiff.mp out
    have member : x ∈ held s n front := by
      rw [← List.mem_toFinset, ← isSet, same]
      exact mem_insert_self x _
    obtain ⟨last, inside, isX⟩ := List.mem_iff_getElem.mp member
    refine ⟨last, ?_, by rw [← isX]; exact List.getD_eq_getElem _ _ inside⟩
    rw [mem_coe, mem_filter, mem_range]
    refine ⟨by omega, by omega, ?_⟩
    rw [List.getD_eq_getElem _ _ inside, isX, same,
      erase_insert (fun kept => absent (mem_of_mem_erase kept))]

end

/-- `GetRandSubset` fills a reservoir. -/
theorem openings_counts {s : ℕ} (positive : 1 ≤ s) :
    Reservoir.Counts s (fun n => #(drawSequences s n)) (openings s) where
  one := by simp [drawSequences, sequences]
  initial := by
    have opened : openedSet s s [] = range s := by
      rw [openedSet_eq positive]
      simp [held, randSubsetLoop, List.toFinset_range]
    rw [openings, drawSequences, Nat.sub_self, sequences, filter_singleton, if_pos opened,
      card_singleton]
  draws n fits := by
    rw [drawSequences, show n + 1 - s = n - s + 1 by omega, card_sequences_succ,
      Nat.add_sub_cancel' fits, drawSequences]
  missed n fits A _ absent := by
    rw [openings_succ fits, sum_congr rfl fun front run =>
      last_missed positive fits (length_of_run run) absent, ← sum_filter,
      sum_const_nat fun _ _ => rfl,
      openings]
  entered n fits A _ entered := by
    rw [openings_succ fits, sum_congr rfl fun front run =>
      last_entered positive fits (length_of_run run) entered]
    exact sum_card_bipartiteAbove_eq_sum_card_bipartiteBelow
      fun front x => openedSet s n front = insert x (A.erase n)

/-- A set of circuits is opened the less often the more of the first circuits it has: of the first
    circuits one is spared for certain. -/
theorem openings_mul {s n : ℕ} (positive : 1 ≤ s) (later : s < n) {A : Finset ℕ}
    (subset : A ∈ (range n).powersetCard s) :
    openings s n A * (s * (n - 1).choose s) = #(drawSequences s n) * #(range s \ A) :=
  (openings_counts positive).kept_mul later subset

/-- Two of five circuits: the first two are never opened together. -/
theorem openings_mul_two_of_five :
    openings 2 5 {0, 1} * (2 * (5 - 1).choose 2) = #(drawSequences 2 5) * #(range 2 \ {0, 1}) :=
  openings_mul (by decide) (by decide) (by decide)

/-- The runs that open none of the circuits of `B`. -/
theorem unopened_mul {s n : ℕ} (positive : 1 ≤ s) (later : s < n) {B : Finset ℕ}
    (part : B ⊆ range n) :
    #{d ∈ drawSequences s n | Disjoint (openedSet s n d) B} * (s * (n - 1).choose s) =
      #(drawSequences s n) *
        (#(range s \ B) * (n - 1 - #B).choose s + #(range s ∩ B) * (n - #B).choose s) := by
  rw [← (openings_counts positive).missing_mul later part]
  congr 1
  have lands : ∀ d ∈ {d ∈ drawSequences s n | Disjoint (openedSet s n d) B},
      openedSet s n d ∈ (range n \ B).powersetCard s := by
    intro d listed
    obtain ⟨-, apart⟩ := mem_filter.mp listed
    obtain ⟨inside, sized⟩ := mem_powersetCard.mp (openedSet_mem positive (Nat.le_of_lt later) d)
    exact mem_powersetCard.mpr ⟨subset_sdiff.mpr ⟨inside, apart⟩, sized⟩
  rw [card_eq_sum_card_fiberwise lands]
  apply sum_congr rfl
  intro A listed
  have apart : Disjoint A B := (subset_sdiff.mp (mem_powersetCard.mp listed).1).2
  rw [openings, filter_filter]
  congr 1
  apply filter_congr
  intro d _
  constructor
  · intro both
    exact both.2
  · intro same
    exact ⟨same ▸ apart, same⟩

/-- One bad circuit of five, with two opened: its chance is 3/4 in the first two places, 1/2 in the
    others. -/
theorem unopened_mul_two_of_five :
    #{d ∈ drawSequences 2 5 | Disjoint (openedSet 2 5 d) {4}} * (2 * (5 - 1).choose 2) =
      #(drawSequences 2 5) * (#(range 2 \ {4}) * (5 - 1 - #{4}).choose 2 +
        #(range 2 ∩ {4}) * (5 - #{4}).choose 2) :=
  unopened_mul (by decide) (by decide) (by decide)

section

variable {s n : ℕ} (draw : ℕ → ℕ)

/-- A pass leaves the places of the others in `difference` alone. -/
theorem randSubsetLoop_difference {j k : ℕ} (before : j < k) :
    (randSubsetLoop s n draw k).difference.getD j 0 =
      (randSubsetLoop s n draw (j + 1)).difference.getD j 0 := by
  induction k with
  | zero => omega
  | succ k ih =>
    by_cases last : j = k
    · rw [last]
    · rw [← ih (by omega), randSubsetLoop, randSubsetStep]
      split <;> simp only [List.set_set] <;> exact Lists.getD_set_ne _ (Ne.symm last) _ _

/-- Circuit `s + j` stays at place `j` exactly when its pass does not open it. -/
theorem difference_stays {j k : ℕ} (room : k ≤ n - s) (before : j < k) :
    (randSubsetLoop s n draw k).difference.getD j 0 = s + j ↔ s ≤ draw j % (s + j) := by
  have held := randSubsetLoop_partitioned draw (show j ≤ n - s by omega)
  have inside : j < (randSubsetLoop s n draw j).difference.length := by
    rw [held.differenceLength]
    omega
  have stored := Lists.getD_set_self inside (s + j) 0
  rw [randSubsetLoop_difference draw before, randSubsetLoop, randSubsetStep]
  split
  · rename_i drawn
    have within : draw j % (s + j) < (randSubsetLoop s n draw j).subset.length := by
      rw [held.subsetLength]
      exact drawn
    have listed := List.getElem_mem within
    have below := List.mem_range.mp (held.indices.mem_iff.mp (List.mem_append_left _ listed))
    have swapped := Lists.getD_set_self
      (show j < ((randSubsetLoop s n draw j).difference.set j (s + j)).length by
        rw [List.length_set]; exact inside)
      ((randSubsetLoop s n draw j).subset.getD (draw j % (s + j)) 0) 0
    rw [swapped, List.getD_eq_getElem _ _ within]
    omega
  · rename_i missed
    rw [stored]
    exact iff_of_true rfl (Nat.not_lt.mp missed)

end

namespace InitParams

variable (p : InitParams)

def cutnChoose (draws : List ℕ) : CutnChoose :=
  ⟨(GetRandSubset p.mNumOpened p.mNumCircuits (draws.getD · 0)).subset,
    (GetRandSubset p.mNumOpened p.mNumCircuits (draws.getD · 0)).difference⟩

/-- The circuits of bucket `b` if none of them is opened in its pass. -/
def foreseen (b : ℕ) : List ℕ := List.range' (p.mNumOpened + b * p.mBucketSize) p.mBucketSize

/-- Bucket `b` gets the foreseen circuits, however the threads interleave. -/
def GetsForeseen (b : ℕ) (draws : List ℕ) : Prop :=
  ∀ s, Run.Along (p.initRecvBuckets (p.cutnChoose draws)) (fun _ _ => True) .initial s →
    (∀ t < p.mNumInitThreads, s.thread t = .finished) → s.circuits b = p.foreseen b

variable {p} {b : ℕ}

theorem getsForeseen_iff (running : 0 < p.mNumInitThreads) (below : b < p.mNumExe)
    (draws : List ℕ) :
    p.GetsForeseen b draws ↔ p.bucketCircuits (p.cutnChoose draws) b = p.foreseen b := by
  have split : p.Split (p.cutnChoose draws) := getRandSubset_split _
  have runs : p.BucketedRuns (p.cutnChoose draws) (p.initRecvBuckets (p.cutnChoose draws)) :=
    bucketing_runs running split
  constructor
  · intro all
    obtain ⟨s, run, stuck⟩ := @Run.exists_stuck _ _ (p.initRecvBuckets (p.cutnChoose draws)) _
      bucketingStep_decreases .initial
    have finished := runs.complete s run stuck
    rw [← (runs.buckets s run finished).1 b below, all s run finished]
  · intro same s run finished
    rw [(runs.buckets s run finished).1 b below, same]

def bucketPasses (p : InitParams) (b : ℕ) : Finset ℕ :=
  Ico (b * p.mBucketSize) (b * p.mBucketSize + p.mBucketSize)

theorem bucketCircuits_foreseen_iff (opens : 1 ≤ p.mNumOpened) (below : b < p.mNumExe)
    {draws : List ℕ} (run : draws ∈ drawSequences p.mNumOpened p.mNumCircuits) :
    p.bucketCircuits (p.cutnChoose draws) b = p.foreseen b ↔
      ∀ j ∈ p.bucketPasses b, p.mNumOpened ≤ draws.getD j 0 := by
  have split : p.Split (p.cutnChoose draws) := getRandSubset_split _
  have room := split.bucket_end below
  have kept : p.mNumCircuits - p.mNumOpened = p.mBucketSize * p.mNumExe :=
    Nat.add_sub_cancel_left ..
  rw [split.evaluated_length, ← kept] at room
  have sized : (p.cutnChoose draws).evaluated.length = p.mNumCircuits - p.mNumOpened :=
    split.evaluated_length.trans kept.symm
  have entry (t : ℕ) (inside : t < p.mBucketSize) :
      (p.bucketCircuits (p.cutnChoose draws) b).getD t 0 = (p.foreseen b).getD t 0 ↔
        p.mNumOpened ≤ draws.getD (b * p.mBucketSize + t) 0 := by
    have place : b * p.mBucketSize + t < p.mNumCircuits - p.mNumOpened := by omega
    have left : (p.bucketCircuits (p.cutnChoose draws) b).getD t 0 =
        (p.cutnChoose draws).evaluated.getD (b * p.mBucketSize + t) 0 := by
      simp [bucketCircuits, List.getD_eq_getElem?_getD, inside]
    have right : (p.foreseen b).getD t 0 = p.mNumOpened + (b * p.mBucketSize + t) := by
      simp [foreseen, List.getD_eq_getElem?_getD, inside, Nat.add_assoc]
    have stays := difference_stays (draws.getD · 0) (le_refl (p.mNumCircuits - p.mNumOpened)) place
    have small := getD_lt_of_mem run place
    rw [Nat.mod_eq_of_lt small] at stays
    rw [left, right, ← stays, cutnChoose, GetRandSubset, if_pos (by omega)]
  constructor
  · intro same j listed
    obtain ⟨first, last⟩ := mem_Ico.mp listed
    have inside : j - b * p.mBucketSize < p.mBucketSize := by omega
    have at_j := (entry (j - b * p.mBucketSize) inside).mp (by rw [same])
    rwa [Nat.add_sub_cancel' first] at at_j
  · intro missed
    have length : (p.bucketCircuits (p.cutnChoose draws) b).length = p.mBucketSize := by
      rw [bucketCircuits, List.length_take, List.length_drop, sized]
      omega
    apply Lists.ext_getD 0 (by rw [length, foreseen, List.length_range'])
    intro t inside
    rw [length] at inside
    exact (entry t inside).mpr (missed _ (mem_Ico.mpr (by omega)))

open Classical in
/-- The draws with which bucket `b` gets the circuits foreseen for it, all unopened. -/
theorem getsForeseen_mul (opens : 1 ≤ p.mNumOpened) (running : 0 < p.mNumInitThreads)
    (below : b < p.mNumExe) :
    #{d ∈ drawSequences p.mNumOpened p.mNumCircuits | p.GetsForeseen b d} *
        ∏ j ∈ p.bucketPasses b, (p.mNumOpened + j) =
      #(drawSequences p.mNumOpened p.mNumCircuits) * ∏ j ∈ p.bucketPasses b, j := by
  have within : p.bucketPasses b ⊆ range (p.mNumCircuits - p.mNumOpened) := by
    have kept : p.mNumCircuits - p.mNumOpened = p.mBucketSize * p.mNumExe :=
      Nat.add_sub_cancel_left ..
    have last := Nat.mul_le_mul_left p.mBucketSize (Nat.succ_le_of_lt below)
    rw [Nat.mul_succ, Nat.mul_comm _ b] at last
    intro j listed
    have bounds := mem_Ico.mp listed
    exact mem_range.mpr (by omega)
  have count := @card_forall_ge (p.mNumOpened + ·) (fun _ => p.mNumOpened) _ _ within
  simp only [Nat.add_sub_cancel_left] at count
  rw [← drawSequences] at count
  rw [← count]
  congr 2
  apply filter_congr
  intro d run
  rw [getsForeseen_iff running below, bucketCircuits_foreseen_iff opens below run]

def threeBuckets : InitParams := ⟨3, 2, 2, 40, 1, 200, 200⟩

open Classical in
/-- The last bucket is foreseen with the chance 4/6 * 5/7. -/
theorem getsForeseen_mul_three_buckets :
    #{d ∈ drawSequences threeBuckets.mNumOpened threeBuckets.mNumCircuits |
        threeBuckets.GetsForeseen 2 d} *
          ∏ j ∈ threeBuckets.bucketPasses 2, (threeBuckets.mNumOpened + j) =
      #(drawSequences threeBuckets.mNumOpened threeBuckets.mNumCircuits) *
        ∏ j ∈ threeBuckets.bucketPasses 2, j :=
  getsForeseen_mul (by decide) (by decide) (by decide)

end InitParams

end BatchDualEx
