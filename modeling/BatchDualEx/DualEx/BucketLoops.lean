import BatchDualEx.DualEx.OTCursor
import BatchDualEx.DualEx.CutAndChoose
import BatchDualEx.Lib.Run

/- Which circuits the init threads open and which circuits their bucketing loops put into the
   buckets. The threads of one loop run interleaved; a thread is undefined once it has moved
   its iterator past the end or read there. -/
namespace BatchDualEx

open Run Function

structure CutnChoose where
  opened : List Nat
  evaluated : List Nat
  deriving DecidableEq

/-- `evalIter` counts from `cutnChoose[1].begin()`, `pushed` is the loop variable of the `init`
    of the bucket. -/
inductive BucketThread where
  | ready
  | looping (bcktIdx evalIter pushed : Nat)
  | finished
  | undefined
  deriving DecidableEq, Repr

structure Bucketing where
  thread : Nat → BucketThread
  circuits : Nat → List Nat

def Bucketing.initial : Bucketing := ⟨fun _ => .ready, fun _ => []⟩

namespace InitParams

variable (p : InitParams)

def numSkip : Nat := (p.mNumInitThreads - 1) * p.mBucketSize

def pushCircuit (evaluated : List Nat) (bcktIdx evalIter pushed : Nat) :
    BucketThread × Option (Nat × Nat) :=
  match evaluated[evalIter]? with
  | none => (.undefined, none)
  | some cirIdx =>
    if cirIdx < p.mNumCircuits then
      (.looping bcktIdx (evalIter + 1) (pushed + 1), some (bcktIdx, cirIdx))
    else (.undefined, none)

def nextBucket (evaluated : List Nat) (bcktIdx evalIter : Nat) : BucketThread :=
  if bcktIdx + p.mNumInitThreads < p.mNumExe then
    if evalIter + p.numSkip ≤ evaluated.length then
      .looping (bcktIdx + p.mNumInitThreads) (evalIter + p.numSkip) 0
    else .undefined
  else .looping (bcktIdx + p.mNumInitThreads) evalIter 0

def threadStep (evaluated : List Nat) (t : Nat) :
    BucketThread → Option (BucketThread × Option (Nat × Nat))
  | .ready =>
    if t * p.mBucketSize ≤ evaluated.length then some (.looping t (t * p.mBucketSize) 0, none)
    else some (.undefined, none)
  | .looping bcktIdx evalIter pushed =>
    if bcktIdx < p.mNumExe then
      if pushed < p.mBucketSize then some (p.pushCircuit evaluated bcktIdx evalIter pushed)
      else some (p.nextBucket evaluated bcktIdx evalIter, none)
    else some (.finished, none)
  | .finished => none
  | .undefined => none

def pushInto (circuits : Nat → List Nat) : Option (Nat × Nat) → Nat → List Nat
  | none => circuits
  | some (bcktIdx, cirIdx) => update circuits bcktIdx (circuits bcktIdx ++ [cirIdx])

def bucketingStep (evaluated : List Nat) (s : Bucketing) (t : Nat) : Option Bucketing :=
  if t < p.mNumInitThreads then
    (p.threadStep evaluated t (s.thread t)).map fun next =>
      ⟨update s.thread t next.1, pushInto s.circuits next.2⟩
  else none

def initRecvBuckets (cutnChoose : CutnChoose) : Bucketing → Nat → Option Bucketing :=
  p.bucketingStep cutnChoose.evaluated

def initSendBuckets (cutnChoose : CutnChoose) : Bucketing → Nat → Option Bucketing :=
  p.bucketingStep cutnChoose.evaluated

structure Split (cutnChoose : CutnChoose) : Prop where
  opened : cutnChoose.opened.length = p.mNumOpened
  circuits : (cutnChoose.opened ++ cutnChoose.evaluated).Perm (List.range p.mNumCircuits)

variable {p}

theorem startIdx_le (t : Nat) : p.startIdx t ≤ p.endIdx t :=
  Nat.div_le_div_right (Nat.mul_le_mul_right _ (Nat.le_succ t))

theorem startIdx_last (running : 0 < p.mNumInitThreads) :
    p.startIdx p.mNumInitThreads = p.mNumCircuits :=
  Nat.mul_div_cancel_left _ running

theorem ranges_append (n : Nat) :
    ((List.range n).flatMap fun t => List.range' (p.startIdx t) (p.endIdx t - p.startIdx t)) =
      List.range (p.startIdx n) := by
  induction n with
  | zero =>
    have first : p.startIdx 0 = 0 := by simp [startIdx]
    rw [first]
    rfl
  | succ n ih =>
    have ordered := p.startIdx_le n
    have next : p.startIdx (n + 1) = p.startIdx n + (p.endIdx n - p.startIdx n) := by
      unfold endIdx startIdx at *
      omega
    rw [List.range_succ, List.flatMap_append, ih, List.flatMap_singleton, next,
      List.range_eq_range', List.range_eq_range', ← List.range'_append]
    simp

theorem openedBy_append (cutnChoose : CutnChoose) (n : Nat) :
    ((List.range n).flatMap (p.openedBy cutnChoose.opened)).Perm
      (cutnChoose.opened.filter fun cirIdx => cirIdx < p.startIdx n) := by
  induction n with
  | zero => simp [startIdx]
  | succ n ih =>
    have ordered : p.startIdx n ≤ p.startIdx (n + 1) := startIdx_le n
    have halves := List.filter_append_perm (fun cirIdx => decide (cirIdx < p.startIdx n))
      (cutnChoose.opened.filter fun cirIdx => cirIdx < p.startIdx (n + 1))
    have before : (cutnChoose.opened.filter fun cirIdx => cirIdx < p.startIdx (n + 1)).filter
        (fun cirIdx => decide (cirIdx < p.startIdx n)) =
          cutnChoose.opened.filter fun cirIdx => cirIdx < p.startIdx n := by
      rw [List.filter_filter]
      apply List.filter_congr
      intro cirIdx _
      simp only [← Bool.decide_and, decide_eq_decide]
      omega
    have own : (cutnChoose.opened.filter fun cirIdx => cirIdx < p.startIdx (n + 1)).filter
        (fun cirIdx => !decide (cirIdx < p.startIdx n)) = p.openedBy cutnChoose.opened n := by
      unfold openedBy
      rw [List.filter_filter]
      apply List.filter_congr
      intro cirIdx _
      rw [← decide_not, ← Bool.decide_and, decide_eq_decide]
      change _ ↔ _ ∧ cirIdx < p.startIdx (n + 1)
      omega
    rw [before, own] at halves
    rw [List.range_succ, List.flatMap_append, List.flatMap_singleton]
    exact (ih.append_right _).trans halves

namespace Split

variable {cutnChoose : CutnChoose} (split : p.Split cutnChoose)
include split

theorem evaluated_length : cutnChoose.evaluated.length = p.mBucketSize * p.mNumExe := by
  have total := split.circuits.length_eq
  rw [List.length_append, List.length_range, split.opened] at total
  exact Nat.add_left_cancel total

theorem opened_lt {cirIdx : Nat} (listed : cirIdx ∈ cutnChoose.opened) :
    cirIdx < p.mNumCircuits :=
  List.mem_range.mp (split.circuits.subset (List.mem_append_left _ listed))

theorem evaluated_lt {cirIdx : Nat} (listed : cirIdx ∈ cutnChoose.evaluated) :
    cirIdx < p.mNumCircuits :=
  List.mem_range.mp (split.circuits.subset (List.mem_append_right _ listed))

theorem evaluated_nodup : cutnChoose.evaluated.Nodup :=
  (List.nodup_append.mp (split.circuits.nodup_iff.mpr List.nodup_range)).2.1

theorem opened_once (running : 0 < p.mNumInitThreads) :
    ((List.range p.mNumInitThreads).flatMap (p.openedBy cutnChoose.opened)).Perm
    cutnChoose.opened := by
  have all := @openedBy_append p cutnChoose p.mNumInitThreads
  rwa [startIdx_last running, List.filter_eq_self.mpr fun cirIdx listed =>
    decide_eq_true (split.opened_lt listed)] at all

end Split

theorem getRandSubset_split (draw : Nat → Nat) :
    p.Split ⟨(GetRandSubset p.mNumOpened p.mNumCircuits draw).subset,
      (GetRandSubset p.mNumOpened p.mNumCircuits draw).difference⟩ := by
  have within : p.mNumOpened ≤ p.mNumCircuits := Nat.le_add_right _ _
  refine ⟨?_, getRandSubset_partition within draw⟩
  unfold GetRandSubset
  by_cases some : p.mNumOpened ≠ 0
  · rw [if_pos some]
    exact (randSubsetLoop_partitioned draw (le_refl _)).subsetLength
  · rw [if_neg some, not_not.mp some]
    rfl

def pushedInto (p : InitParams) (b : Nat) : BucketThread → Nat
  | .ready => 0
  | .looping bcktIdx _ pushed =>
    if b < bcktIdx then p.mBucketSize else if b = bcktIdx then pushed else 0
  | .finished => p.mBucketSize
  | .undefined => 0

/-- In bucket `b` the iterator of a thread is at `b * mBucketSize` and what is pushed. -/
def OnTrack (p : InitParams) (evaluated : List Nat) (t : Nat) : BucketThread → Prop
  | .ready => True
  | .looping bcktIdx evalIter pushed =>
    bcktIdx % p.mNumInitThreads = t ∧ evalIter ≤ evaluated.length ∧ pushed ≤ p.mBucketSize ∧
      if bcktIdx < p.mNumExe then evalIter = bcktIdx * p.mBucketSize + pushed else pushed = 0
  | .finished => True
  | .undefined => False

structure Moved (p : InitParams) (evaluated : List Nat) (t : Nat) (before after : BucketThread)
    (push : Option (Nat × Nat)) : Prop where
  onTrack : p.OnTrack evaluated t after
  silent : push = none →
    ∀ b < p.mNumExe, b % p.mNumInitThreads = t → p.pushedInto b after = p.pushedInto b before
  pushes : ∀ b cirIdx, push = some (b, cirIdx) →
    b < p.mNumExe ∧ b % p.mNumInitThreads = t ∧ p.pushedInto b before < p.mBucketSize ∧
      evaluated[b * p.mBucketSize + p.pushedInto b before]? = some cirIdx ∧
      p.pushedInto b after = p.pushedInto b before + 1 ∧
      ∀ b' ≠ b, p.pushedInto b' after = p.pushedInto b' before

/-- No bucket of the same thread lies between two consecutive ones. -/
theorem between_buckets {b bcktIdx T t : Nat} (own : b % T = t) (own' : bcktIdx % T = t)
    (after : bcktIdx < b) : bcktIdx + T ≤ b := by
  have divisible : T ∣ b - bcktIdx :=
    (Nat.modEq_iff_dvd' (Nat.le_of_lt after)).mp (own'.trans own.symm)
  have := Nat.le_of_dvd (Nat.sub_pos_of_lt after) divisible
  omega

section
variable {cutnChoose : CutnChoose} (split : p.Split cutnChoose)
include split

theorem Split.bucket_end {b : Nat} (below : b < p.mNumExe) :
    b * p.mBucketSize + p.mBucketSize ≤ cutnChoose.evaluated.length := by
  rw [split.evaluated_length, ← Nat.succ_mul, Nat.mul_comm p.mBucketSize]
  exact Nat.mul_le_mul_right _ below

theorem ready_moved {t : Nat} (thread : t < p.mNumInitThreads) {next : BucketThread}
    {push : Option (Nat × Nat)}
    (taken : p.threadStep cutnChoose.evaluated t .ready = some (next, push)) :
    p.Moved cutnChoose.evaluated t .ready next push := by
  have below : t < p.mNumExe := Nat.lt_of_lt_of_le thread (Nat.min_le_right _ _)
  have room := split.bucket_end below
  unfold threadStep at taken
  rw [if_pos (by omega)] at taken
  cases taken
  refine ⟨⟨Nat.mod_eq_of_lt thread, by omega, Nat.zero_le _, by simp [below]⟩, ?_, nofun⟩
  intro _ b _ own
  have notBefore : ¬b < t := fun before => by
    have := Nat.mod_le b p.mNumInitThreads
    omega
  simp [pushedInto, notBefore]

theorem push_moved {t bcktIdx evalIter pushed : Nat} (below : bcktIdx < p.mNumExe)
    (room : pushed < p.mBucketSize)
    (track : p.OnTrack cutnChoose.evaluated t (.looping bcktIdx evalIter pushed)) :
    p.Moved cutnChoose.evaluated t (.looping bcktIdx evalIter pushed)
      (p.pushCircuit cutnChoose.evaluated bcktIdx evalIter pushed).1
      (p.pushCircuit cutnChoose.evaluated bcktIdx evalIter pushed).2 := by
  obtain ⟨own, _, _, position⟩ := track
  rw [if_pos below] at position
  have inside : evalIter < cutnChoose.evaluated.length := by
    have := split.bucket_end below
    omega
  have listed := List.getElem_mem inside
  unfold pushCircuit
  rw [List.getElem?_eq_getElem inside]
  simp only [split.evaluated_lt listed, if_true]
  refine ⟨⟨own, inside, room, ?_⟩, nofun, ?_⟩
  · rw [if_pos below, position, Nat.add_assoc]
  · intro b cirIdx pushes
    cases pushes
    refine ⟨below, own, ?_, ?_, ?_, ?_⟩
    · simpa [pushedInto] using room
    · simp [pushedInto, ← position, List.getElem?_eq_getElem inside]
    · simp [pushedInto]
    · intro b' other
      simp [pushedInto, other]

theorem next_moved {t bcktIdx evalIter pushed : Nat} (running : 0 < p.mNumInitThreads)
    (below : bcktIdx < p.mNumExe) (full : ¬pushed < p.mBucketSize)
    (track : p.OnTrack cutnChoose.evaluated t (.looping bcktIdx evalIter pushed)) :
    p.Moved cutnChoose.evaluated t (.looping bcktIdx evalIter pushed)
      (p.nextBucket cutnChoose.evaluated bcktIdx evalIter) none := by
  obtain ⟨own, inside, within, position⟩ := track
  rw [if_pos below] at position
  have whole : pushed = p.mBucketSize := by omega
  have own' : (bcktIdx + p.mNumInitThreads) % p.mNumInitThreads = t := by
    rw [Nat.add_mod_right, own]
  -- the buckets up to this one are full, and those after it are not yet begun
  have counts : ∀ iter, ∀ b < p.mNumExe, b % p.mNumInitThreads = t →
      p.pushedInto b (.looping (bcktIdx + p.mNumInitThreads) iter 0) =
        p.pushedInto b (.looping bcktIdx evalIter pushed) := by
    intro iter b _ ownB
    have gap : bcktIdx < b → bcktIdx + p.mNumInitThreads ≤ b := between_buckets ownB own
    simp only [pushedInto]
    split_ifs <;> omega
  unfold nextBucket
  by_cases more : bcktIdx + p.mNumInitThreads < p.mNumExe
  · have skipped : evalIter + p.numSkip = (bcktIdx + p.mNumInitThreads) * p.mBucketSize := by
      obtain ⟨others, count⟩ := Nat.exists_eq_succ_of_ne_zero (Nat.pos_iff_ne_zero.mp running)
      unfold numSkip
      rw [position, whole, count, Nat.succ_sub_one, Nat.add_mul, Nat.succ_mul]
      omega
    have room := split.bucket_end more
    rw [if_pos more, if_pos (by omega)]
    refine ⟨⟨own', by omega, Nat.zero_le _, ?_⟩, fun _ => counts _, nofun⟩
    rw [if_pos more, skipped, Nat.add_zero]
  · rw [if_neg more]
    refine ⟨⟨own', inside, Nat.zero_le _, ?_⟩, fun _ => counts _, nofun⟩
    rw [if_neg more]

theorem threadStep_moved {t : Nat} (thread : t < p.mNumInitThreads) {before next : BucketThread}
    {push : Option (Nat × Nat)} (track : p.OnTrack cutnChoose.evaluated t before)
    (taken : p.threadStep cutnChoose.evaluated t before = some (next, push)) :
    p.Moved cutnChoose.evaluated t before next push := by
  cases before with
  | ready => exact ready_moved split thread taken
  | looping bcktIdx evalIter pushed =>
    simp only [threadStep] at taken
    by_cases below : bcktIdx < p.mNumExe
    · rw [if_pos below] at taken
      by_cases room : pushed < p.mBucketSize
      · rw [if_pos room] at taken
        have moved := push_moved split below room track
        rw [Option.some.inj taken] at moved
        exact moved
      · rw [if_neg room] at taken
        cases taken
        exact next_moved split (by omega) below room track
    · rw [if_neg below] at taken
      cases taken
      refine ⟨trivial, fun _ b inside _ => ?_, nofun⟩
      simp [pushedInto, show b < bcktIdx by omega]
  | finished => cases taken
  | undefined => cases taken

end

/-- Every thread is on track, and its buckets hold what it has pushed, in the order of the list. -/
def Filled (p : InitParams) (evaluated : List Nat) (s : Bucketing) : Prop :=
  ∀ t < p.mNumInitThreads, p.OnTrack evaluated t (s.thread t) ∧
    ∀ b < p.mNumExe, b % p.mNumInitThreads = t →
      s.circuits b =
        (evaluated.drop (b * p.mBucketSize)).take (p.pushedInto b (s.thread t))

theorem take_push {evaluated : List Nat} {start n x : Nat} (next : evaluated[start + n]? = some x) :
    (evaluated.drop start).take (n + 1) = (evaluated.drop start).take n ++ [x] := by
  rw [List.take_add_one, List.getElem?_drop, next]
  rfl

theorem initial_filled (evaluated : List Nat) : p.Filled evaluated .initial :=
  fun _ _ => ⟨trivial, fun _ _ _ => rfl⟩

theorem bucketingStep_cases {evaluated : List Nat} {s s' : Bucketing} {t : Nat}
    (taken : p.bucketingStep evaluated s t = some s') :
    t < p.mNumInitThreads ∧ ∃ next push,
      p.threadStep evaluated t (s.thread t) = some (next, push) ∧
        s' = ⟨update s.thread t next, pushInto s.circuits push⟩ := by
  unfold bucketingStep at taken
  by_cases thread : t < p.mNumInitThreads
  · rw [if_pos thread] at taken
    obtain ⟨⟨next, push⟩, stepped, same⟩ := Option.map_eq_some_iff.mp taken
    exact ⟨thread, next, push, stepped, same.symm⟩
  · rw [if_neg thread] at taken
    cases taken

theorem bucketingStep_filled {cutnChoose : CutnChoose} (split : p.Split cutnChoose)
    {s s' : Bucketing} {t : Nat} (filled : p.Filled cutnChoose.evaluated s)
    (taken : p.bucketingStep cutnChoose.evaluated s t = some s') :
    p.Filled cutnChoose.evaluated s' := by
  obtain ⟨thread, next, push, stepped, rfl⟩ := bucketingStep_cases taken
  have moved := threadStep_moved split thread (filled t thread).1 stepped
  intro u running
  have earlier := (filled u running).2
  by_cases self : u = t
  · subst self
    simp only [update_self]
    refine ⟨moved.onTrack, fun b below own => ?_⟩
    cases push with
    | none => rw [moved.silent rfl b below own, ← earlier b below own, pushInto]
    | some pair =>
      obtain ⟨bcktIdx, cirIdx⟩ := pair
      obtain ⟨_, _, _, entry, counted, others⟩ := moved.pushes bcktIdx cirIdx rfl
      by_cases here : b = bcktIdx
      · subst here
        rw [pushInto, update_self, counted, take_push entry, earlier b below own]
      · rw [pushInto, update_of_ne here, others b here, earlier b below own]
  · simp only [update_of_ne self]
    refine ⟨(filled u running).1, fun b below own => ?_⟩
    cases push with
    | none => exact earlier b below own
    | some pair =>
      obtain ⟨bcktIdx, cirIdx⟩ := pair
      obtain ⟨_, owner, _⟩ := moved.pushes bcktIdx cirIdx rfl
      have apart : b ≠ bcktIdx := fun same => self (own.symm.trans (same ▸ owner))
      rw [pushInto, update_of_ne apart]
      exact earlier b below own

def stepsLeft (p : InitParams) (t : Nat) : BucketThread → Nat
  | .ready => (p.mNumExe - t) * (p.mBucketSize + 2) + p.mBucketSize + 3
  | .looping bcktIdx _ pushed =>
    (p.mNumExe - bcktIdx) * (p.mBucketSize + 2) + (p.mBucketSize - pushed) + 2
  | .finished => 0
  | .undefined => 0

theorem stepsLeft_next {bcktIdx T size n : Nat} (running : 0 < T) (below : bcktIdx < n) :
    (n - (bcktIdx + T)) * (size + 2) + size + 2 ≤ (n - bcktIdx) * (size + 2) := by
  calc (n - (bcktIdx + T)) * (size + 2) + size + 2
      = (n - (bcktIdx + T) + 1) * (size + 2) := by rw [Nat.succ_mul, Nat.add_assoc]
    _ ≤ (n - bcktIdx) * (size + 2) := Nat.mul_le_mul_right _ (by omega)

theorem threadStep_decreases {evaluated : List Nat} {t : Nat} (thread : t < p.mNumInitThreads)
    {before next : BucketThread} {push : Option (Nat × Nat)}
    (taken : p.threadStep evaluated t before = some (next, push)) :
    p.stepsLeft t next < p.stepsLeft t before := by
  cases before with
  | ready =>
    simp only [threadStep] at taken
    split at taken <;> cases taken <;> simp only [stepsLeft] <;> omega
  | looping bcktIdx evalIter pushed =>
    simp only [threadStep] at taken
    by_cases below : bcktIdx < p.mNumExe
    · rw [if_pos below] at taken
      by_cases room : pushed < p.mBucketSize
      · rw [if_pos room, pushCircuit] at taken
        split at taken
        · cases taken
          simp only [stepsLeft]
          omega
        · split at taken <;> cases taken <;> simp only [stepsLeft] <;> omega
      · have running : 0 < p.mNumInitThreads := by omega
        have fewer := @stepsLeft_next _ _ p.mBucketSize _ running below
        rw [if_neg room, nextBucket] at taken
        split at taken
        · split at taken <;> cases taken <;> simp only [stepsLeft] <;> omega
        · cases taken
          simp only [stepsLeft]
          omega
    · rw [if_neg below] at taken
      cases taken
      simp only [stepsLeft]
      omega
  | finished => cases taken
  | undefined => cases taken

def totalLeft (p : InitParams) (s : Bucketing) : Nat :=
  ∑ t ∈ Finset.range p.mNumInitThreads, p.stepsLeft t (s.thread t)

theorem bucketingStep_decreases {evaluated : List Nat} (s : Bucketing) (t : Nat) (s' : Bucketing)
    (taken : p.bucketingStep evaluated s t = some s') : p.totalLeft s' < p.totalLeft s := by
  obtain ⟨thread, next, push, stepped, rfl⟩ := bucketingStep_cases taken
  have less := threadStep_decreases thread stepped
  apply Finset.sum_lt_sum
  · intro u _
    by_cases self : u = t
    · subst self
      simp only [update_self]
      exact Nat.le_of_lt less
    · simp only [update_of_ne self, le_refl]
  · refine ⟨t, Finset.mem_range.mpr thread, ?_⟩
    simp only [update_self]
    exact less

/-- A thread that cannot move has finished or is undefined. -/
theorem bucketingStep_stuck {evaluated : List Nat} {s : Bucketing} {t : Nat}
    (thread : t < p.mNumInitThreads) (track : p.OnTrack evaluated t (s.thread t))
    (stuck : p.bucketingStep evaluated s t = none) : s.thread t = .finished := by
  unfold bucketingStep at stuck
  rw [if_pos thread, Option.map_eq_none_iff] at stuck
  cases stage : s.thread t with
  | ready =>
    rw [stage] at stuck
    simp only [threadStep] at stuck
    split at stuck <;> cases stuck
  | looping bcktIdx evalIter pushed =>
    rw [stage] at stuck
    simp only [threadStep] at stuck
    split at stuck
    · split at stuck <;> cases stuck
    · cases stuck
  | finished => rfl
  | undefined =>
    rw [stage] at track
    exact track.elim

def bucketCircuits (p : InitParams) (cutnChoose : CutnChoose) (b : Nat) : List Nat :=
  (cutnChoose.evaluated.drop (b * p.mBucketSize)).take p.mBucketSize

theorem Split.bucket_unique {cutnChoose : CutnChoose} (split : p.Split cutnChoose)
    {cirIdx : Nat} (listed : cirIdx ∈ cutnChoose.evaluated) :
    ∃! b, b < p.mNumExe ∧ cirIdx ∈ p.bucketCircuits cutnChoose b := by
  have member : ∀ b, cirIdx ∈ p.bucketCircuits cutnChoose b ↔ ∃ i < p.mBucketSize,
      cutnChoose.evaluated[b * p.mBucketSize + i]? = some cirIdx := by
    intro b
    unfold bucketCircuits
    rw [List.mem_iff_getElem?]
    simp only [List.getElem?_take, List.getElem?_drop]
    constructor
    · rintro ⟨i, entry⟩
      split at entry
      · rename_i below
        exact ⟨i, below, entry⟩
      · cases entry
    · rintro ⟨i, below, entry⟩
      exact ⟨i, by rw [if_pos below, entry]⟩
  obtain ⟨k, inside, entry⟩ := List.mem_iff_getElem.mp listed
  have bound : k < p.mBucketSize * p.mNumExe := split.evaluated_length ▸ inside
  have some : 0 < p.mBucketSize := Nat.pos_of_mul_pos_right (Nat.zero_lt_of_lt bound)
  refine ⟨k / p.mBucketSize, ⟨Nat.div_lt_of_lt_mul bound, (member _).mpr
    ⟨k % p.mBucketSize, Nat.mod_lt _ some, ?_⟩⟩, ?_⟩
  · rw [Nat.div_add_mod', List.getElem?_eq_getElem inside, entry]
  · rintro b ⟨_, held⟩
    obtain ⟨i, below, entry'⟩ := (member b).mp held
    obtain ⟨inside', same⟩ := List.getElem?_eq_some_iff.mp entry'
    have position : b * p.mBucketSize + i = k :=
      (List.Nodup.getElem_inj_iff split.evaluated_nodup).mp (same.trans entry.symm)
    rw [← position, Nat.mul_comm, Nat.mul_add_div some, Nat.div_eq_of_lt below, Nat.add_zero]

/-- What holds of all runs of a bucketing loop, in every interleaving of its threads. -/
structure BucketedRuns (p : InitParams) (cutnChoose : CutnChoose)
    (step : Bucketing → Nat → Option Bucketing) : Prop where
  bounded : ∃ bound, ∀ ts s, exec step .initial ts = some s → ts.length ≤ bound
  inside : ∀ s, Along step (fun _ _ => True) .initial s → ∀ t < p.mNumInitThreads,
    s.thread t ≠ .undefined ∧ ∀ bcktIdx evalIter pushed,
      s.thread t = .looping bcktIdx evalIter pushed → evalIter ≤ cutnChoose.evaluated.length
  complete : ∀ s, Along step (fun _ _ => True) .initial s → (∀ t, step s t = none) →
    ∀ t < p.mNumInitThreads, s.thread t = .finished
  buckets : ∀ s, Along step (fun _ _ => True) .initial s →
    (∀ t < p.mNumInitThreads, s.thread t = .finished) →
      (∀ b < p.mNumExe, s.circuits b = p.bucketCircuits cutnChoose b) ∧
      ∀ cirIdx ∈ cutnChoose.evaluated, ∃! b, b < p.mNumExe ∧ cirIdx ∈ s.circuits b

theorem bucketing_runs {cutnChoose : CutnChoose} (running : 0 < p.mNumInitThreads)
    (split : p.Split cutnChoose) :
    p.BucketedRuns cutnChoose (p.bucketingStep cutnChoose.evaluated) := by
  have filled : ∀ s, Along (p.bucketingStep cutnChoose.evaluated) (fun _ _ => True) .initial s →
      p.Filled cutnChoose.evaluated s := fun s run =>
    run.invariant (fun _ _ _ before _ taken => bucketingStep_filled split before taken)
      (initial_filled _)
  refine ⟨⟨p.totalLeft .initial, fun ts s run => ?_⟩, ?_, ?_, ?_⟩
  · have := exec_length_le bucketingStep_decreases run
    omega
  · intro s run t thread
    have track := (filled s run t thread).1
    constructor
    · intro undefined
      rw [undefined] at track
      exact track
    · intro bcktIdx evalIter pushed stage
      rw [stage] at track
      exact track.2.1
  · intro s run stuck t thread
    exact bucketingStep_stuck thread (filled s run t thread).1 (stuck t)
  · intro s run done
    have all : ∀ b < p.mNumExe, s.circuits b = p.bucketCircuits cutnChoose b := by
      intro b below
      have owner := Nat.mod_lt b running
      have held := (filled s run _ owner).2 b below rfl
      rw [done _ owner] at held
      exact held
    refine ⟨all, fun cirIdx listed => ?_⟩
    obtain ⟨b, ⟨below, held⟩, unique⟩ := split.bucket_unique listed
    refine ⟨b, ⟨below, (all b below).symm ▸ held⟩, fun b' other => unique b' ⟨other.1, ?_⟩⟩
    exact all b' other.1 ▸ other.2

/-- The ranges of the threads partition the circuits, every opened circuit is opened once, and
    both parties' loops fill bucket `b` with the same circuits, those at the positions
    `b * mBucketSize, ..., (b + 1) * mBucketSize - 1` of the list. -/
theorem circuits_opened_and_bucketed {cutnChoose : CutnChoose} (running : 0 < p.mNumInitThreads)
    (split : p.Split cutnChoose) :
    ((List.range p.mNumInitThreads).flatMap fun t =>
      List.range' (p.startIdx t) (p.endIdx t - p.startIdx t)) = List.range p.mNumCircuits ∧
    ((List.range p.mNumInitThreads).flatMap (p.openedBy cutnChoose.opened)).Perm cutnChoose.opened ∧
    p.BucketedRuns cutnChoose (p.initRecvBuckets cutnChoose) ∧
    p.BucketedRuns cutnChoose (p.initSendBuckets cutnChoose) ∧
    ∀ r s, Along (p.initRecvBuckets cutnChoose) (fun _ _ => True) .initial r →
      Along (p.initSendBuckets cutnChoose) (fun _ _ => True) .initial s →
      (∀ t < p.mNumInitThreads, r.thread t = .finished ∧ s.thread t = .finished) →
      ∀ b < p.mNumExe, r.circuits b = s.circuits b := by
  have runs := bucketing_runs running split
  refine ⟨?_, split.opened_once running, runs, runs, fun r s received sent done b below => ?_⟩
  · rw [ranges_append, startIdx_last running]
  · rw [(runs.buckets r received fun t thread => (done t thread).1).1 b below,
      (runs.buckets s sent fun t thread => (done t thread).2).1 b below]

/-- Two threads, five buckets of three circuits and four opened circuits. -/
theorem circuits_bucketed_two_threads :
    let p : InitParams := ⟨5, 3, 4, 40, 2, 200, 200⟩
    let cutnChoose : CutnChoose :=
      ⟨[18, 1, 2, 9], [0, 3, 4, 5, 6, 7, 8, 17, 10, 11, 12, 13, 14, 15, 16]⟩
    p.BucketedRuns cutnChoose (p.initRecvBuckets cutnChoose) ∧
      p.BucketedRuns cutnChoose (p.initSendBuckets cutnChoose) := by
  intro p cutnChoose
  have split : p.Split cutnChoose := ⟨rfl, by decide⟩
  have all := circuits_opened_and_bucketed (by decide) split
  exact ⟨all.2.2.1, all.2.2.2.1⟩

end InitParams

end BatchDualEx
