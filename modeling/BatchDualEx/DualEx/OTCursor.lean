import BatchDualEx.Circuit.KProbeParams
import BatchDualEx.Lib.Cursor
import Mathlib.Order.Interval.Finset.Nat

/- The OT indices of one init thread: what `Extend` supplies, what `initSend` and `initRecv`
   wait for, and what the circuits and buckets are given. -/
namespace BatchDualEx

open Finset

structure InitParams where
  mNumExe : Nat
  mBucketSize : Nat
  mNumOpened : Nat
  mPsiSecParam : Nat
  numParallelInit : Nat
  mMyKProbeEncodingSize : Nat
  mTheirKProbeEncodingSize : Nat
  deriving DecidableEq, Repr

inductive OTOwner where
  | circuit (i : Nat)
  | bucket (i : Nat)
  deriving DecidableEq, Repr

/-- One spin-wait and the call after it: the awaited threshold and the interval that
    `initOT` or the `init` of the set intersection takes. -/
structure OTUse where
  owner : OTOwner
  awaited : Nat
  mOTIdx : Nat
  count : Nat
  deriving DecidableEq, Repr

def OTUse.indices (u : OTUse) : Finset Nat := Ico u.mOTIdx (u.mOTIdx + u.count)

def OTUse.handed (u : OTUse) : OTOwner × Nat × Nat := (u.owner, u.mOTIdx, u.count)

/-- A loop of waits with `otIdx` passed by reference; the second component is its last value. -/
def handOut (wait count : Nat) : List OTOwner → Nat → List OTUse × Nat
  | [], otIdx => ([], otIdx)
  | owner :: owners, otIdx =>
    let rest := handOut wait count owners (otIdx + count)
    (⟨owner, otIdx + wait, otIdx, count⟩ :: rest.1, rest.2)

def PsiOTCount (inputSize wordSize : Nat) : Nat := inputSize * wordSize

def psiInitAdvance (inputSize wordSize : Nat) : Nat := wordSize * inputSize

namespace InitParams

variable (p : InitParams)

def peer : InitParams := { p with
  mMyKProbeEncodingSize := p.mTheirKProbeEncodingSize
  mTheirKProbeEncodingSize := p.mMyKProbeEncodingSize }

def mNumCircuits : Nat := p.mNumOpened + p.mBucketSize * p.mNumExe

def mNumInitThreads : Nat := min p.numParallelInit p.mNumExe

def otsPerPSI : Nat := PsiOTCount p.mBucketSize p.mPsiSecParam

def numSendOTsPer : Nat :=
  p.mTheirKProbeEncodingSize * (p.mNumCircuits + p.mNumInitThreads - 1) / p.mNumInitThreads +
    p.otsPerPSI * (p.mNumExe + p.mNumInitThreads - 1) / p.mNumInitThreads

def numRecvOTsPer : Nat :=
  p.mMyKProbeEncodingSize * (p.mNumCircuits + p.mNumInitThreads - 1) / p.mNumInitThreads +
    p.otsPerPSI * (p.mNumExe + p.mNumInitThreads - 1) / p.mNumInitThreads

def startIdx (initThrdIdx : Nat) : Nat := initThrdIdx * p.mNumCircuits / p.mNumInitThreads
def endIdx (initThrdIdx : Nat) : Nat := (initThrdIdx + 1) * p.mNumCircuits / p.mNumInitThreads

/-- The opened circuits that an init thread handles, in its order. -/
def openedBy (opened : List Nat) (initThrdIdx : Nat) : List Nat :=
  opened.filter fun cirIdx => p.startIdx initThrdIdx ≤ cirIdx ∧ cirIdx < p.endIdx initThrdIdx

def circuits (initThrdIdx : Nat) : List OTOwner :=
  (List.range' (p.startIdx initThrdIdx) (p.endIdx initThrdIdx - p.startIdx initThrdIdx)).map
    .circuit

def buckets (initThrdIdx : Nat) : List OTOwner :=
  (List.range' initThrdIdx
    ((p.mNumExe - initThrdIdx + p.mNumInitThreads - 1) / p.mNumInitThreads)
    p.mNumInitThreads).map .bucket

def initSend (initThrdIdx : Nat) : List OTUse :=
  let circuits := handOut p.mMyKProbeEncodingSize p.mMyKProbeEncodingSize
    (p.circuits initThrdIdx) 0
  let buckets := handOut p.otsPerPSI (psiInitAdvance p.mBucketSize p.mPsiSecParam)
    (p.buckets initThrdIdx) circuits.2
  circuits.1 ++ buckets.1

/-- `initRecv` waits for `mMyKProbe.encodingSize()` indices and hands out
    `mTheirKProbe.encodingSize()` of them. -/
def initRecv (initThrdIdx : Nat) : List OTUse :=
  let circuits := handOut p.mMyKProbeEncodingSize p.mTheirKProbeEncodingSize
    (p.circuits initThrdIdx) 0
  let buckets := handOut p.otsPerPSI (psiInitAdvance p.mBucketSize p.mPsiSecParam)
    (p.buckets initThrdIdx) circuits.2
  circuits.1 ++ buckets.1

end InitParams

/-- `numBlocks` of `Extend`: the indices rounded up and one block for the correlation check. -/
def numBlocks (otCount : Nat) : Nat := ((otCount + 127) / 128 * 128 + 128) / 128

def senderDoneIdx (otCount : Nat) : Nat → Nat
  | 0 => 0
  | j + 1 => senderDoneIdx otCount j + min 128 (otCount - senderDoneIdx otCount j)

def receiverDoneIdx (otCount j : Nat) : Nat := min (128 * j) otCount

theorem handOut_cursor (wait count : Nat) (owners : List OTOwner) (otIdx : Nat) :
    (handOut wait count owners otIdx).2 = otIdx + owners.length * count := by
  induction owners generalizing otIdx with
  | nil => simp [handOut]
  | cons owner owners ih =>
    simp only [handOut, ih, List.length_cons, Nat.add_one_mul]
    omega

theorem handOut_getElem? (wait count : Nat) (owners : List OTOwner) (otIdx k : Nat) :
    (handOut wait count owners otIdx).1[k]? = owners[k]?.map fun owner =>
      ⟨owner, otIdx + k * count + wait, otIdx + k * count, count⟩ := by
  induction owners generalizing otIdx k with
  | nil => rfl
  | cons owner owners ih =>
    cases k with
    | zero => simp [handOut]
    | succ k =>
      have moved : otIdx + count + k * count = otIdx + (k + 1) * count := by
        rw [Nat.add_one_mul]
        omega
      simp only [handOut, List.getElem?_cons_succ, ih, moved]

theorem mem_handOut {wait count otIdx : Nat} {owners : List OTOwner} {u : OTUse} :
    u ∈ (handOut wait count owners otIdx).1 ↔
      ∃ k owner, owners[k]? = some owner ∧
        u = ⟨owner, otIdx + k * count + wait, otIdx + k * count, count⟩ := by
  rw [List.mem_iff_getElem?]
  simp only [handOut_getElem?, Option.map_eq_some_iff]
  constructor
  · rintro ⟨k, owner, here, rfl⟩
    exact ⟨k, owner, here, rfl⟩
  · rintro ⟨k, owner, here, rfl⟩
    exact ⟨k, owner, here, rfl⟩

theorem handOut_intervals (wait count : Nat) (owners : List OTOwner) (otIdx : Nat) :
    (handOut wait count owners otIdx).1.map (fun u => (u.mOTIdx, u.count)) =
      Cursor.intervals otIdx (List.replicate owners.length count) := by
  induction owners generalizing otIdx with
  | nil => rfl
  | cons owner owners ih =>
    simp only [handOut, List.map_cons, ih, List.length_cons, List.replicate_succ,
      Cursor.intervals]

theorem handOut_owners (wait count : Nat) (owners : List OTOwner) (otIdx : Nat) :
    (handOut wait count owners otIdx).1.map (·.owner) = owners := by
  induction owners generalizing otIdx with
  | nil => rfl
  | cons owner owners ih => simp only [handOut, List.map_cons, ih]

/-- The interval and its owner do not depend on what the loop waits for. -/
theorem handOut_handed (wait wait' count : Nat) (owners : List OTOwner) (otIdx : Nat) :
    (handOut wait count owners otIdx).1.map OTUse.handed =
      (handOut wait' count owners otIdx).1.map OTUse.handed := by
  induction owners generalizing otIdx with
  | nil => rfl
  | cons owner owners ih =>
    simp only [handOut, List.map_cons, ih, OTUse.handed]

namespace InitParams

variable (p : InitParams)

theorem circuits_length (t : Nat) : (p.circuits t).length = p.endIdx t - p.startIdx t := by
  simp [circuits]

theorem circuits_length_le (t : Nat) (running : 0 < p.mNumInitThreads) :
    (p.circuits t).length ≤ (p.mNumCircuits + p.mNumInitThreads - 1) / p.mNumInitThreads := by
  rw [circuits_length]
  exact Cursor.share_le p.mNumCircuits t running

theorem circuits_length_last (running : 0 < p.mNumInitThreads) :
    (p.circuits (p.mNumInitThreads - 1)).length =
      (p.mNumCircuits + p.mNumInitThreads - 1) / p.mNumInitThreads := by
  rw [circuits_length, endIdx, startIdx, Nat.sub_add_cancel running]
  exact Cursor.share_last p.mNumCircuits running

theorem buckets_length_le (t : Nat) :
    (p.buckets t).length ≤ (p.mNumExe + p.mNumInitThreads - 1) / p.mNumInitThreads := by
  simp only [buckets, List.length_map, List.length_range']
  exact Nat.div_le_div_right (by omega)

/-- A share of `n` items of `size` indices fits into the supply computed for them. -/
theorem demand_le {n parts items size : Nat} (running : 0 < parts)
    (share : items ≤ (n + parts - 1) / parts) :
    items * size ≤ size * (n + parts - 1) / parts := by
  rw [Nat.le_div_iff_mul_le running]
  calc items * size * parts = size * (items * parts) := by
        rw [Nat.mul_comm items, Nat.mul_assoc]
    _ ≤ size * ((n + parts - 1) / parts * parts) :=
        Nat.mul_le_mul_left _ (Nat.mul_le_mul_right _ share)
    _ ≤ size * (n + parts - 1) := Nat.mul_le_mul_left _ (Nat.div_mul_le_self _ _)

/-- The circuits and buckets of one thread ask for no more than one `Extend` supplies. -/
theorem total_le (size t : Nat) (running : 0 < p.mNumInitThreads) :
    (p.circuits t).length * size + (p.buckets t).length * p.otsPerPSI ≤
      size * (p.mNumCircuits + p.mNumInitThreads - 1) / p.mNumInitThreads +
        p.otsPerPSI * (p.mNumExe + p.mNumInitThreads - 1) / p.mNumInitThreads :=
  Nat.add_le_add (demand_le running (p.circuits_length_le t running))
    (demand_le running (p.buckets_length_le t))

theorem psiInitAdvance_eq : psiInitAdvance p.mBucketSize p.mPsiSecParam = p.otsPerPSI :=
  Nat.mul_comm _ _

theorem initSend_intervals (t : Nat) :
    (p.initSend t).map (fun u => (u.mOTIdx, u.count)) = Cursor.intervals 0
      (List.replicate (p.circuits t).length p.mMyKProbeEncodingSize ++
        List.replicate (p.buckets t).length p.otsPerPSI) := by
  simp only [initSend, List.map_append, handOut_intervals, handOut_cursor, psiInitAdvance_eq,
    Cursor.intervals_append, List.sum_replicate, smul_eq_mul]

/-- Both parties give the same indices to the circuits of the thread and then to its buckets, and
    no index is used twice or lies outside the supply. -/
theorem ot_indices_agree {t : Nat} (thread : t < p.mNumInitThreads) :
    (p.initSend t).map (·.owner) = p.circuits t ++ p.buckets t ∧
      (p.initSend t).Pairwise (fun u v => Disjoint u.indices v.indices) ∧
      (∀ u ∈ p.initSend t, u.indices ⊆ range p.numRecvOTsPer) ∧
      (p.initSend t).map OTUse.handed = (p.peer.initRecv t).map OTUse.handed := by
  have intervals := p.initSend_intervals t
  refine ⟨?_, ?_, ?_, ?_⟩
  · simp only [initSend, List.map_append, handOut_owners]
  · have ordered := Cursor.intervals_ordered 0
      (List.replicate (p.circuits t).length p.mMyKProbeEncodingSize ++
        List.replicate (p.buckets t).length p.otsPerPSI)
    rw [← intervals, List.pairwise_map] at ordered
    refine ordered.imp fun {u v} before => ?_
    rw [Finset.disjoint_left]
    intro i inU inV
    have lowU := (mem_Ico.mp inU).2
    have highV := (mem_Ico.mp inV).1
    simp only at before
    omega
  · intro u handed i inU
    have listed : (u.mOTIdx, u.count) ∈ (p.initSend t).map fun u => (u.mOTIdx, u.count) :=
      List.mem_map_of_mem handed
    rw [intervals] at listed
    have bounds := (Cursor.intervals_bounds listed).2
    have total := p.total_le p.mMyKProbeEncodingSize t (by omega)
    have below := (mem_Ico.mp inU).2
    simp only [List.sum_append, List.sum_replicate, smul_eq_mul, Nat.zero_add] at bounds
    unfold numRecvOTsPer
    rw [mem_range]
    omega
  · unfold initSend initRecv
    simp only [List.map_append, handOut_cursor]
    rw [handOut_handed p.mMyKProbeEncodingSize p.peer.mMyKProbeEncodingSize]
    rfl

theorem ot_indices_agree_second_thread :
    let p : InitParams := ⟨2, 3, 1, 8, 2, 5, 7⟩
    (p.initSend 1).map (·.owner) = p.circuits 1 ++ p.buckets 1 ∧
      (p.initSend 1).Pairwise (fun u v => Disjoint u.indices v.indices) ∧
      (∀ u ∈ p.initSend 1, u.indices ⊆ range p.numRecvOTsPer) ∧
      (p.initSend 1).map OTUse.handed = (p.peer.initRecv 1).map OTUse.handed :=
  ot_indices_agree ⟨2, 3, 1, 8, 2, 5, 7⟩ (by decide)

end InitParams

theorem senderDoneIdx_eq (otCount j : Nat) : senderDoneIdx otCount j = min (128 * j) otCount := by
  induction j with
  | zero => simp [senderDoneIdx]
  | succ j ih =>
    simp only [senderDoneIdx, ih]
    omega

/-- The wait can end, and whatever value of the done index ends it covers the interval. -/
def Served (otCount : Nat) (doneIdx : Nat → Nat) (u : OTUse) : Prop :=
  u.awaited ≤ otCount ∧
    ∀ j ≤ numBlocks otCount, u.awaited ≤ doneIdx j → ∀ i ∈ u.indices, i < doneIdx j

theorem served_of_covered {otCount : Nat} (doneIdx : Nat → Nat) {u : OTUse}
    (covered : u.mOTIdx + u.count ≤ u.awaited) (within : u.awaited ≤ otCount) :
    Served otCount doneIdx u := by
  refine ⟨within, fun j _ passed i inside => ?_⟩
  have := (mem_Ico.mp inside).2
  omega

namespace InitParams

variable (p : InitParams)

def AllServed : Prop :=
  ∀ t < p.mNumInitThreads,
    (∀ u ∈ p.initSend t, Served p.numRecvOTsPer (receiverDoneIdx p.numRecvOTsPer) u) ∧
    (∀ u ∈ p.initRecv t, Served p.numSendOTsPer (senderDoneIdx p.numSendOTsPer) u)

/-- What the wait of `initRecv` on the wrong encoding size needs, for the `k`-th circuit of a
    thread with the largest share: it stays within the supply, and no multiple of the block
    size separates what is awaited from what is used. -/
def RecvSizesFit : Prop :=
  ∀ k < (p.mNumCircuits + p.mNumInitThreads - 1) / p.mNumInitThreads,
    k * p.mTheirKProbeEncodingSize + p.mMyKProbeEncodingSize ≤ p.numSendOTsPer ∧
    ∀ j, 128 * j < k * p.mTheirKProbeEncodingSize + p.mMyKProbeEncodingSize ∨
      (k + 1) * p.mTheirKProbeEncodingSize ≤ 128 * j

/-- A loop that awaits what it takes is served as long as it ends within the supply. -/
theorem handOut_served {count otIdx otCount : Nat} {owners : List OTOwner}
    (doneIdx : Nat → Nat) (room : otIdx + owners.length * count ≤ otCount) :
    ∀ u ∈ (handOut count count owners otIdx).1, Served otCount doneIdx u := by
  intro u handed
  obtain ⟨k, owner, here, rfl⟩ := mem_handOut.mp handed
  have below : k < owners.length := (List.getElem?_eq_some_iff.mp here).1
  have taken := Nat.mul_le_mul_right count (Nat.succ_le_of_lt below)
  rw [Nat.succ_mul] at taken
  exact served_of_covered doneIdx le_rfl (by simp only; omega)

theorem initSend_served (t : Nat) (running : 0 < p.mNumInitThreads) (doneIdx : Nat → Nat) :
    ∀ u ∈ p.initSend t, Served p.numRecvOTsPer doneIdx u := by
  have total := p.total_le p.mMyKProbeEncodingSize t running
  change _ ≤ p.numRecvOTsPer at total
  intro u handed
  simp only [initSend, handOut_cursor, psiInitAdvance_eq, List.mem_append] at handed
  rcases handed with circuit | bucket
  · exact handOut_served doneIdx (by omega) u circuit
  · exact handOut_served doneIdx (by omega) u bucket

theorem initRecv_buckets_served (t : Nat) (running : 0 < p.mNumInitThreads)
    (doneIdx : Nat → Nat) :
    ∀ u ∈ (handOut p.otsPerPSI p.otsPerPSI (p.buckets t)
        ((p.circuits t).length * p.mTheirKProbeEncodingSize)).1,
      Served p.numSendOTsPer doneIdx u := by
  have total := p.total_le p.mTheirKProbeEncodingSize t running
  exact handOut_served doneIdx total

/-- One circuit of `initRecv`: the wait is served exactly when the sizes fit for it. -/
theorem initRecv_circuit_served_iff {k : Nat} (owner : OTOwner)
    (supplied : (k + 1) * p.mTheirKProbeEncodingSize ≤ p.numSendOTsPer) :
    Served p.numSendOTsPer (senderDoneIdx p.numSendOTsPer)
        ⟨owner, k * p.mTheirKProbeEncodingSize + p.mMyKProbeEncodingSize,
          k * p.mTheirKProbeEncodingSize, p.mTheirKProbeEncodingSize⟩ ↔
      k * p.mTheirKProbeEncodingSize + p.mMyKProbeEncodingSize ≤ p.numSendOTsPer ∧
      ∀ j, 128 * j < k * p.mTheirKProbeEncodingSize + p.mMyKProbeEncodingSize ∨
        (k + 1) * p.mTheirKProbeEncodingSize ≤ 128 * j := by
  rw [Nat.add_one_mul] at supplied ⊢
  unfold Served
  simp only [senderDoneIdx_eq, OTUse.indices, mem_Ico]
  refine and_congr_right fun within => ?_
  constructor
  · intro covered j
    by_contra separated
    have block : j ≤ numBlocks p.numSendOTsPer := by
      unfold numBlocks
      omega
    have passed := covered j block (by omega) (128 * j) (by omega)
    omega
  · intro apart j _ passed i inside
    have := apart j
    omega

/-- Every wait of every thread can end and is followed only by finished indices exactly when
    the sizes of the two encodings fit for each circuit of the largest share. -/
theorem all_served_iff (running : 0 < p.mNumInitThreads) : p.AllServed ↔ p.RecvSizesFit := by
  have supplied : ∀ k < (p.mNumCircuits + p.mNumInitThreads - 1) / p.mNumInitThreads,
      (k + 1) * p.mTheirKProbeEncodingSize ≤ p.numSendOTsPer := by
    intro k below
    exact Nat.le_add_right_of_le (demand_le running (Nat.succ_le_of_lt below))
  constructor
  · intro served k below
    have last := p.circuits_length_last running
    have handed := (served (p.mNumInitThreads - 1) (by omega)).2
    obtain ⟨owner, here⟩ : ∃ owner,
        (p.circuits (p.mNumInitThreads - 1))[k]? = some owner :=
      ⟨_, List.getElem?_eq_getElem (by rw [last]; exact below)⟩
    refine (p.initRecv_circuit_served_iff owner (supplied k below)).mp (handed _ ?_)
    unfold initRecv
    refine List.mem_append_left _ (mem_handOut.mpr ⟨k, owner, here, ?_⟩)
    rw [Nat.zero_add]
  · intro fit t _
    refine ⟨p.initSend_served t running _, fun u handed => ?_⟩
    simp only [initRecv, handOut_cursor, psiInitAdvance_eq, Nat.zero_add, List.mem_append]
      at handed
    rcases handed with circuit | bucket
    · obtain ⟨k, owner, here, rfl⟩ := mem_handOut.mp circuit
      have below := lt_of_lt_of_le (List.getElem?_eq_some_iff.mp here).1
        (p.circuits_length_le t running)
      rw [Nat.zero_add]
      exact (p.initRecv_circuit_served_iff owner (supplied k below)).mpr (fit k below)
    · exact p.initRecv_buckets_served t running _ u bucket

theorem all_served_equal_sizes :
    (⟨2, 3, 1, 8, 2, 7, 7⟩ : InitParams).AllServed ↔
      (⟨2, 3, 1, 8, 2, 7, 7⟩ : InitParams).RecvSizesFit :=
  all_served_iff ⟨2, 3, 1, 8, 2, 7, 7⟩ (by decide)

/-- 128 input bits against one: the first circuit awaits 542 indices of a supply of 281. -/
theorem all_served_fails :
    KProbeMatrix.buildParams 128 40 = .ok ⟨6, 30, 69, 414, 542⟩ ∧
      KProbeMatrix.buildParams 1 40 = .ok ⟨5, 9, 48, 240, 241⟩ ∧
      ¬ (⟨1, 1, 0, 40, 1, 542, 241⟩ : InitParams).AllServed := by
  refine ⟨?_, KProbeMatrix.buildParams_one_forty, fun served => ?_⟩
  · rw [KProbeMatrix.buildParams_eq 40 (by decide)]
    decide +kernel
  · have first := ((served 0 (by decide)).2 ⟨.circuit 0, 542, 0, 241⟩ (by decide)).1
    revert first
    decide

end InitParams

end BatchDualEx
