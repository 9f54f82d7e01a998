import BatchDualEx.Network.Delivery

/- Runs of two channels: what holds in every state that they reach, and that the service comes to
   rest with every operation done that can be done. -/
namespace BatchDualEx

open Bytes Serial BtIOService

def Reading.headerRead : Reading → Bool
  | .header _ => false
  | .data _ _ => true

namespace Link

theorem step_posted {l l' : Link} (step : Step l l') :
    l'.sender.posted = l.sender.posted ∧ l'.receiver.posted = l.receiver.posted := by
  cases step with
  | sendPost some => exact ⟨(starts_runPost sendBegin l.sender).1, rfl⟩
  | sendPop asked => exact ⟨(starts_runPop sendBegin l.sender).1, rfl⟩
  | recvPost some => exact ⟨rfl, (starts_runPost receiveBegin l.receiver).1⟩
  | recvPop asked => exact ⟨rfl, (starts_runPop receiveBegin l.receiver).1⟩
  | header i size got started whole =>
    unfold Link.header
    split <;> exact ⟨rfl, rfl⟩
  | write | wrote | read | received => exact ⟨rfl, rfl⟩

theorem delivering_postSend {l : Link} (d : Delivering l) {op : SendOp}
    (opened : ∀ op ∈ l.sender.posted, sendBegin op ≠ none)
    (accepted : ∀ data, op = .SendData data → 0 < data.length ∧ data.length < 2 ^ 32) :
    Delivering (l.postSend op) where
  sender := serving_post d.sender opened
  receiver := d.receiver
  accepted := by
    intro data listed
    rcases List.mem_append.mp listed with old | new
    · exact d.accepted data old
    · exact accepted data (List.mem_singleton.mp new).symm
  sentBytes := d.sentBytes
  readBound := d.readBound
  readBytes := d.readBytes
  results := d.results
  counted := d.counted
  sized := d.sized

theorem delivering_postRecv {l : Link} (d : Delivering l) {op : RecvOp}
    (opened : ∀ op ∈ l.receiver.posted, receiveBegin op ≠ none) : Delivering (l.postRecv op) where
  sender := d.sender
  receiver := serving_post d.receiver opened
  accepted := d.accepted
  sentBytes := d.sentBytes
  readBound := d.readBound
  readBytes := d.readBytes
  results := d.results
  counted := d.counted
  sized := d.sized

def total (l : Link) : Nat := (l.sender.posted.flatMap SendOp.bytes).length

theorem written_total {l : Link} (d : Delivering l) :
    l.written.length + (l.sender.running.flatMap Prod.snd).length ≤ l.total := by
  obtain ⟨rest, split⟩ := started_posted d.sender
  have sent := congrArg List.length d.sentBytes
  rw [List.length_append] at sent
  rw [total, ← split, List.flatMap_append, List.length_append]
  omega

/-- The headers that have been handled of receives that are not completed. -/
def handled (l : Link) : Nat :=
  l.receiver.running.countP fun run => run.2.headerRead

/-- How many steps a direction can still take on its own, at most. -/
def work (l : Link) : Nat :=
  Serial.work l.sender + Serial.work l.receiver +
    (l.receiver.posted.length - l.receiver.completed.length - l.handled) +
    (l.total - l.written.length) + (l.total - l.readCount)

theorem handled_starts {l : Link} {q : RecvQueue} (starts : Starts receiveBegin l.receiver q) :
    ({ l with receiver := q } : Link).handled = l.handled := by
  obtain ⟨-, -, ⟨-, same⟩ | ⟨op, r, first, -, one⟩⟩ := starts
  · rw [handled, same]
    rfl
  · rw [handled, one, List.countP_append]
    cases op with
    | RecvData size =>
      cases first
      rfl
    | CloseRecv => cases first

theorem handled_running {l : Link} {op : RecvOp} {r : Reading}
    (running : l.receiver.running = [(op, r)]) : l.handled = r.headerRead.toNat := by
  rw [handled, running]
  cases r <;> rfl

theorem total_starts {l : Link} {q : SendQueue} (starts : Starts sendBegin l.sender q) :
    ({ l with sender := q } : Link).total = l.total :=
  congrArg (fun posted => (posted.flatMap SendOp.bytes).length) starts.1

theorem work_sender {l : Link} {q : SendQueue} (starts : Starts sendBegin l.sender q)
    (less : Serial.work q < Serial.work l.sender) :
    ({ l with sender := q } : Link).work < l.work := by
  have total := total_starts starts
  have handled : ({ l with sender := q } : Link).handled = l.handled := rfl
  simp only [work, total, handled]
  omega

theorem work_receiver {l : Link} {q : RecvQueue} (starts : Starts receiveBegin l.receiver q)
    (less : Serial.work q < Serial.work l.receiver) :
    ({ l with receiver := q } : Link).work < l.work := by
  have total : ({ l with receiver := q } : Link).total = l.total := rfl
  have handled := handled_starts starts
  simp only [work, total, handled, starts.1, starts.2.1]
  omega

theorem work_step {l l' : Link} (matching : l.Matching) (d : Delivering l) (step : Step l l') :
    l'.work < l.work := by
  have written := written_total d
  have read := d.readBound
  cases step with
  | sendPost some => exact work_sender (starts_runPost _ _) (work_runPost some)
  | sendPop asked => exact work_sender (starts_runPop _ _) (work_runPop d.sender asked)
  | write i op left n started some fits =>
    rw [(running_zero d.sender started).2.1, List.flatMap_singleton] at written
    change Serial.work l.sender + Serial.work l.receiver +
      (l.receiver.posted.length - l.receiver.completed.length - l.handled) +
      (l.total - (l.written ++ left.take n).length) + (l.total - l.readCount) < l.work
    rw [List.length_append, List.length_take, work]
    dsimp only at written
    omega
  | wrote i op started =>
    have less := (work_complete d.sender started).1
    have total : ({ l with sender := l.sender.complete i } : Link).total = l.total := rfl
    have handled : ({ l with sender := l.sender.complete i } : Link).handled = l.handled := rfl
    simp only [work, total, handled]
    omega
  | recvPost some => exact work_receiver (starts_runPost _ _) (work_runPost some)
  | recvPop asked => exact work_receiver (starts_runPop _ _) (work_runPop d.receiver asked)
  | read i op r n started some fits arrived =>
    have before := handled_running (running_zero d.receiver started).2.1
    obtain ⟨q, isQ⟩ : ∃ q, q =
      l.receiver.advance i (r.add ((l.written.drop l.readCount).take n)) := ⟨_, rfl⟩
    have after : ({ l with receiver := q, readCount := l.readCount + n } : Link).handled =
        r.headerRead.toNat := by
      rw [isQ, handled_running (running_advance d.receiver started _)]
      cases r <;> rfl
    have posted : q.posted.length - q.completed.length =
        l.receiver.posted.length - l.receiver.completed.length := by rw [isQ]; rfl
    have same : Serial.work q = Serial.work l.receiver := by rw [isQ]; rfl
    have total : ({ l with receiver := q, readCount := l.readCount + n } : Link).total = l.total :=
      rfl
    rw [← isQ]
    simp only [work, total, after, before, same, posted]
    omega
  | header i size got started whole =>
    rw [Link.header, if_pos (header_fits d matching started whole)]
    have before := handled_running (running_zero d.receiver started).2.1
    have below := (work_complete d.receiver started).2.1
    obtain ⟨q, isQ⟩ : ∃ q, q = l.receiver.advance i (.data (loadU32 got) []) := ⟨_, rfl⟩
    have after : ({ l with receiver := q } : Link).handled = 1 := by
      rw [isQ, handled_running (running_advance d.receiver started _)]
      rfl
    have posted : q.posted.length - q.completed.length =
        l.receiver.posted.length - l.receiver.completed.length := by rw [isQ]; rfl
    have same : Serial.work q = Serial.work l.receiver := by rw [isQ]; rfl
    have total : ({ l with receiver := q } : Link).total = l.total := rfl
    rw [← isQ]
    simp only [work, total, after, before, same, posted, Reading.headerRead, Bool.toNat_false]
    omega
  | received i op mSize got started whole =>
    obtain ⟨less, below, completed⟩ := work_complete d.receiver started
    have before := handled_running (running_zero d.receiver started).2.1
    obtain ⟨q, isQ⟩ : ∃ q, q = l.receiver.complete i := ⟨_, rfl⟩
    have after : ({ l with receiver := q, results := l.results ++ [got] } : Link).handled = 0 := by
      rw [handled, isQ, running_complete d.receiver started, List.countP_nil]
    have posted : q.posted = l.receiver.posted := by rw [isQ]; rfl
    have total : ({ l with receiver := q, results := l.results ++ [got] } : Link).total = l.total :=
      rfl
    rw [← isQ] at less completed ⊢
    simp only [work, total, after, before, posted, completed, List.length_append,
      List.length_singleton, Reading.headerRead, Bool.toNat_true]
    omega

/-- Nothing is left to do: every send is done, and so is every receive that has a message. -/
def Settled (l : Link) : Prop :=
  l.sender.posted = l.sender.completed ++ l.sender.closed ∧
    (l.receiver.posted = l.receiver.completed ++ l.receiver.closed ∨
      l.receiver.completed.length = l.sender.completed.length)

/-- With every byte read, what has been taken for the next receive is all that was sent after the
    messages that are received. -/
theorem taken_all {l : Link} (d : Delivering l) (idle : l.sender.running = [])
    (read : l.readCount = l.written.length) {op : RecvOp} {r : Reading}
    (running : l.receiver.running = [(op, r)]) :
    (l.sender.started.drop l.results.length).flatMap SendOp.bytes = r.taken := by
  have bytes := d.readBytes
  have sent := d.sentBytes
  rw [idle, List.flatMap_nil, List.append_nil] at sent
  rw [running, List.flatMap_singleton, read, List.take_length, sent] at bytes
  obtain ⟨later, split⟩ := d.results
  rw [← split, List.flatMap_append, results_bytes] at bytes
  rw [← split, List.drop_left' (List.length_map _)]
  exact List.append_cancel_left bytes

theorem settled_of_stuck {l : Link} (d : Delivering l) (stuck : ∀ l', ¬ Step l l') :
    l.Settled := by
  have noSend : l.sender.running = [] := by
    rcases running : l.sender.running with _ | ⟨⟨op, left⟩, others⟩
    · rfl
    · cases left with
      | nil => exact absurd (Step.wrote l 0 op (by simp [running])) (stuck _)
      | cons byte left =>
        exact absurd (Step.write l 0 op (byte :: left) 1 (by simp [running]) (by decide) (by simp))
          (stuck _)
  have sendPosts : l.sender.posts = [] := by_contra fun some => stuck _ (.sendPost l some)
  have sendPops : l.sender.pops = 0 :=
    Nat.eq_zero_of_not_pos fun asked => stuck _ (.sendPop l asked)
  obtain ⟨sends, started⟩ := settled d.sender sendPosts noSend sendPops
  refine ⟨sends, ?_⟩
  rcases running : l.receiver.running with _ | ⟨⟨op, r⟩, others⟩
  · left
    have recvPosts : l.receiver.posts = [] := by_contra fun some => stuck _ (.recvPost l some)
    have recvPops : l.receiver.pops = 0 :=
      Nat.eq_zero_of_not_pos fun asked => stuck _ (.recvPop l asked)
    exact (settled d.receiver recvPosts running recvPops).1
  · right
    have front : l.receiver.running[0]? = some (op, r) := by simp [running]
    obtain ⟨-, one, -, -, -, begun, -⟩ := running_zero d.receiver front
    have sized := d.sized (op, r) (by simp [one])
    have allRead (more : 0 < r.missing) : l.readCount = l.written.length := by
      have bound := d.readBound
      by_contra unread
      exact stuck _ (.read l 0 op r 1 front (by decide) more (by omega))
    cases r with
    | header got =>
      have short : got.length < 4 := by
        refine Nat.lt_of_le_of_ne sized fun whole => ?_
        have began := d.receiver.began op (by simp [begun])
        cases op with
        | RecvData size => exact stuck _ (.header l 0 size got front whole)
        | CloseRecv => exact began rfl
      have rest := taken_all d noSend (allRead (Nat.sub_pos_of_lt short)) one
      -- A message that is left would have a whole header.
      have none : l.sender.started.drop l.results.length = [] := by
        rcases next : l.sender.started.drop l.results.length with _ | ⟨send, later⟩
        · rfl
        · have entry : l.sender.started[l.results.length]? = some send := by
            rw [← List.head?_drop, next]
            rfl
          obtain ⟨data, isData, -⟩ := started_data d entry
          have length := congrArg List.length rest
          rw [next, isData, List.flatMap_cons] at length
          simp only [SendOp.bytes, buffers, Reading.taken, List.length_append,
            encodeU32_length] at length
          omega
      have results := d.results.length_le
      rw [List.length_map] at results
      have all := List.drop_eq_nil_iff.mp none
      rw [← d.counted, ← started]
      omega
    | data mSize got =>
      obtain ⟨short, data, entry, length⟩ := sized
      by_cases whole : got.length = mSize
      · exact absurd (Step.received l 0 op mSize got front whole) (stuck _)
      · have less : got.length < mSize := Nat.lt_of_le_of_ne short whole
        have rest := congrArg List.length
          (taken_all d noSend (allRead (Nat.sub_pos_of_lt less)) one)
        obtain ⟨inside, isNext⟩ := List.getElem?_eq_some_iff.mp entry
        rw [List.drop_eq_getElem_cons inside, isNext, List.flatMap_cons] at rest
        simp only [SendOp.bytes, buffers, Reading.taken, List.length_append,
          encodeU32_length] at rest
        omega

end Link

namespace Net

@[simp] theorem setLink_link (net : Net) (s t : Bool) (l : Link) :
    (net.setLink s l).link t = if t = s then l else net.link t := Function.update_apply ..

@[simp] theorem setLink_closing (net : Net) (s : Bool) (l : Link) :
    (net.setLink s l).closing = net.closing := rfl

@[simp] theorem setClosing_link (net : Net) (s : Bool) (c : Closing) :
    (net.setClosing s c).link = net.link := rfl

@[simp] theorem setClosing_closing (net : Net) (s t : Bool) (c : Closing) :
    (net.setClosing s c).closing t = if t = s then c else net.closing t := Function.update_apply ..

def Matching (net : Net) : Prop := ∀ s, (net.link s).Matching

structure Holds (net : Net) : Prop where
  delivering : ∀ s, (net.link s).Delivering
  sends : ∀ s, net.closing s ≠ .sendPosted →
    ∀ op ∈ (net.link s).sender.posted, sendBegin op ≠ none
  receives : ∀ s, net.closing s = .opened →
    ∀ op ∈ (net.link (!s)).receiver.posted, receiveBegin op ≠ none

theorem holds_start : Holds start where
  delivering _ := Link.delivering_start
  sends _ _ _ listed := absurd listed List.not_mem_nil
  receives _ _ _ listed := absurd listed List.not_mem_nil

theorem internal_posted {net net' : Net} (step : Internal net net') (s : Bool) :
    (net'.link s).sender.posted = (net.link s).sender.posted ∧
      (net'.link s).receiver.posted = (net.link s).receiver.posted := by
  cases step with
  | link t l moved =>
    rw [setLink_link]
    split
    · rename_i same
      rw [same]
      exact Link.step_posted moved
    · exact ⟨rfl, rfl⟩

theorem step_grows {net net' : Net} (step : Step net net') (s : Bool) :
    (net.link s).sender.posted <+: (net'.link s).sender.posted ∧
      (net.link s).receiver.posted <+: (net'.link s).receiver.posted := by
  cases step with
  | internal _ moved =>
    obtain ⟨sends, receives⟩ := internal_posted moved s
    rw [sends, receives]
    exact ⟨List.prefix_rfl, List.prefix_rfl⟩
  | asyncSend t data opened accepted =>
    rw [setLink_link]
    split
    · rename_i same
      exact ⟨same ▸ List.prefix_append _ _, same ▸ List.prefix_rfl⟩
    · exact ⟨List.prefix_rfl, List.prefix_rfl⟩
  | asyncRecv t size opened some =>
    rw [setLink_link]
    split
    · rename_i same
      exact ⟨same ▸ List.prefix_rfl, same ▸ List.prefix_append _ _⟩
    · exact ⟨List.prefix_rfl, List.prefix_rfl⟩
  | closeRecv t opened =>
    rw [setClosing_link, setLink_link]
    split
    · rename_i same
      exact ⟨same ▸ List.prefix_rfl, same ▸ List.prefix_append _ _⟩
    · exact ⟨List.prefix_rfl, List.prefix_rfl⟩
  | closeSend t closing =>
    rw [setClosing_link, setLink_link]
    split
    · rename_i same
      exact ⟨same ▸ List.prefix_append _ _, same ▸ List.prefix_rfl⟩
    · exact ⟨List.prefix_rfl, List.prefix_rfl⟩

theorem matching_of_step {net net' : Net} (step : Step net net') (matching : net'.Matching) :
    net.Matching := by
  intro s i n data receive send
  obtain ⟨sends, receives⟩ := step_grows step s
  exact matching s i n data (Lists.getElem?_of_prefix receives receive)
    (Lists.getElem?_of_prefix sends send)

theorem holds_internal {net net' : Net} (matching : net.Matching) (step : Internal net net')
    (holds : Holds net) : Holds net' := by
  have posted := internal_posted step
  cases step with
  | link t l moved =>
    constructor
    · intro s
      rw [setLink_link]
      split
      · exact Link.delivering_step (matching t) moved (holds.delivering t)
      · exact holds.delivering s
    · intro s unposted
      rw [(posted s).1]
      exact holds.sends s unposted
    · intro s opened
      rw [(posted (!s)).2]
      exact holds.receives s opened

theorem holds_step {net net' : Net} (matching : net.Matching) (step : Step net net')
    (holds : Holds net) : Holds net' := by
  cases step with
  | internal _ moved => exact holds_internal matching moved holds
  | asyncSend t data opened accepted =>
    have open_t := holds.sends t (by rw [opened]; decide)
    obtain ⟨some, whole⟩ := BtChannel.asyncSend_ok accepted
    have small : 0 < data.length ∧ data.length < 2 ^ 32 := by
      have below : u32 data.length < 2 ^ 32 := Nat.mod_lt _ (by decide)
      have short := List.take_eq_self_iff _ |>.mp whole.symm
      rw [u32_small (by omega)] at some
      omega
    constructor
    · intro s
      rw [setLink_link]
      split
      · apply Link.delivering_postSend (holds.delivering t) open_t
        intro data' same
        cases same
        exact small
      · exact holds.delivering s
    · intro s unposted op listed
      rw [setLink_link] at listed
      split at listed
      · rcases List.mem_append.mp listed with old | new
        · exact open_t op old
        · rw [List.mem_singleton.mp new]
          exact Option.some_ne_none _
      · exact holds.sends s unposted op listed
    · intro s isOpen op listed
      rw [setLink_link] at listed
      split at listed
      · rename_i same
        exact holds.receives s isOpen op (same ▸ listed)
      · exact holds.receives s isOpen op listed
  | asyncRecv t size opened some =>
    have open_t := holds.receives t opened
    constructor
    · intro s
      rw [setLink_link]
      split
      · exact Link.delivering_postRecv (holds.delivering (!t)) open_t
      · exact holds.delivering s
    · intro s unposted op listed
      rw [setLink_link] at listed
      split at listed
      · rename_i same
        exact holds.sends s unposted op (same ▸ listed)
      · exact holds.sends s unposted op listed
    · intro s isOpen op listed
      rw [setLink_link] at listed
      split at listed
      · rcases List.mem_append.mp listed with old | new
        · exact open_t op old
        · rw [List.mem_singleton.mp new]
          exact Option.some_ne_none _
      · exact holds.receives s isOpen op listed
  | closeRecv t opened =>
    have open_t := holds.receives t opened
    constructor
    · intro s
      rw [setClosing_link, setLink_link]
      split
      · exact Link.delivering_postRecv (holds.delivering (!t)) open_t
      · exact holds.delivering s
    · intro s unposted op listed
      rw [setClosing_closing, setLink_closing] at unposted
      rw [setClosing_link, setLink_link] at listed
      have before : net.closing s ≠ .sendPosted := by
        split at unposted
        · rename_i same
          rw [same, opened]
          decide
        · exact unposted
      split at listed
      · rename_i same
        exact holds.sends s before op (same ▸ listed)
      · exact holds.sends s before op listed
    · intro s isOpen op listed
      rw [setClosing_closing, setLink_closing] at isOpen
      rw [setClosing_link, setLink_link] at listed
      split at isOpen
      · cases isOpen
      · rename_i other
        rw [if_neg (by simpa using other)] at listed
        exact holds.receives s isOpen op listed
  | closeSend t closing =>
    have open_t := holds.sends t (by rw [closing]; decide)
    constructor
    · intro s
      rw [setClosing_link, setLink_link]
      split
      · apply Link.delivering_postSend (holds.delivering t) open_t
        intro data same
        cases same
      · exact holds.delivering s
    · intro s unposted op listed
      rw [setClosing_closing, setLink_closing] at unposted
      rw [setClosing_link, setLink_link] at listed
      split at unposted
      · exact absurd rfl unposted
      · rename_i other
        rw [if_neg other] at listed
        exact holds.sends s unposted op listed
    · intro s isOpen op listed
      rw [setClosing_closing, setLink_closing] at isOpen
      rw [setClosing_link, setLink_link] at listed
      split at isOpen
      · cases isOpen
      · split at listed
        · rename_i same
          exact holds.receives s isOpen op (same ▸ listed)
        · exact holds.receives s isOpen op listed

theorem holds_reachable {net : Net} (reached : Reachable net) (matching : net.Matching) :
    Holds net := by
  induction reached with
  | start => exact holds_start
  | step net net' reached step ih =>
    have earlier := matching_of_step step matching
    exact holds_step earlier step (ih earlier)

def work (net : Net) : Nat := (net.link false).work + (net.link true).work

theorem work_internal {net net' : Net} (matching : net.Matching) (holds : Holds net)
    (step : Internal net net') : net'.work < net.work := by
  cases step with
  | link t l moved =>
    have less := Link.work_step (matching t) (holds.delivering t) moved
    cases t
    · simp only [work, setLink_link]
      exact Nat.add_lt_add_right less _
    · simp only [work, setLink_link]
      exact Nat.add_lt_add_left less _

theorem internal_bounded {net : Net} (matching : net.Matching) (holds : Holds net)
    (run : Nat → Net) (first : run 0 = net) {n : Nat}
    (steps : ∀ k < n, Internal (run k) (run (k + 1))) :
    (run n).Matching ∧ Holds (run n) ∧ (run n).work + n ≤ net.work := by
  induction n with
  | zero =>
    rw [first]
    exact ⟨matching, holds, Nat.le_refl _⟩
  | succ n ih =>
    obtain ⟨matching, holds, bound⟩ := ih fun k below => steps k (Nat.lt_succ_of_lt below)
    have step := steps n (Nat.lt_succ_self n)
    have less := work_internal matching holds step
    refine ⟨?_, holds_internal matching step holds, by omega⟩
    intro s i m data receive send
    rw [(internal_posted step s).1] at send
    rw [(internal_posted step s).2] at receive
    exact matching s i m data receive send

theorem reachable_link {net : Net} {s : Bool} {l l' other : Link}
    (reached : Reachable net ∧ net.link s = l ∧ net.link (!s) = other) (step : l.Step l') :
    ∃ net', Reachable net' ∧ net'.link s = l' ∧ net'.link (!s) = other := by
  obtain ⟨reached, isLink, isOther⟩ := reached
  subst isLink
  refine ⟨_, .step _ _ reached (.internal _ _ (.link net s l' step)), ?_, ?_⟩
  · rw [setLink_link, if_pos rfl]
  · rw [setLink_link, if_neg (by simp), isOther]

def twoPosts : Link where
  sender := ⟨[.SendData [7, 9]], [], [], 0, [.SendData [7, 9]], [], [], [], []⟩
  written := []
  readCount := 0
  receiver := ⟨[.RecvData (some 2)], [], [], 0, [.RecvData (some 2)], [], [], [], []⟩
  results := []

def twoBytes (left written : List Byte) (readCount : Nat) (r : Reading) : Link where
  sender := ⟨[], [.SendData [7, 9]], [(.SendData [7, 9], left)], 0, [.SendData [7, 9]],
    [.SendData [7, 9]], [], [], []⟩
  written := written
  readCount := readCount
  receiver := ⟨[], [.RecvData (some 2)], [(.RecvData (some 2), r)], 0, [.RecvData (some 2)],
    [.RecvData (some 2)], [], [], []⟩
  results := []

theorem twoPosts_reachable : ∃ net, Reachable net ∧ net.link false = twoPosts ∧
    net.link true = Link.start := by
  have sent := Reachable.step _ _ .start (.asyncSend start false [7, 9] rfl rfl)
  have receive := Reachable.step _ _ sent (.asyncRecv _ true (some 2) rfl (by decide))
  exact ⟨_, receive, rfl, rfl⟩

def twoDone : Link :=
  { twoBytes [] [2, 0, 0, 0, 7, 9] 6 (.data 2 [7, 9]) with
    receiver := ⟨[], [.RecvData (some 2)], [], 1, [.RecvData (some 2)], [.RecvData (some 2)],
      [.RecvData (some 2)], [], []⟩
    results := [[7, 9]] }

/-- The first write stops in the middle of the data, the first read after the header. -/
theorem twoDone_reachable : ∃ net, Reachable net ∧ net.link false = twoDone ∧
    net.link true = Link.start := by
  obtain ⟨queued, isQueued⟩ : ∃ l, l =
    { twoPosts with sender := (twoBytes [2, 0, 0, 0, 7, 9] [] 0 (.header [])).sender } := ⟨_, rfl⟩
  have sendPost : Link.Step twoPosts queued := by
    rw [isQueued]
    exact .sendPost twoPosts (by decide)
  have recvPost : queued.Step (twoBytes [2, 0, 0, 0, 7, 9] [] 0 (.header [])) := by
    rw [isQueued]
    exact .recvPost _ (by decide)
  have write : Link.Step _ (twoBytes [9] [2, 0, 0, 0, 7] 0 (.header [])) :=
    .write (twoBytes [2, 0, 0, 0, 7, 9] [] 0 (.header [])) 0 _ _ 5 rfl (by decide) (by decide)
  have read : Link.Step _ (twoBytes [9] [2, 0, 0, 0, 7] 4 (.header [2, 0, 0, 0])) :=
    .read (twoBytes [9] [2, 0, 0, 0, 7] 0 (.header [])) 0 _ _ 4 rfl (by decide) (by decide)
      (by decide)
  have header : Link.Step _ (twoBytes [9] [2, 0, 0, 0, 7] 4 (.data 2 [])) :=
    .header (twoBytes [9] [2, 0, 0, 0, 7] 4 (.header [2, 0, 0, 0])) 0 _ _ rfl rfl
  have rest : Link.Step _ (twoBytes [] [2, 0, 0, 0, 7, 9] 4 (.data 2 [])) :=
    .write (twoBytes [9] [2, 0, 0, 0, 7] 4 (.data 2 [])) 0 _ _ 1 rfl (by decide) (by decide)
  have data : Link.Step _ (twoBytes [] [2, 0, 0, 0, 7, 9] 6 (.data 2 [7, 9])) :=
    .read (twoBytes [] [2, 0, 0, 0, 7, 9] 4 (.data 2 [])) 0 _ _ 2 rfl (by decide) (by decide)
      (by decide)
  have received : Link.Step _ twoDone :=
    .received (twoBytes [] [2, 0, 0, 0, 7, 9] 6 (.data 2 [7, 9])) 0 _ 2 _ rfl rfl
  obtain ⟨net, posted⟩ := twoPosts_reachable
  obtain ⟨net, started⟩ := reachable_link posted sendPost
  obtain ⟨net, waiting⟩ := reachable_link started recvPost
  obtain ⟨net, wrote⟩ := reachable_link waiting write
  obtain ⟨net, arrived⟩ := reachable_link wrote read
  obtain ⟨net, sized⟩ := reachable_link arrived header
  obtain ⟨net, wrote⟩ := reachable_link sized rest
  obtain ⟨net, arrived⟩ := reachable_link wrote data
  exact reachable_link arrived received

/-- In every state of every run: one send and one receive at a time on either side, in order, none
    lost and none twice; the `i`-th receive is completed with the bytes of the `i`-th send; what
    closes a queue comes after everything else is done. The service comes to rest, and then every
    operation is done that can be done. -/
theorem channels_deliver {net : Net} (reached : Reachable net) (matching : net.Matching) :
    (∀ s, OneByOne (net.link s).sender ∧ OneByOne (net.link s).receiver) ∧
      (∀ s, (net.link s).results.length = (net.link s).receiver.completed.length ∧
        ∀ (i : Nat) (data : List Byte), (net.link s).results[i]? = some data →
          (net.link s).sender.posted[i]? = some (.SendData data)) ∧
      ((∀ net', ¬ Internal net net') → ∀ s, (net.link s).Settled) ∧
      ∀ (run : Nat → Net) (n : Nat), run 0 = net →
        (∀ k < n, Internal (run k) (run (k + 1))) → n ≤ net.work := by
  have holds := holds_reachable reached matching
  have delivering := holds.delivering
  refine ⟨?_, ?_, ?_, ?_⟩
  · intro s
    exact ⟨oneByOne (delivering s).sender, oneByOne (delivering s).receiver⟩
  · intro s
    refine ⟨(delivering s).counted, fun i data result => ?_⟩
    have listed : ((net.link s).results.map SendOp.SendData)[i]? = some (.SendData data) := by
      rw [List.getElem?_map, result]
      rfl
    have sent := Lists.getElem?_of_prefix (delivering s).results listed
    exact Lists.getElem?_of_prefix (started_posted (delivering s).sender) sent
  · intro stuck s
    exact Link.settled_of_stuck (delivering s) fun l step => stuck _ (.link net s l step)
  · intro run n first steps
    obtain ⟨-, -, bound⟩ := internal_bounded matching holds run first steps
    omega

theorem channels_deliver_two_bytes : ∃ net, Reachable net ∧
    net.link false = twoDone ∧
    (∀ s, OneByOne (net.link s).sender ∧ OneByOne (net.link s).receiver) ∧
      (∀ s, (net.link s).results.length = (net.link s).receiver.completed.length ∧
        ∀ (i : Nat) (data : List Byte), (net.link s).results[i]? = some data →
          (net.link s).sender.posted[i]? = some (.SendData data)) ∧
      ((∀ net', ¬ Internal net net') → ∀ s, (net.link s).Settled) ∧
      ∀ (run : Nat → Net) (n : Nat), run 0 = net →
        (∀ k < n, Internal (run k) (run (k + 1))) → n ≤ net.work := by
  obtain ⟨net, reached, forward, back⟩ := twoDone_reachable
  refine ⟨net, reached, forward, channels_deliver reached ?_⟩
  intro s i n data receive send
  cases s with
  | false =>
    rw [forward] at receive send
    cases i with
    | zero =>
      cases receive
      cases send
      rfl
    | succ i => cases receive
  | true =>
    rw [back] at receive
    cases receive

end Net

end BatchDualEx
