import Mathlib.Logic.Relation
import BatchDualEx.Network.DeliveryRun

/- A message of another size than the posted receive expects. The handler of its header sets the
   exception of the promise and returns: the receive stays at the front of `mRecvQueue`, which
   nothing serves any more. -/
namespace BatchDualEx

open Bytes Serial BtIOService

namespace Link

/-- The receives are served, or the one at the front has been given up. -/
def Receiving (l : Link) : Prop :=
  Serving receiveBegin l.receiver ∨ ∃ op, Blocked op l.receiver

/-- In `l'` nothing has been read, completed, removed or closed since `l`. -/
structure Halted (op : RecvOp) (l l' : Link) : Prop where
  blocked : Blocked op l'.receiver
  readCount : l'.readCount = l.readCount
  results : l'.results = l.results
  started : l'.receiver.started = l.receiver.started
  completed : l'.receiver.completed = l.receiver.completed
  popped : l'.receiver.popped = l.receiver.popped
  closed : l'.receiver.closed = []

theorem receiving_postRecv {l : Link} (receiving : l.Receiving) {op : RecvOp}
    (opened : ∀ op ∈ l.receiver.posted, receiveBegin op ≠ none) : (l.postRecv op).Receiving := by
  rcases receiving with serving | ⟨front, blocked⟩
  · exact .inl (serving_post serving opened)
  · exact .inr ⟨front, blocked_post blocked op⟩

theorem receiving_step {l l' : Link} (receiving : l.Receiving) (step : l.Step l') :
    l'.Receiving := by
  cases step with
  | sendPost | sendPop | write | wrote => exact receiving
  | recvPost =>
    rcases receiving with serving | ⟨front, blocked⟩
    · exact .inl (serving_runPost serving)
    · obtain ⟨posts, queue, same, stays⟩ := runPost_blocked receiveBegin blocked
      right
      use front
      rw [receiveOne, same]
      exact ⟨stays, blocked.running, blocked.pops⟩
  | recvPop asked =>
    rcases receiving with serving | ⟨front, blocked⟩
    · exact .inl (serving_runPop serving asked)
    · rw [blocked.pops] at asked
      cases asked
  | read i op r n started =>
    rcases receiving with serving | ⟨front, blocked⟩
    · exact .inl (serving_advance serving started _)
    · rw [blocked.running] at started
      cases started
  | header i size got started =>
    rcases receiving with serving | ⟨front, blocked⟩
    · unfold header
      split
      · exact .inl (serving_advance serving started _)
      · exact .inr ⟨_, (blocked_abandon serving started).1⟩
    · rw [blocked.running] at started
      cases started
  | received i op mSize got started =>
    rcases receiving with serving | ⟨front, blocked⟩
    · exact .inl (serving_complete serving started)
    · rw [blocked.running] at started
      cases started

theorem halted_step {op : RecvOp} {l₀ l l' : Link} (halted : Halted op l₀ l) (step : l.Step l') :
    Halted op l₀ l' := by
  have blocked := halted.blocked
  cases step with
  | sendPost | sendPop | write | wrote =>
    exact ⟨blocked, halted.readCount, halted.results, halted.started, halted.completed,
      halted.popped, halted.closed⟩
  | recvPost =>
    obtain ⟨posts, queue, same, stays⟩ := runPost_blocked receiveBegin blocked
    rw [receiveOne, same]
    exact ⟨⟨stays, blocked.running, blocked.pops⟩, halted.readCount, halted.results,
      halted.started, halted.completed, halted.popped, halted.closed⟩
  | recvPop asked =>
    rw [blocked.pops] at asked
    cases asked
  | read _ _ _ _ started | header _ _ _ started | received _ _ _ _ started =>
    rw [blocked.running] at started
    cases started

theorem halted_header {l : Link} (receiving : l.Receiving) {i n mSize : Nat} {got : List Byte}
    (started : l.receiver.running[i]? = some (.RecvData (some n), .header got))
    (differs : mSize ≠ n) :
    Halted (.RecvData (some n)) l (l.header i (some n) mSize) := by
  rcases receiving with serving | ⟨front, blocked⟩
  · obtain ⟨blocked, closed⟩ := blocked_abandon serving started
    have refused : ¬(some n = none ∨ some n = some mSize) := by
      simp only [reduceCtorEq, Option.some.injEq, false_or]
      exact differs.symm
    rw [header, if_neg refused]
    exact ⟨blocked, rfl, rfl, rfl, rfl, rfl, closed⟩
  · rw [blocked.running] at started
    cases started

end Link

namespace Net

/-- A step of the service or of the users of its channels. A `BitVector` of no bits is posted with
    the size zero, which `dispatch` refuses for other buffers only. -/
inductive Uses (net : Net) : Net → Prop
  | step (net' : Net) (step : Step net net') : Uses net net'
  | asyncRecvEmpty (s : Bool) (opened : net.closing s = .opened) :
      Uses net (net.setLink (!s) ((net.link (!s)).postRecv (.RecvData (some 0))))

structure Orderly (net : Net) : Prop where
  receiving : ∀ s, (net.link s).Receiving
  receives : ∀ s, net.closing s = .opened →
    ∀ op ∈ (net.link (!s)).receiver.posted, receiveBegin op ≠ none

theorem orderly_start : Orderly start where
  receiving _ := .inl serving_empty
  receives _ _ _ listed := absurd listed List.not_mem_nil

theorem orderly_postRecv {net : Net} (orderly : Orderly net) {s : Bool}
    (opened : net.closing s = .opened) (size : Option Nat) :
    Orderly (net.setLink (!s) ((net.link (!s)).postRecv (.RecvData size))) := by
  have open_s := orderly.receives s opened
  constructor
  · intro t
    rw [setLink_link]
    split
    · exact Link.receiving_postRecv (orderly.receiving (!s)) open_s
    · exact orderly.receiving t
  · intro t isOpen op listed
    rw [setLink_link] at listed
    split at listed
    · rcases List.mem_append.mp listed with old | new
      · exact open_s op old
      · rw [List.mem_singleton.mp new]
        exact Option.some_ne_none _
    · exact orderly.receives t isOpen op listed

theorem orderly_sender {net : Net} (orderly : Orderly net) (s : Bool) (op : SendOp) :
    Orderly (net.setLink s ((net.link s).postSend op)) := by
  constructor
  · intro t
    rw [setLink_link]
    split
    · exact orderly.receiving s
    · exact orderly.receiving t
  · intro t isOpen op listed
    rw [setLink_link] at listed
    split at listed
    · rename_i same
      exact orderly.receives t isOpen op (same ▸ listed)
    · exact orderly.receives t isOpen op listed

theorem orderly_step {net net' : Net} (orderly : Orderly net) (step : Step net net') :
    Orderly net' := by
  cases step with
  | internal _ moved =>
    have posted := internal_posted moved
    cases moved with
    | link s l moved =>
      constructor
      · intro t
        rw [setLink_link]
        split
        · exact Link.receiving_step (orderly.receiving s) moved
        · exact orderly.receiving t
      · intro t isOpen
        rw [(posted (!t)).2]
        exact orderly.receives t isOpen
  | asyncSend s data => exact orderly_sender orderly s _
  | asyncRecv s size opened => exact orderly_postRecv orderly opened size
  | closeRecv s opened =>
    have open_s := orderly.receives s opened
    constructor
    · intro t
      rw [setClosing_link, setLink_link]
      split
      · exact Link.receiving_postRecv (orderly.receiving (!s)) open_s
      · exact orderly.receiving t
    · intro t isOpen op listed
      rw [setClosing_closing, setLink_closing] at isOpen
      rw [setClosing_link, setLink_link] at listed
      split at isOpen
      · cases isOpen
      · rename_i other
        rw [if_neg (by simpa using other)] at listed
        exact orderly.receives t isOpen op listed
  | closeSend s closing =>
    have sent := orderly_sender orderly s .CloseSend
    constructor
    · exact sent.receiving
    · intro t isOpen
      rw [setClosing_closing, setLink_closing] at isOpen
      split at isOpen
      · cases isOpen
      · exact sent.receives t isOpen

theorem orderly_uses {net net' : Net} (orderly : Orderly net) (uses : Uses net net') :
    Orderly net' := by
  cases uses with
  | step _ step => exact orderly_step orderly step
  | asyncRecvEmpty s opened => exact orderly_postRecv orderly opened (some 0)

theorem orderly_reached {net : Net} (reached : Relation.ReflTransGen Uses start net) :
    Orderly net := by
  induction reached with
  | refl => exact orderly_start
  | tail _ uses ih => exact orderly_uses ih uses

theorem halted_setLink {op : RecvOp} {l : Link} {net : Net} {s t : Bool} {moved : Link}
    (halted : l.Halted op (net.link s)) (step : t = s → l.Halted op moved) :
    l.Halted op ((net.setLink t moved).link s) := by
  rw [setLink_link]
  split
  · rename_i same
    exact step same.symm
  · exact halted

theorem halted_uses {op : RecvOp} {l : Link} {net net' : Net} {s : Bool}
    (halted : l.Halted op (net.link s)) (uses : Uses net net') : l.Halted op (net'.link s) := by
  have posted (next : RecvOp) : l.Halted op ((net.link s).postRecv next) :=
    ⟨blocked_post halted.blocked next, halted.readCount, halted.results, halted.started,
      halted.completed, halted.popped, halted.closed⟩
  have sent (next : SendOp) : l.Halted op ((net.link s).postSend next) :=
    ⟨halted.blocked, halted.readCount, halted.results, halted.started, halted.completed,
      halted.popped, halted.closed⟩
  cases uses with
  | step _ step =>
    cases step with
    | internal _ moved =>
      cases moved with
      | link t l' moved =>
        apply halted_setLink halted
        intro same
        exact Link.halted_step halted (same ▸ moved)
    | asyncSend t data => exact halted_setLink halted fun same => same ▸ sent _
    | asyncRecv t size => exact halted_setLink halted fun same => same ▸ posted _
    | closeRecv t => exact halted_setLink halted fun same => same ▸ posted _
    | closeSend t => exact halted_setLink halted fun same => same ▸ sent _
  | asyncRecvEmpty t => exact halted_setLink halted fun same => same ▸ posted _

theorem halted_later {op : RecvOp} {l : Link} {net net' : Net} {s : Bool}
    (halted : l.Halted op (net.link s)) (later : Relation.ReflTransGen Uses net net') :
    l.Halted op (net'.link s) := by
  induction later with
  | refl => exact halted
  | tail _ uses ih => exact halted_uses ih uses

/-- The receive is removed and the payload of its message is read. -/
def Recovers (s : Bool) (mSize : Nat) (net net' : Net) : Prop :=
  (net.link s).receiver.popped.length < (net'.link s).receiver.popped.length ∧
    (net.link s).readCount + mSize ≤ (net'.link s).readCount

/-- In no run is anything received, completed or closed after a message whose size is refused, and
    nothing of its payload is read. -/
theorem receiveOne_refused {net : Net} (reached : Relation.ReflTransGen Uses start net)
    {s : Bool} {i n : Nat} {got : List Byte}
    (started : (net.link s).receiver.running[i]? = some (.RecvData (some n), .header got))
    (whole : got.length = 4) (differs : loadU32 got ≠ n) :
    Uses net (net.setLink s ((net.link s).header i (some n) (loadU32 got))) ∧
      ∀ net', Relation.ReflTransGen Uses
          (net.setLink s ((net.link s).header i (some n) (loadU32 got))) net' →
        (net.link s).Halted (.RecvData (some n)) (net'.link s) ∧
          ¬ Recovers s (loadU32 got) net net' := by
  constructor
  · exact .step _ (.internal _ _ (.link net s _ (.header _ i (some n) got started whole)))
  · intro net' later
    have now := Link.halted_header ((orderly_reached reached).receiving s) started differs
    have halted := halted_later (by rwa [setLink_link, if_pos rfl]) later
    refine ⟨halted, fun recovers => ?_⟩
    rw [Recovers, halted.popped] at recovers
    exact absurd recovers.1 (Nat.lt_irrefl _)

theorem reached_uses {net : Net} (reached : Reachable net) :
    Relation.ReflTransGen Uses start net := by
  induction reached with
  | start => exact .refl
  | step _ _ _ step ih => exact ih.tail (.step _ step)

/-- A send of two bytes, and two receives: one of three bytes and one of any message. -/
def threePosted : Link where
  sender := ⟨[.SendData [7, 9]], [], [], 0, [.SendData [7, 9]], [], [], [], []⟩
  written := []
  readCount := 0
  receiver := ⟨[.RecvData (some 3), .RecvData none], [], [], 0,
    [.RecvData (some 3), .RecvData none], [], [], [], []⟩
  results := []

def threeQueued : Link :=
  { threePosted with
    sender := ⟨[], [.SendData [7, 9]], [(.SendData [7, 9], [2, 0, 0, 0, 7, 9])], 0,
      [.SendData [7, 9]], [.SendData [7, 9]], [], [], []⟩ }

def threeWritten : Link :=
  { threeQueued with
    sender := threeQueued.sender.advance 0 []
    written := [2, 0, 0, 0, 7, 9] }

def threeHeader : Link :=
  { threeWritten with
    readCount := 4
    receiver := ⟨[.RecvData none], [.RecvData (some 3)],
      [(.RecvData (some 3), .header [2, 0, 0, 0])], 0, [.RecvData (some 3), .RecvData none],
      [.RecvData (some 3)], [], [], []⟩ }

theorem threeHeader_reachable : ∃ net, Reachable net ∧ net.link false = threeHeader ∧
    net.link true = Link.start := by
  have sent := Reachable.step _ _ .start (.asyncSend start false [7, 9] rfl rfl)
  have three := Reachable.step _ _ sent (.asyncRecv _ true (some 3) rfl (by decide))
  have any := Reachable.step _ _ three (.asyncRecv _ true none rfl (by decide))
  obtain ⟨net, posted⟩ : ∃ net, Reachable net ∧ net.link false = threePosted ∧
      net.link (!false) = Link.start := ⟨_, any, rfl, rfl⟩
  obtain ⟨net, queued⟩ := reachable_link posted (.sendPost threePosted (by decide))
  obtain ⟨net, written⟩ := reachable_link queued
    (.write threeQueued 0 (.SendData [7, 9]) [2, 0, 0, 0, 7, 9] 6 rfl (by decide) (by decide))
  obtain ⟨net, started⟩ := reachable_link written (.recvPost threeWritten (by decide))
  exact reachable_link started
    (.read { threeHeader with
        readCount := 0
        receiver := threeHeader.receiver.advance 0 (.header []) }
      0 (.RecvData (some 3)) (.header []) 4 rfl (by decide) (by decide) (by decide))

theorem receiveOne_refused_three : ∃ net, net.link false = threeHeader ∧
    Uses net (net.setLink false ((net.link false).header 0 (some 3) 2)) ∧
      ∀ net', Relation.ReflTransGen Uses
          (net.setLink false ((net.link false).header 0 (some 3) 2)) net' →
        (net.link false).Halted (.RecvData (some 3)) (net'.link false) ∧
          ¬ Recovers false 2 net net' := by
  obtain ⟨net, reached, here, -⟩ := threeHeader_reachable
  have started : (net.link false).receiver.running[0]? =
      some (.RecvData (some 3), .header [2, 0, 0, 0]) := by
    rw [here]
    rfl
  exact ⟨net, here, receiveOne_refused (reached_uses reached) started rfl (by decide)⟩

/-- Two bytes are sent to a receive of three: no run removes it and reads the bytes. -/
theorem receiveOne_not_recovers : ¬ ∀ net, Relation.ReflTransGen Uses start net →
    ∀ (s : Bool) (i n : Nat) (got : List Byte),
      (net.link s).receiver.running[i]? = some (.RecvData (some n), .header got) →
      got.length = 4 → loadU32 got ≠ n →
      ∃ net', Relation.ReflTransGen Uses
        (net.setLink s ((net.link s).header i (some n) (loadU32 got))) net' ∧
          Recovers s (loadU32 got) net net' := by
  intro recovers
  obtain ⟨net, reached, here, -⟩ := threeHeader_reachable
  have started : (net.link false).receiver.running[0]? =
      some (.RecvData (some 3), .header [2, 0, 0, 0]) := by
    rw [here]
    rfl
  have orderly := orderly_reached (reached_uses reached)
  have differs : loadU32 [2, 0, 0, 0] ≠ 3 := by decide
  have now := Link.halted_header (orderly.receiving false) started differs
  obtain ⟨net', later, popped, -⟩ :=
    recovers net (reached_uses reached) false 0 3 [2, 0, 0, 0] started rfl differs
  have halted := halted_later (by rwa [setLink_link, if_pos rfl]) later
  rw [halted.popped] at popped
  exact absurd popped (Nat.lt_irrefl _)

end Net

end BatchDualEx
