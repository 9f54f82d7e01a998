import BatchDualEx.Network.BtIOService

/- The `i`-th receive is completed with the bytes of the `i`-th send. -/
namespace BatchDualEx

open Bytes Serial BtIOService

theorem loadU32_encodeU32 {l : Nat} (small : l < 2 ^ 32) : loadU32 (encodeU32 l) = l := by
  have value : loadU32 (encodeU32 l) = ofLittleEndian (encodeU32 l) := by
    simp only [loadU32, encodeU32, ofLittleEndian, List.range_succ, List.range_zero,
      List.nil_append,
      List.map_cons, List.map_nil, List.cons_append, List.getD_cons_zero, List.getD_cons_succ,
      List.foldr_cons, List.foldr_nil]
    omega
  rw [value, ofLittleEndian_encodeU32 small]

def SendOp.bytes : SendOp → List Byte
  | .SendData data => buffers data
  | .CloseSend => []

namespace Link

def Matching (l : Link) : Prop :=
  ∀ (i n : Nat) (data : List Byte), l.receiver.posted[i]? = some (.RecvData (some n)) →
    l.sender.posted[i]? = some (.SendData data) → n = data.length

def Sized (l : Link) : Reading → Prop
  | .header got => got.length ≤ 4
  | .data mSize got => got.length ≤ mSize ∧
      ∃ data, l.sender.started[l.results.length]? = some (.SendData data) ∧ data.length = mSize

structure Delivering (l : Link) : Prop where
  sender : Serving sendBegin l.sender
  receiver : Serving receiveBegin l.receiver
  accepted : ∀ data, .SendData data ∈ l.sender.posted → 0 < data.length ∧ data.length < 2 ^ 32
  sentBytes :
    l.written ++ l.sender.running.flatMap Prod.snd = l.sender.started.flatMap SendOp.bytes
  readBound : l.readCount ≤ l.written.length
  readBytes : l.written.take l.readCount =
    l.results.flatMap buffers ++ l.receiver.running.flatMap fun run => run.2.taken
  results : l.results.map SendOp.SendData <+: l.sender.started
  counted : l.results.length = l.receiver.completed.length
  sized : ∀ run ∈ l.receiver.running, l.Sized run.2

theorem delivering_start : Delivering start := by
  constructor <;> simp [start, Queue.empty]
  all_goals exact serving_empty

theorem results_bytes (results : List (List Byte)) :
    (results.map SendOp.SendData).flatMap SendOp.bytes = results.flatMap buffers := by
  rw [List.flatMap_map]
  rfl

/-- What has been taken for the next receive stands at the start of the next message. -/
theorem taken_prefix {l : Link} (d : Delivering l) {op : RecvOp} {r : Reading}
    (running : l.receiver.running = [(op, r)]) :
    r.taken <+: (l.sender.started.drop l.results.length).flatMap SendOp.bytes := by
  have read := d.readBytes
  rw [running, List.flatMap_singleton] at read
  obtain ⟨later, split⟩ := d.results
  have rest : l.sender.started.drop l.results.length = later := by
    rw [← split, List.drop_left' (List.length_map _)]
  have all : l.results.flatMap buffers ++ r.taken <+:
      l.results.flatMap buffers ++ later.flatMap SendOp.bytes := by
    rw [← read, ← results_bytes, ← List.flatMap_append, split, ← d.sentBytes]
    exact (List.take_prefix _ _).trans (List.prefix_append _ _)
  rw [rest]
  exact (List.prefix_append_right_inj _).mp all

theorem started_data {l : Link} (d : Delivering l) {k : Nat} {op : SendOp}
    (started : l.sender.started[k]? = some op) :
    ∃ data, op = .SendData data ∧ l.sender.posted[k]? = some (.SendData data) := by
  have listed := List.mem_of_getElem? started
  cases op with
  | SendData data => exact ⟨data, rfl, Lists.getElem?_of_prefix (started_posted d.sender) started⟩
  | CloseSend => exact absurd rfl (d.sender.began _ listed)

theorem header_next {l : Link} (d : Delivering l) {op : RecvOp} {got : List Byte}
    (running : l.receiver.running = [(op, .header got)]) (whole : got.length = 4) :
    ∃ data, l.sender.started[l.results.length]? = some (.SendData data) ∧
      got = encodeU32 data.length ∧ loadU32 got = data.length := by
  have starts := taken_prefix d running
  rcases next : l.sender.started.drop l.results.length with _ | ⟨send, later⟩
  · rw [next, List.flatMap_nil, List.prefix_nil] at starts
    rw [Reading.taken] at starts
    simp [starts] at whole
  · have entry : l.sender.started[l.results.length]? = some send := by
      rw [← List.head?_drop, next]
      rfl
    obtain ⟨data, isData, posted⟩ := started_data d entry
    subst isData
    have small := (d.accepted data (List.mem_of_getElem? posted)).2
    rw [next, List.flatMap_cons, SendOp.bytes, buffers, List.append_assoc] at starts
    have header : got = encodeU32 data.length :=
      (List.prefix_of_prefix_length_le starts (List.prefix_append _ _)
        (by simp [Reading.taken, whole])).eq_of_length (by simp [Reading.taken, whole])
    exact ⟨data, entry, header, by rw [header, loadU32_encodeU32 small]⟩

theorem data_next {l : Link} (d : Delivering l) {op : RecvOp} {mSize : Nat} {got : List Byte}
    (running : l.receiver.running = [(op, .data mSize got)]) (whole : got.length = mSize) :
    l.sender.started[l.results.length]? = some (.SendData got) := by
  obtain ⟨-, data, entry, length⟩ := d.sized (op, .data mSize got) (by simp [running])
  have starts := taken_prefix d running
  obtain ⟨inside, isNext⟩ := List.getElem?_eq_some_iff.mp entry
  rw [Reading.taken, List.drop_eq_getElem_cons inside, isNext, List.flatMap_cons, SendOp.bytes,
    buffers, ← length, List.append_assoc] at starts
  have ahead := (List.prefix_append_right_inj _).mp starts
  have same : got = data := (List.prefix_of_prefix_length_le ahead (List.prefix_append _ _)
    (by omega)).eq_of_length (by omega)
  rw [same, entry]

theorem delivering_sender {l : Link} (d : Delivering l) {q : SendQueue}
    (serving : Serving sendBegin q) (starts : Starts sendBegin l.sender q) :
    Delivering { l with sender := q } := by
  obtain ⟨posted, -, started⟩ := starts
  have longer : l.sender.started <+: q.started := by
    rcases started with ⟨same, -⟩ | ⟨op, _, -, one, -⟩
    · exact same ▸ List.prefix_rfl
    · exact one ▸ List.prefix_append _ _
  constructor
  · exact serving
  · exact d.receiver
  · rw [posted]
    exact d.accepted
  · have sent := d.sentBytes
    rcases started with ⟨same, running⟩ | ⟨op, r, first, one, running⟩
    · rw [same, running]
      exact sent
    · have bytes : r = op.bytes := by
        cases op with
        | SendData data => exact (Option.some.inj first).symm
        | CloseSend => cases first
      rw [one, running, List.flatMap_append, List.flatMap_append, ← List.append_assoc, sent, bytes]
      simp
  · exact d.readBound
  · exact d.readBytes
  · exact d.results.trans longer
  · exact d.counted
  · intro run listed
    have sized := d.sized run listed
    cases isRun : run.2 with
    | header got =>
      rw [isRun] at sized
      exact sized
    | data mSize got =>
      rw [isRun] at sized
      obtain ⟨short, data, entry, length⟩ := sized
      exact ⟨short, data, Lists.getElem?_of_prefix longer entry, length⟩

theorem delivering_receiver {l : Link} (d : Delivering l) {q : RecvQueue}
    (serving : Serving receiveBegin q) (starts : Starts receiveBegin l.receiver q) :
    Delivering { l with receiver := q } := by
  obtain ⟨-, completed, started⟩ := starts
  have fresh {op : RecvOp} {r : Reading} (first : receiveBegin op = some r) : r = .header [] := by
    cases op with
    | RecvData size => exact (Option.some.inj first).symm
    | CloseRecv => cases first
  constructor
  · exact d.sender
  · exact serving
  · exact d.accepted
  · exact d.sentBytes
  · exact d.readBound
  · rcases started with ⟨-, running⟩ | ⟨op, r, first, -, running⟩
    · dsimp only
      rw [running]
      exact d.readBytes
    · dsimp only
      rw [running, List.flatMap_append, fresh first]
      simpa [Reading.taken] using d.readBytes
  · exact d.results
  · rw [completed]
    exact d.counted
  · intro run listed
    rcases started with ⟨-, running⟩ | ⟨op, r, first, -, running⟩
    · rw [running] at listed
      exact d.sized run listed
    · rw [running] at listed
      rcases List.mem_append.mp listed with old | new
      · exact d.sized run old
      · rw [List.mem_singleton.mp new, fresh first]
        exact Nat.zero_le 4

theorem delivering_write {l : Link} (d : Delivering l) {i : Nat} {op : SendOp} {left : List Byte}
    (started : l.sender.running[i]? = some (op, left)) (n : Nat) :
    Delivering { l with
      sender := l.sender.advance i (left.drop n)
      written := l.written ++ left.take n } := by
  have running := (running_zero d.sender started).2.1
  have sent := d.sentBytes
  constructor
  · exact serving_advance d.sender started _
  · exact d.receiver
  · exact d.accepted
  · rw [running, List.flatMap_singleton] at sent
    dsimp only
    rw [running_advance d.sender started, List.flatMap_singleton, List.append_assoc,
      List.take_append_drop]
    exact sent
  · simp only [List.length_append]
    have bound := d.readBound
    omega
  · rw [List.take_append_of_le_length d.readBound]
    exact d.readBytes
  · exact d.results
  · exact d.counted
  · exact d.sized

theorem delivering_wrote {l : Link} (d : Delivering l) {i : Nat} {op : SendOp}
    (started : l.sender.running[i]? = some (op, [])) :
    Delivering { l with sender := l.sender.complete i } := by
  have running := (running_zero d.sender started).2.1
  have sent := d.sentBytes
  constructor
  · exact serving_complete d.sender started
  · exact d.receiver
  · exact d.accepted
  · rw [running, List.flatMap_singleton] at sent
    dsimp only
    rw [running_complete d.sender started]
    exact sent
  · exact d.readBound
  · exact d.readBytes
  · exact d.results
  · exact d.counted
  · exact d.sized

theorem taken_add (r : Reading) (bytes : List Byte) : (r.add bytes).taken = r.taken ++ bytes := by
  cases r with
  | header got => rfl
  | data mSize got => simp [Reading.add, Reading.taken]

theorem delivering_read {l : Link} (d : Delivering l) {i : Nat} {op : RecvOp} {r : Reading}
    {n : Nat}
    (started : l.receiver.running[i]? = some (op, r)) (some : 0 < n) (fits : n ≤ r.missing)
    (arrived : l.readCount + n ≤ l.written.length) :
    Delivering { l with
      receiver := l.receiver.advance i (r.add ((l.written.drop l.readCount).take n))
      readCount := l.readCount + n } := by
  have running := (running_zero d.receiver started).2.1
  have read := d.readBytes
  have length : ((l.written.drop l.readCount).take n).length = n := by
    rw [List.length_take, List.length_drop]
    omega
  constructor
  · exact d.sender
  · exact serving_advance d.receiver started _
  · exact d.accepted
  · exact d.sentBytes
  · exact arrived
  · rw [running, List.flatMap_singleton] at read
    rw [List.take_add, read]
    dsimp only
    rw [running_advance d.receiver started, List.flatMap_singleton, taken_add, List.append_assoc]
  · exact d.results
  · exact d.counted
  · have sized := d.sized (op, r) (by simp [running])
    intro run listed
    rw [running_advance d.receiver started] at listed
    rw [List.mem_singleton.mp listed]
    cases r with
    | header got =>
      simp only [Reading.missing] at fits
      simp only [Reading.add, Sized, List.length_append, length]
      omega
    | data mSize got =>
      simp only [Reading.missing] at fits
      obtain ⟨short, next⟩ := sized
      refine ⟨?_, next⟩
      rw [List.length_append, length]
      omega

/-- The buffer of a receive fits its message. -/
theorem header_fits {l : Link} (d : Delivering l) (matching : l.Matching) {i : Nat}
    {size : Option Nat} {got : List Byte}
    (started : l.receiver.running[i]? = some (.RecvData size, .header got))
    (whole : got.length = 4) : size = none ∨ size = some (loadU32 got) := by
  obtain ⟨data, next, -, isSize⟩ := header_next d (running_zero d.receiver started).2.1 whole
  have receive := running_next d.receiver started
  cases size with
  | none => exact .inl rfl
  | some n =>
    rw [← d.counted] at receive
    have posted := Lists.getElem?_of_prefix (started_posted d.sender) next
    exact .inr (by rw [matching _ _ _ receive posted, isSize])

theorem delivering_header {l : Link} (d : Delivering l) (matching : l.Matching) {i : Nat}
    {size : Option Nat} {got : List Byte}
    (started : l.receiver.running[i]? = some (.RecvData size, .header got))
    (whole : got.length = 4) : Delivering (l.header i size (loadU32 got)) := by
  have running := (running_zero d.receiver started).2.1
  obtain ⟨data, next, isGot, isSize⟩ := header_next d running whole
  have read := d.readBytes
  have fits := header_fits d matching started whole
  rw [Link.header, if_pos fits]
  constructor
  · exact d.sender
  · exact serving_advance d.receiver started _
  · exact d.accepted
  · exact d.sentBytes
  · exact d.readBound
  · rw [running, List.flatMap_singleton] at read
    dsimp only
    rw [running_advance d.receiver started, List.flatMap_singleton, Reading.taken, isSize, ← isGot,
      List.append_nil]
    exact read
  · exact d.results
  · exact d.counted
  · intro run listed
    rw [running_advance d.receiver started] at listed
    rw [List.mem_singleton.mp listed]
    exact ⟨Nat.zero_le _, data, next, isSize.symm⟩

theorem delivering_received {l : Link} (d : Delivering l) {i : Nat} {op : RecvOp} {mSize : Nat}
    {got : List Byte} (started : l.receiver.running[i]? = some (op, .data mSize got))
    (whole : got.length = mSize) :
    Delivering { l with receiver := l.receiver.complete i, results := l.results ++ [got] } := by
  have running := (running_zero d.receiver started).2.1
  have next := data_next d running whole
  have read := d.readBytes
  constructor
  · exact d.sender
  · exact serving_complete d.receiver started
  · exact d.accepted
  · exact d.sentBytes
  · exact d.readBound
  · rw [running, List.flatMap_singleton] at read
    dsimp only
    rw [running_complete d.receiver started, read]
    simp [buffers, Reading.taken, whole]
  · obtain ⟨later, split⟩ := d.results
    rw [← split, List.getElem?_append_right (by simp), List.length_map, Nat.sub_self] at next
    cases later with
    | nil => cases next
    | cons send later =>
      rw [Option.some.inj next] at split
      exact ⟨later, by simpa using split⟩
  · simp [d.counted, Queue.complete, started]
  · intro run listed
    rw [running_complete d.receiver started] at listed
    cases listed

theorem delivering_step {l l' : Link} (matching : l.Matching) (step : Step l l')
    (d : Delivering l) : Delivering l' := by
  cases step with
  | sendPost some =>
    exact delivering_sender d (serving_runPost d.sender) (starts_runPost _ _)
  | sendPop asked =>
    exact delivering_sender d (serving_runPop d.sender asked) (starts_runPop _ _)
  | write i op left n started some fits => exact delivering_write d started n
  | wrote i op started => exact delivering_wrote d started
  | recvPost some =>
    exact delivering_receiver d (serving_runPost d.receiver) (starts_runPost _ _)
  | recvPop asked =>
    exact delivering_receiver d (serving_runPop d.receiver asked) (starts_runPop _ _)
  | read i op r n started some fits arrived => exact delivering_read d started some fits arrived
  | header i size got started whole => exact delivering_header d matching started whole
  | received i op mSize got started whole => exact delivering_received d started whole

end Link

end BatchDualEx
