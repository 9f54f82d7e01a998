import Mathlib.Data.List.Basic

/- Operations served one at a time. An operation is handed to a strand, which appends it to the
   queue and starts it if it is alone there. The completion of an operation asks the strand to
   remove it and to start the one after it. Some operations are done as soon as they are started:
   they close the queue. -/
namespace Serial

variable {Op Run : Type}

/-- `running` are the started operations with their progress, `pops` the removals that the strand
    has been asked for. The last five are histories. -/
structure Queue (Op Run : Type) where
  posts : List Op
  queue : List Op
  running : List (Op × Run)
  pops : Nat
  posted : List Op
  started : List Op
  completed : List Op
  popped : List Op
  closed : List Op

namespace Queue

def empty : Queue Op Run := ⟨[], [], [], 0, [], [], [], [], []⟩

def post (q : Queue Op Run) (op : Op) : Queue Op Run :=
  { q with posts := q.posts ++ [op], posted := q.posted ++ [op] }

/-- The operation at the front, with the progress that `begin` gives it, or none if it closes. -/
def startOne (begin : Op → Option Run) (q : Queue Op Run) : Queue Op Run :=
  match q.queue with
  | [] => q
  | op :: rest =>
    match begin op with
    | some r => { q with running := q.running ++ [(op, r)], started := q.started ++ [op] }
    | none => { q with queue := rest, popped := q.popped ++ [op], closed := q.closed ++ [op] }

def runPost (start : Queue Op Run → Queue Op Run) (q : Queue Op Run) : Queue Op Run :=
  match q.posts with
  | [] => q
  | op :: posts =>
    let q := { q with posts := posts, queue := q.queue ++ [op] }
    if q.queue.length = 1 then start q else q

def runPop (start : Queue Op Run → Queue Op Run) (q : Queue Op Run) : Queue Op Run :=
  match q.queue with
  | [] => q
  | op :: rest =>
    let q := { q with pops := q.pops - 1, queue := rest, popped := q.popped ++ [op] }
    if q.queue.length ≠ 0 then start q else q

def advance (q : Queue Op Run) (i : Nat) (r : Run) : Queue Op Run :=
  { q with running := q.running.modify i fun run => (run.1, r) }

def complete (q : Queue Op Run) (i : Nat) : Queue Op Run :=
  { q with
    running := q.running.eraseIdx i
    completed := q.completed ++ (q.running[i]?.map Prod.fst).toList
    pops := q.pops + 1 }

def abandon (q : Queue Op Run) (i : Nat) : Queue Op Run :=
  { q with running := q.running.eraseIdx i }

end Queue

open Queue

def Idle (q : Queue Op Run) : Prop :=
  q.queue = [] ∧ q.running = [] ∧ q.pops = 0 ∧ q.started = q.completed ∧
    q.popped = q.completed ++ q.closed

def Busy (q : Queue Op Run) : Prop :=
  ∃ op rest r, q.queue = op :: rest ∧ q.running = [(op, r)] ∧ q.pops = 0 ∧
    q.started = q.popped ++ [op] ∧ q.completed = q.popped ∧ q.closed = []

/-- The front of the queue is completed and the strand is going to remove it. -/
def Finished (q : Queue Op Run) : Prop :=
  ∃ op rest, q.queue = op :: rest ∧ q.running = [] ∧ q.pops = 1 ∧
    q.started = q.popped ++ [op] ∧ q.completed = q.popped ++ [op] ∧ q.closed = []

/-- What holds in every state of a queue to which nothing is posted after a closing operation. -/
structure Serving (begin : Op → Option Run) (q : Queue Op Run) : Prop where
  account : q.posted = q.popped ++ q.queue ++ q.posts
  last : ∀ before op after, q.posted = before ++ op :: after → begin op = none → after = []
  began : ∀ op ∈ q.started, begin op ≠ none
  closes : ∀ op ∈ q.closed, begin op = none
  phase : Idle q ∨ Busy q ∨ Finished q

variable {begin : Op → Option Run} {q : Queue Op Run}

theorem serving_empty : Serving begin (empty : Queue Op Run) := by
  constructor <;> simp [empty, Idle]

theorem serving_post (serving : Serving begin q) {op : Op}
    (opened : ∀ op ∈ q.posted, begin op ≠ none) : Serving begin (q.post op) where
  account := by simp [post, serving.account]
  last := by
    intro before closing after split closes
    rcases List.eq_nil_or_concat after with none | ⟨init, x, some⟩
    · exact none
    · rw [some, List.concat_eq_append, ← List.cons_append, ← List.append_assoc] at split
      have earlier := (List.append_inj' split rfl).1
      exact absurd closes (opened closing (by simp [earlier]))
  began := serving.began
  closes := serving.closes
  phase := serving.phase

theorem serving_startOne {op : Op} {rest : List Op}
    (account : q.posted = q.popped ++ q.queue ++ q.posts)
    (last : ∀ before op after, q.posted = before ++ op :: after → begin op = none → after = [])
    (began : ∀ op ∈ q.started, begin op ≠ none) (queue : q.queue = op :: rest)
    (running : q.running = []) (pops : q.pops = 0) (started : q.started = q.popped)
    (completed : q.completed = q.popped) (closed : q.closed = []) :
    Serving begin (startOne begin q) := by
  cases first : begin op with
  | none =>
    rw [queue] at account
    have none := last q.popped op (rest ++ q.posts) (by simp [account]) first
    obtain ⟨noRest, noPosts⟩ := List.append_eq_nil_iff.mp none
    constructor
    · simp [startOne, queue, first, account]
    · simpa [startOne, queue, first] using last
    · simpa [startOne, queue, first] using began
    · simp [startOne, queue, first, closed]
    · left
      simp [Idle, startOne, queue, first, noRest, running, pops, started, completed, closed]
  | some r =>
    constructor
    · simpa [startOne, queue, first] using account
    · simpa [startOne, queue, first] using last
    · intro earlier listed
      simp only [startOne, queue, first, List.mem_append, List.mem_singleton] at listed
      rcases listed with old | new
      · exact began earlier old
      · rw [new, first]
        exact Option.some_ne_none r
    · simp [startOne, queue, first, closed]
    · right; left
      exact ⟨op, rest, r, by simp [startOne, queue, first, running, pops, started, completed,
        closed]⟩

/-- A closed queue has no more posts, and everything before the closing operation is done. -/
theorem closed_last (serving : Serving begin q) {op : Op} (closed : op ∈ q.closed) :
    q.posts = [] ∧ q.queue = [] ∧ q.posted = q.completed ++ [op] := by
  have idle : Idle q := by
    rcases serving.phase with idle | ⟨_, _, _, _, _, _, _, _, none⟩ | ⟨_, _, _, _, _, _, _, none⟩
    · exact idle
    · rw [none] at closed
      cases closed
    · rw [none] at closed
      cases closed
  obtain ⟨queue, -, -, -, popped⟩ := idle
  have account := serving.account
  rw [queue, List.append_nil, popped] at account
  -- Whatever is posted after the first closing operation would make it not the last.
  rcases isClosed : q.closed with _ | ⟨first, others⟩
  · rw [isClosed] at closed
    cases closed
  · have closes := serving.closes first (by simp [isClosed])
    have none := serving.last q.completed first (others ++ q.posts)
      (by simp [account, isClosed]) closes
    obtain ⟨noOthers, noPosts⟩ := List.append_eq_nil_iff.mp none
    rw [isClosed, noOthers] at closed
    have same := List.mem_singleton.mp closed
    refine ⟨noPosts, queue, ?_⟩
    rw [account, isClosed, noOthers, noPosts, same, List.append_nil]

theorem serving_runPost (serving : Serving begin q) :
    Serving begin (q.runPost (startOne begin)) := by
  rcases isPosts : q.posts with _ | ⟨op, posts⟩
  · rw [runPost, isPosts]
    exact serving
  · have account : q.posted = q.popped ++ (q.queue ++ [op]) ++ posts := by
      simp [serving.account, isPosts]
    simp only [runPost, isPosts]
    rcases serving.phase with idle | ⟨front, rest, r, queue, busy⟩ | ⟨front, rest, queue, done⟩
    · obtain ⟨queue, running, pops, started, popped⟩ := idle
      have closed : q.closed = [] := by
        by_contra some
        obtain ⟨c, listed⟩ := List.exists_mem_of_ne_nil _ some
        rw [(closed_last serving listed).1] at isPosts
        cases isPosts
      rw [closed, List.append_nil] at popped
      rw [if_pos (by simp [queue])]
      apply serving_startOne
      · exact account
      · exact serving.last
      · exact serving.began
      · exact congrArg (· ++ [op]) queue
      · exact running
      · exact pops
      · rw [started, popped]
      · exact popped.symm
      · exact closed
    · rw [if_neg (by simp [queue])]
      refine ⟨account, serving.last, serving.began, serving.closes, .inr (.inl ?_)⟩
      exact ⟨front, rest ++ [op], r, by simp [queue], busy⟩
    · rw [if_neg (by simp [queue])]
      refine ⟨account, serving.last, serving.began, serving.closes, .inr (.inr ?_)⟩
      exact ⟨front, rest ++ [op], by simp [queue], done⟩

theorem serving_runPop (serving : Serving begin q) (asked : 0 < q.pops) :
    Serving begin (q.runPop (startOne begin)) := by
  rcases serving.phase with idle | busy | finished
  · obtain ⟨-, -, none, -⟩ := idle
    omega
  · obtain ⟨-, -, -, -, -, none, -⟩ := busy
    omega
  · obtain ⟨op, rest, queue, running, pops, started, completed, closed⟩ := finished
    have account : q.posted = (q.popped ++ [op]) ++ rest ++ q.posts := by
      simp [serving.account, queue]
    simp only [runPop, queue]
    cases rest with
    | nil =>
      rw [if_neg (by simp)]
      refine ⟨account, serving.last, serving.began, serving.closes, .inl ?_⟩
      simp [Idle, running, pops, started, completed, closed]
    | cons next rest =>
      rw [if_pos (by simp)]
      apply serving_startOne
      · exact account
      · exact serving.last
      · exact serving.began
      · rfl
      · exact running
      · simp [pops]
      · exact started
      · exact completed
      · exact closed

theorem running_zero (serving : Serving begin q) {i : Nat} {op : Op} {r : Run}
    (started : q.running[i]? = some (op, r)) :
    i = 0 ∧ q.running = [(op, r)] ∧ ∃ rest, q.queue = op :: rest ∧ q.pops = 0 ∧
      q.started = q.popped ++ [op] ∧ q.completed = q.popped ∧ q.closed = [] := by
  rcases serving.phase with ⟨-, none, -⟩ | busy | ⟨_, _, -, none, -⟩
  · simp [none] at started
  · obtain ⟨front, rest, r', queue, running, pops, logs⟩ := busy
    rw [running] at started ⊢
    cases i with
    | zero =>
      cases started
      exact ⟨rfl, rfl, rest, queue, pops, logs⟩
    | succ i => simp at started
  · simp [none] at started

theorem running_advance (serving : Serving begin q) {i : Nat} {op : Op} {r : Run}
    (started : q.running[i]? = some (op, r)) (r' : Run) :
    (q.advance i r').running = [(op, r')] := by
  obtain ⟨first, running, -⟩ := running_zero serving started
  simp [advance, running, first]

theorem running_complete (serving : Serving begin q) {i : Nat} {op : Op} {r : Run}
    (started : q.running[i]? = some (op, r)) : (q.complete i).running = [] := by
  obtain ⟨first, running, -⟩ := running_zero serving started
  simp [complete, running, first]

theorem serving_advance (serving : Serving begin q) {i : Nat} {op : Op} {r : Run}
    (started : q.running[i]? = some (op, r)) (r' : Run) : Serving begin (q.advance i r') := by
  obtain ⟨-, -, rest, queue, pops, logs⟩ := running_zero serving started
  refine ⟨serving.account, serving.last, serving.began, serving.closes, .inr (.inl ?_)⟩
  exact ⟨op, rest, r', queue, running_advance serving started r', pops, logs⟩

theorem serving_complete (serving : Serving begin q) {i : Nat} {op : Op} {r : Run}
    (started : q.running[i]? = some (op, r)) : Serving begin (q.complete i) := by
  obtain ⟨-, -, rest, queue, pops, isStarted, completed, closed⟩ := running_zero serving started
  refine ⟨serving.account, serving.last, serving.began, serving.closes, .inr (.inr ?_)⟩
  exact ⟨op, rest, queue, running_complete serving started, by simp [complete, pops], isStarted,
    by simp [complete, started, completed], closed⟩

theorem running_le_one (serving : Serving begin q) : q.running.length ≤ 1 := by
  rcases serving.phase with ⟨-, none, -⟩ | ⟨_, _, _, -, one, -⟩ | ⟨_, _, -, none, -⟩
  · simp [none]
  · simp [one]
  · simp [none]

theorem running_front (serving : Serving begin q) {run : Op × Run} (started : run ∈ q.running) :
    q.queue.head? = some run.1 := by
  obtain ⟨i, inside, at_i⟩ := List.getElem_of_mem started
  have entry := List.getElem?_eq_some_iff.mpr ⟨inside, at_i⟩
  obtain ⟨-, -, rest, queue, -⟩ := running_zero serving entry
  rw [queue]
  rfl

theorem running_next (serving : Serving begin q) {i : Nat} {op : Op} {r : Run}
    (started : q.running[i]? = some (op, r)) : q.posted[q.completed.length]? = some op := by
  obtain ⟨-, -, rest, queue, -, -, completed, -⟩ := running_zero serving started
  rw [serving.account, completed, queue]
  simp

/-- The front was given up without a completion. It stays, and the strand has nothing to do. -/
structure Blocked (op : Op) (q : Queue Op Run) : Prop where
  front : q.queue.head? = some op
  running : q.running = []
  pops : q.pops = 0

theorem blocked_abandon (serving : Serving begin q) {i : Nat} {op : Op} {r : Run}
    (started : q.running[i]? = some (op, r)) : Blocked op (q.abandon i) ∧ q.closed = [] := by
  obtain ⟨first, running, rest, queue, pops, -, -, closed⟩ := running_zero serving started
  constructor
  · constructor
    · simp [abandon, queue]
    · simp [abandon, running, first]
    · exact pops
  · exact closed

theorem blocked_post {op : Op} (blocked : Blocked op q) (next : Op) : Blocked op (q.post next) :=
  ⟨blocked.front, blocked.running, blocked.pops⟩

theorem runPost_blocked (begin : Op → Option Run) {op : Op} (blocked : Blocked op q) :
    ∃ posts queue, q.runPost (startOne begin) = { q with posts := posts, queue := queue } ∧
      queue.head? = some op := by
  have front := blocked.front
  rcases isQueue : q.queue with _ | ⟨first, rest⟩
  · rw [isQueue] at front
    cases front
  · rw [isQueue] at front
    rcases isPosts : q.posts with _ | ⟨next, posts⟩
    · have same : q = { q with posts := [], queue := first :: rest } := by
        rw [← isPosts, ← isQueue]
      refine ⟨[], first :: rest, ?_, front⟩
      rw [runPost, isPosts]
      exact same
    · refine ⟨posts, first :: (rest ++ [next]), ?_, front⟩
      simp [runPost, isPosts, isQueue]

theorem completed_started (serving : Serving begin q) : q.completed <+: q.started := by
  rcases serving.phase with idle | busy | finished
  · obtain ⟨-, -, -, same, -⟩ := idle
    exact same ▸ List.prefix_rfl
  · obtain ⟨op, _, _, -, -, -, started, completed, -⟩ := busy
    rw [started, completed]
    exact List.prefix_append _ _
  · obtain ⟨_, _, -, -, -, started, completed, -⟩ := finished
    exact (completed.trans started.symm) ▸ List.prefix_rfl

/-- Operations are started in the order in which they are posted, each once. -/
theorem started_posted (serving : Serving begin q) : q.started <+: q.posted := by
  rw [serving.account, List.append_assoc]
  rcases serving.phase with idle | busy | finished
  · obtain ⟨-, -, -, same, popped⟩ := idle
    rw [same, popped, List.append_assoc]
    exact List.prefix_append _ _
  · obtain ⟨op, rest, _, queue, -, -, started, -⟩ := busy
    exact ⟨rest ++ q.posts, by simp [started, queue]⟩
  · obtain ⟨op, rest, queue, -, -, started, -⟩ := finished
    exact ⟨rest ++ q.posts, by simp [started, queue]⟩

/-- What users of the queue rely on: one operation at a time, in order, none lost, none twice, and a
    closing operation after all others. -/
structure OneByOne (q : Queue Op Run) : Prop where
  outstanding : q.running.length ≤ 1
  front : ∀ run ∈ q.running, q.queue.head? = some run.1
  kept : q.posted = q.popped ++ q.queue ++ q.posts
  once : q.started <+: q.posted
  finished : q.completed <+: q.started
  closing : ∀ op ∈ q.closed, q.posted = q.completed ++ [op]

theorem oneByOne (serving : Serving begin q) : OneByOne q where
  outstanding := running_le_one serving
  front _ started := running_front serving started
  kept := serving.account
  once := started_posted serving
  finished := completed_started serving
  closing _ closed := (closed_last serving closed).2.2

theorem settled (serving : Serving begin q) (posts : q.posts = []) (running : q.running = [])
    (pops : q.pops = 0) : q.posted = q.completed ++ q.closed ∧ q.started = q.completed := by
  rcases serving.phase with idle | busy | finished
  · obtain ⟨queue, -, -, started, popped⟩ := idle
    refine ⟨?_, started⟩
    rw [serving.account, queue, posts, popped, List.append_nil, List.append_nil]
  · obtain ⟨_, _, _, -, some, -⟩ := busy
    rw [running] at some
    cases some
  · obtain ⟨_, _, -, -, one, -⟩ := finished
    omega

def Starts (begin : Op → Option Run) (q q' : Queue Op Run) : Prop :=
  q'.posted = q.posted ∧ q'.completed = q.completed ∧
    (q'.started = q.started ∧ q'.running = q.running ∨
      ∃ op r, begin op = some r ∧ q'.started = q.started ++ [op] ∧
        q'.running = q.running ++ [(op, r)])

theorem starts_startOne (begin : Op → Option Run) (q : Queue Op Run) :
    Starts begin q (startOne begin q) := by
  unfold startOne
  split
  · exact ⟨rfl, rfl, .inl ⟨rfl, rfl⟩⟩
  · split
    · rename_i op _ _ _ r first
      exact ⟨rfl, rfl, .inr ⟨op, r, first, rfl, rfl⟩⟩
    · exact ⟨rfl, rfl, .inl ⟨rfl, rfl⟩⟩

theorem starts_runPost (begin : Op → Option Run) (q : Queue Op Run) :
    Starts begin q (q.runPost (startOne begin)) := by
  unfold runPost
  split
  · exact ⟨rfl, rfl, .inl ⟨rfl, rfl⟩⟩
  · dsimp only
    split
    · exact starts_startOne begin _
    · exact ⟨rfl, rfl, .inl ⟨rfl, rfl⟩⟩

theorem starts_runPop (begin : Op → Option Run) (q : Queue Op Run) :
    Starts begin q (q.runPop (startOne begin)) := by
  unfold runPop
  split
  · exact ⟨rfl, rfl, .inl ⟨rfl, rfl⟩⟩
  · dsimp only
    split
    · exact starts_startOne begin _
    · exact ⟨rfl, rfl, .inl ⟨rfl, rfl⟩⟩

/-- How often the strand still has to act for the operations that are posted, at least. -/
def work (q : Queue Op Run) : Nat :=
  q.posts.length + 2 * (q.posted.length - q.completed.length) + q.pops

theorem work_startOne (begin : Op → Option Run) (q : Queue Op Run) :
    work (startOne begin q) = work q := by
  unfold startOne
  split
  · rfl
  · split <;> rfl

theorem work_runPost {begin : Op → Option Run} {q : Queue Op Run} (some : q.posts ≠ []) :
    work (q.runPost (startOne begin)) < work q := by
  rcases isPosts : q.posts with _ | ⟨op, posts⟩
  · exact absurd isPosts some
  · simp only [runPost, isPosts]
    have less : work { q with posts := posts, queue := q.queue ++ [op] } < work q := by
      simp only [work, isPosts, List.length_cons]
      omega
    split
    · rw [work_startOne]
      exact less
    · exact less

theorem work_runPop (serving : Serving begin q) (asked : 0 < q.pops) :
    work (q.runPop (startOne begin)) < work q := by
  rcases serving.phase with ⟨-, -, none, -⟩ | ⟨_, _, _, -, -, none, -⟩ | ⟨op, rest, queue, -⟩
  · omega
  · omega
  · simp only [runPop, queue]
    have less : work { q with pops := q.pops - 1, queue := rest, popped := q.popped ++ [op] } <
        work q := by
      simp only [work]
      omega
    split
    · rw [work_startOne]
      exact less
    · exact less

theorem work_complete (serving : Serving begin q) {i : Nat} {op : Op} {r : Run}
    (started : q.running[i]? = some (op, r)) :
    work (q.complete i) < work q ∧ q.completed.length < q.posted.length ∧
      (q.complete i).completed = q.completed ++ [op] := by
  have next := running_next serving started
  have below := (List.getElem?_eq_some_iff.mp next).1
  refine ⟨?_, below, by simp [complete, started]⟩
  simp only [work, complete, started, Option.map_some, Option.toList_some, List.length_append,
    List.length_singleton]
  omega

end Serial
