import BatchDualEx.Common.ByteStreamMemory

/- A `ByteStream` as a queue of byte strings: what is written is read back in its order, in whatever
   order writes and reads follow each other and wherever the buffer is replaced in between. -/
namespace BatchDualEx

open Bytes Memory

/-- A byte string, and whether it goes through `store_bytes` and `get_bytes` or through `append` and
    `consume`. -/
structure Item where
  bytes : List Byte
  stored : Bool

def Item.encoded (item : Item) : List Byte :=
  if item.stored then ByteStream.stored item.bytes else item.bytes

/-- A write comes with the answers of the allocator that it meets. -/
inductive Act where
  | write (a : Allocator) (item : Item)
  | read

def items : List Act → List Item
  | [] => []
  | .write _ item :: acts => item :: items acts
  | .read :: acts => items acts

/-- No read comes before the write it belongs to, and all that is written is read; `n` items are
    waiting already. -/
def Balanced : Nat → List Act → Prop
  | n, [] => n = 0
  | n, .write _ _ :: acts => Balanced (n + 1) acts
  | n, .read :: acts => 0 < n ∧ Balanced (n - 1) acts

def Granted : Nat → Nat → List Act → Prop
  | _, _, [] => True
  | mxlen, mWriteHead, .write a item :: acts =>
    let l := mWriteHead + item.encoded.length
    (l < mxlen ∨ a.Allocates (2 * l)) ∧ Granted (if l < mxlen then mxlen else 2 * l) l acts
  | mxlen, mWriteHead, .read :: acts => Granted mxlen mWriteHead acts

namespace ByteStreamMembers

def put (a : Allocator) (s : ByteStreamMembers) (item : Item) : Outcome ByteStreamMembers Unit :=
  if item.stored then s.storeBytes a item.bytes item.bytes.length
  else s.append a item.bytes item.bytes.length

def get (s : ByteStreamMembers) (item : Item) : Outcome ByteStreamMembers (List Byte) :=
  if item.stored then s.getBytes item.bytes.length else s.consume item.bytes.length

/-- The results of the reads; `queue` holds what was written and not read yet. -/
def play (s : ByteStreamMembers) (queue : List Item) :
    List Act → Outcome ByteStreamMembers (List (List Byte))
  | [] => .returned s []
  | .write a item :: acts => (s.put a item).bind fun t _ => play t (queue ++ [item]) acts
  | .read :: acts =>
    match queue with
    | [] => .undefined
    | item :: queue =>
      (s.get item).bind fun t x => (play t queue acts).bind fun u xs => .returned u (x :: xs)

variable {a : Allocator} {s t : ByteStreamMembers} {v w : ByteStream} {item : Item}

theorem play_write (s : ByteStreamMembers) (queue : List Item) (a : Allocator) (item : Item)
    (acts : List Act) : s.play queue (.write a item :: acts) =
      (s.put a item).bind fun t _ => t.play (queue ++ [item]) acts := rfl

theorem play_read (s : ByteStreamMembers) (item : Item) (queue : List Item) (acts : List Act) :
    s.play (item :: queue) (.read :: acts) =
      (s.get item).bind fun t x => (t.play queue acts).bind fun u xs => .returned u (x :: xs) := rfl

theorem encoded_length (item : Item) :
    item.encoded.length = if item.stored then 4 + item.bytes.length else item.bytes.length := by
  unfold Item.encoded
  split
  · exact ByteStream.stored_length _
  · rfl

theorem encoded_length_lt (few : item.bytes.length < 2 ^ 32) :
    item.encoded.length < 2 ^ 32 + 4 := by
  rw [encoded_length]
  split <;> omega

theorem Holds.append (holds : s.Holds v) {x : List Byte} (appended : Appended s t x) :
    t.Holds ⟨v.mData ++ x, v.mReadHead⟩ :=
  ⟨appended.valid, holds.2.1 ▸ appended.written, appended.readHead.trans holds.2.2⟩

theorem unread_append (holds : s.Holds v) (x : List Byte) :
    ByteStream.unread ⟨v.mData ++ x, v.mReadHead⟩ = v.unread ++ x := by
  have read := holds.1.readHead
  have length := holds.length
  have head := holds.2.2
  have below : v.mReadHead ≤ v.mData.length := by omega
  unfold ByteStream.unread
  exact List.drop_append_of_le_length below

theorem put_returns (valid : s.Valid)
    (granted : s.mWriteHead + item.encoded.length < s.mxlen ∨
      a.Allocates (2 * (s.mWriteHead + item.encoded.length))) :
    ∃ t, s.put a item = .returned t () ∧ Appended s t item.encoded ∧
      t.mxlen = if s.mWriteHead + item.encoded.length < s.mxlen then s.mxlen
        else 2 * (s.mWriteHead + item.encoded.length) := by
  have allocated := valid.allocated
  have small : s.mWriteHead + item.encoded.length < 2 ^ 62 ∨
      s.mWriteHead + item.encoded.length < s.mxlen := by
    rcases granted with room | granted
    · exact .inr room
    · have bound := granted.1
      omega
  have safe : GrowSafe a s item.encoded.length := .inl (by omega)
  have met : ¬Refused a s (s.mWriteHead + item.encoded.length) := by
    intro ⟨short, refused⟩
    rcases granted with room | granted
    · omega
    · rw [Nat.mod_eq_of_lt (by omega)] at refused
      exact refused granted
  have doubled : s.capacity (s.mWriteHead + item.encoded.length) =
      if s.mWriteHead + item.encoded.length < s.mxlen then s.mxlen
        else 2 * (s.mWriteHead + item.encoded.length) := by
    unfold capacity
    split
    · rfl
    · omega
  have ends : (s.put a item).Ends
      (fun t _ => Appended s t item.encoded ∧
        t.mxlen = s.capacity (s.mWriteHead + item.encoded.length)) (fun _ => False) := by
    unfold put Item.encoded at *
    split
    · rename_i stored
      simp only [stored, if_true, ByteStream.stored_length] at safe met ⊢
      refine (storeBytes_ends valid safe le_rfl).mono ?_ fun _ thrown => met thrown.2
      intro t _ ⟨appended, mxlen⟩
      rw [List.take_length] at appended
      exact ⟨appended, mxlen⟩
    · rename_i plain
      simp only [plain, if_false, Bool.false_eq_true] at safe met ⊢
      refine (append_ends valid safe le_rfl).mono ?_ fun _ thrown => met thrown.2
      intro t _ ⟨appended, mxlen⟩
      rw [List.take_length] at appended
      exact ⟨appended, mxlen⟩
  obtain ⟨t, u, run, appended, mxlen⟩ := ends.exists_returned
  exact ⟨t, run, appended, mxlen.trans doubled⟩

theorem reserve_not_returned (valid : s.Valid) {l : Nat} (short : s.mxlen ≤ s.mWriteHead + l)
    (few : l < 2 ^ 33) (refused : ¬a.Allocates (2 * (s.mWriteHead + l))) (t : ByteStreamMembers)
    (u : Unit) : s.reserve a ((s.mWriteHead + l) % 2 ^ 64) ≠ .returned t u := by
  have allocated := valid.allocated
  have below := valid.writeHead
  intro run
  unfold reserve at run
  rw [Nat.mod_eq_of_lt (by omega), if_neg (by omega)] at run
  by_cases wraps : s.mWriteHead + l < 2 ^ 63
  · rw [if_neg (by rwa [Nat.mod_eq_of_lt (by omega)])] at run
    cases run
  · have less : ¬s.mWriteHead ≤ 2 * (s.mWriteHead + l) % 2 ^ 64 := by omega
    simp only [less, false_and, and_false, if_false] at run
    split at run <;> cases run

theorem put_not_returned (valid : s.Valid) (few : item.bytes.length < 2 ^ 32)
    (refused : ¬(s.mWriteHead + item.encoded.length < s.mxlen ∨
      a.Allocates (2 * (s.mWriteHead + item.encoded.length)))) (t : ByteStreamMembers) (u : Unit) :
    s.put a item ≠ .returned t u := by
  rw [not_or, Nat.not_lt] at refused
  have sized := encoded_length_lt few
  have never := reserve_not_returned valid refused.1 (by omega) refused.2
  intro run
  unfold put at run
  rw [encoded_length] at never
  split at run
  · rename_i stored
    unfold storeBytes at run
    obtain ⟨r, _, reserved, _⟩ := Outcome.bind_eq_returned run
    simp only [stored, if_true, ← Nat.add_assoc] at never
    exact never _ _ reserved
  · rename_i plain
    unfold append at run
    obtain ⟨r, _, reserved, _⟩ := Outcome.bind_eq_returned run
    simp only [plain, if_false, Bool.false_eq_true] at never
    exact never _ _ reserved

theorem get_returns (holds : s.Holds v) {rest : List Byte}
    (small : item.stored = true → item.bytes.length < 2 ^ 31)
    (ahead : v.unread = item.encoded ++ rest) :
    ∃ head w, s.get item = .returned { s with mReadHead := head } item.bytes ∧
      Holds { s with mReadHead := head } w ∧ w.unread = rest := by
  unfold get
  by_cases stored : item.stored = true
  · unfold Item.encoded at ahead
    rw [if_pos stored] at ahead ⊢
    obtain ⟨w, run, left⟩ := ByteStream.getBytes_stored (small stored) ahead
    obtain ⟨head, got, holds'⟩ := getBytes_holds holds run le_rfl
    exact ⟨head, w, got, holds', left⟩
  · unfold Item.encoded at ahead
    rw [if_neg stored] at ahead ⊢
    obtain ⟨valid, written, readHead⟩ := holds
    have length := Holds.unread_length ⟨valid, written, readHead⟩
    have read := valid.readHead
    have below := valid.writeHead
    have allocated := valid.allocated
    rw [ahead, List.length_append] at length
    have unread : v.unread = s.written.drop s.mReadHead := by
      rw [written, readHead]
      rfl
    have ends := consume_ends valid (l := item.bytes.length) (by omega)
    have returns : (s.consume item.bytes.length).Ends
        (fun t x => x = item.bytes ∧ t = { s with mReadHead := s.mReadHead + item.bytes.length })
        (fun _ => False) := by
      refine ends.mono ?_ ?_
      · intro t x ⟨inside, copied, moved⟩
        rw [slice_written inside, ← unread, ahead, List.take_left' rfl] at copied
        exact ⟨copied, moved⟩
      · intro t ⟨_, beyond⟩
        omega
    obtain ⟨t, x, run, same, moved⟩ := returns.exists_returned
    subst same moved
    refine ⟨_, ⟨v.mData, v.mReadHead + item.bytes.length⟩, run, ?_, ?_⟩
    · refine ⟨valid.moveRead (by omega), written, ?_⟩
      change s.mReadHead + item.bytes.length = v.mReadHead + item.bytes.length
      rw [readHead]
    · unfold ByteStream.unread
      rw [← List.drop_drop]
      change v.unread.drop item.bytes.length = rest
      rw [ahead, List.drop_left' rfl]

theorem get_not_returned (holds : s.Holds v) {rest : List Byte}
    (stored : item.stored = true) (large : 2 ^ 31 ≤ item.bytes.length)
    (few : item.bytes.length < 2 ^ 32) (ahead : v.unread = item.encoded ++ rest) :
    s.get item = .undefined := by
  have length := holds.unread_length
  obtain ⟨valid, written, readHead⟩ := holds
  have read := valid.readHead
  obtain ⟨data, live, sized⟩ := valid.buffer
  have below := valid.writeHead
  rw [ahead, List.length_append, encoded_length, if_pos stored] at length
  have header : s.slice s.mReadHead 4 = encodeU32 item.bytes.length := by
    have unread : s.written.drop s.mReadHead = v.unread := by
      rw [written, readHead]
      rfl
    rw [slice_written (by omega), unread, ahead]
    unfold Item.encoded ByteStream.stored
    rw [if_pos stored, List.append_assoc, List.take_left' (encodeU32_length _)]
  have inside : Within s.mData s.mReadHead 4 := by
    rw [live]
    exact within_some (by omega)
  unfold get getBytes
  rw [if_pos stored, if_pos inside, header, decodeU32_large large few]

def total (acts : List Act) : Nat := ((items acts).map fun item => item.encoded.length).sum

def Readable (all : List Item) : Prop :=
  ∀ item ∈ all, item.stored = true → item.bytes.length < 2 ^ 31

theorem play_returns {acts : List Act} {queue : List Item} (holds : s.Holds v)
    (ahead : v.unread = queue.flatMap Item.encoded) (balanced : Balanced queue.length acts)
    (readable : Readable (queue ++ items acts)) (granted : Granted s.mxlen s.mWriteHead acts) :
    ∃ t, s.play queue acts = .returned t ((queue ++ items acts).map Item.bytes) ∧ t.Valid ∧
      t.mReadHead = t.mWriteHead ∧ t.mWriteHead = s.mWriteHead + total acts := by
  induction acts generalizing s v queue with
  | nil =>
    have none : queue = [] := List.length_eq_zero_iff.mp balanced
    subst none
    have length := holds.unread_length
    rw [ahead] at length
    have read := holds.1.readHead
    have same : s.mReadHead = s.mWriteHead := by
      change 0 = s.mWriteHead - s.mReadHead at length
      omega
    exact ⟨s, rfl, holds.1, same, rfl⟩
  | cons act acts ih =>
    cases act with
    | write a item =>
      obtain ⟨room, later⟩ := granted
      obtain ⟨t, wrote, appended, mxlen⟩ := put_returns holds.1 room
      have head := appended.writeHead holds.1
      have queued : (queue ++ [item]) ++ items acts = queue ++ items (.write a item :: acts) := by
        rw [List.append_assoc]
        rfl
      have unread : ByteStream.unread ⟨v.mData ++ item.encoded, v.mReadHead⟩ =
          (queue ++ [item]).flatMap Item.encoded := by
        rw [unread_append holds, ahead, List.flatMap_append, List.flatMap_singleton]
      obtain ⟨u, run, valid, heads, total'⟩ := ih (holds.append appended) unread
        (by rw [List.length_append]; exact balanced) (queued ▸ readable)
        (by rw [mxlen, head]; exact later)
      refine ⟨u, ?_, valid, heads, ?_⟩
      · rw [play_write, wrote, Outcome.bind_returned, run, queued]
      · rw [total', head, Nat.add_assoc]
        rfl
    | read =>
      cases queue with
      | nil => exact absurd balanced.1 (Nat.lt_irrefl 0)
      | cons item queue =>
        rw [List.flatMap_cons] at ahead
        have small := readable item List.mem_cons_self
        obtain ⟨head, w, got, holds', left⟩ := get_returns holds small ahead
        obtain ⟨u, run, valid, heads, total'⟩ := ih holds' left balanced.2
          (fun item listed => readable item (List.mem_cons_of_mem _ listed)) granted
        refine ⟨u, ?_, valid, heads, total'⟩
        rw [play_read, got, Outcome.bind_returned, run]
        rfl


theorem of_play_returned {acts : List Act} {queue : List Item} (holds : s.Holds v)
    (ahead : v.unread = queue.flatMap Item.encoded) (balanced : Balanced queue.length acts)
    (sizes : ∀ item ∈ queue ++ items acts, item.bytes.length < 2 ^ 32) {xs : List (List Byte)}
    (run : s.play queue acts = .returned t xs) :
    Readable (queue ++ items acts) ∧ Granted s.mxlen s.mWriteHead acts := by
  induction acts generalizing s v queue t xs with
  | nil =>
    have none : queue = [] := List.length_eq_zero_iff.mp balanced
    subst none
    exact ⟨fun item listed => absurd listed List.not_mem_nil, trivial⟩
  | cons act acts ih =>
    cases act with
    | write a item =>
      have queued : (queue ++ [item]) ++ items acts = queue ++ items (.write a item :: acts) := by
        rw [List.append_assoc]
        rfl
      have few := sizes item (queued ▸ by simp)
      by_cases room : s.mWriteHead + item.encoded.length < s.mxlen ∨
          a.Allocates (2 * (s.mWriteHead + item.encoded.length))
      · obtain ⟨t', wrote, appended, mxlen⟩ := put_returns holds.1 room
        have head := appended.writeHead holds.1
        have unread : ByteStream.unread ⟨v.mData ++ item.encoded, v.mReadHead⟩ =
            (queue ++ [item]).flatMap Item.encoded := by
          rw [unread_append holds, ahead, List.flatMap_append, List.flatMap_singleton]
        rw [play_write, wrote, Outcome.bind_returned] at run
        obtain ⟨readable, granted⟩ := ih (holds.append appended) unread
          (by rw [List.length_append]; exact balanced) (queued ▸ sizes) run
        rw [queued] at readable
        rw [mxlen, head] at granted
        exact ⟨readable, room, granted⟩
      · rw [play_write] at run
        obtain ⟨t', u, wrote, -⟩ := Outcome.bind_eq_returned run
        exact absurd wrote (put_not_returned holds.1 few room t' u)
    | read =>
      cases queue with
      | nil => exact absurd balanced.1 (Nat.lt_irrefl 0)
      | cons item queue =>
        rw [List.flatMap_cons] at ahead
        have few := sizes item List.mem_cons_self
        rw [play_read] at run
        have small : item.stored = true → item.bytes.length < 2 ^ 31 := by
          intro stored
          by_contra large
          rw [get_not_returned holds stored (Nat.not_lt.mp large) few ahead] at run
          cases run
        obtain ⟨head, w, got, holds', left⟩ := get_returns holds small ahead
        rw [got, Outcome.bind_returned] at run
        obtain ⟨u, xs', rest, -⟩ := Outcome.bind_eq_returned run
        obtain ⟨readable, granted⟩ := ih holds' left balanced.2
          (fun item listed => sizes item (List.mem_cons_of_mem _ listed)) rest
        refine ⟨?_, granted⟩
        intro item' listed
        rcases List.mem_cons.mp listed with same | later
        · exact same ▸ small
        · exact readable item' later

def session (a : Allocator) (capacity : Nat) (acts : List Act) :
    Outcome ByteStreamMembers (List (List Byte)) :=
  (construct a capacity).bind fun s _ => s.play [] acts

theorem construct_granted {n : Nat} (granted : n = 0 ∨ a.Allocates n) :
    ∃ s, construct a n = .returned s () ∧ s.Holds .empty ∧ s.mxlen = n ∧ s.mWriteHead = 0 := by
  have ends : (construct a n).Ends
      (fun t _ => t.Valid ∧ t.mReadHead = 0 ∧ t.written = [] ∧ t.mxlen = n) (fun _ => False) := by
    rcases granted with none | granted
    · subst none
      exact ⟨null_valid, rfl, rfl, rfl⟩
    · exact (construct_ends n).mono (fun _ _ => id) fun _ refused => refused granted
  obtain ⟨s, u, made, valid, readHead, written, mxlen⟩ := ends.exists_returned
  refine ⟨s, made, ⟨valid, written, readHead⟩, mxlen, ?_⟩
  rw [← valid.written_length, written]
  rfl

theorem of_construct_returned {n : Nat} {u : Unit} (made : construct a n = .returned s u) :
    n = 0 ∨ a.Allocates n := by
  by_cases none : n = 0
  · exact .inl none
  · right
    by_contra refused
    unfold construct at made
    rw [if_neg none, if_neg refused] at made
    cases made

theorem consume_behind (valid : s.Valid) (heads : s.mReadHead = s.mWriteHead) {l : Nat}
    (positive : 0 < l) (few : l < 2 ^ 64) :
    s.consume l = .thrown s ↔ s.mWriteHead + l < 2 ^ 64 := by
  have below := valid.writeHead
  have allocated := valid.allocated
  unfold consume
  rw [heads]
  constructor
  · intro thrown
    by_contra wraps
    rw [if_neg (by omega)] at thrown
    split at thrown <;> cases thrown
  · intro small
    exact if_pos (by omega)

/-- What was written is read back, all of it, and a further `consume` throws, exactly when the
    allocator grants what it is asked for, the stored strings have less than `2^31` bytes and the
    further length does not wrap. -/
theorem session_iff (a : Allocator) (capacity : UInt64) (acts : List Act)
    (balanced : Balanced 0 acts) (sizes : ∀ item ∈ items acts, item.bytes.length < 2 ^ 32)
    (l : UInt64) (positive : 0 < l.toNat) :
    (∃ t, session a capacity.toNat acts = .returned t ((items acts).map Item.bytes) ∧
        t.mReadHead = t.mWriteHead ∧ t.consume l.toNat = .thrown t) ↔
      (capacity.toNat = 0 ∨ a.Allocates capacity.toNat) ∧ Granted capacity.toNat 0 acts ∧
        Readable (items acts) ∧ total acts + l.toNat < 2 ^ 64 := by
  have waiting : Balanced ([] : List Item).length acts := balanced
  have ahead : ByteStream.unread .empty = ([] : List Item).flatMap Item.encoded := rfl
  constructor
  · intro ⟨t, run, heads, throws⟩
    obtain ⟨s, u, made, played⟩ := Outcome.bind_eq_returned run
    have start := of_construct_returned made
    obtain ⟨s', made', holds, mxlen, head⟩ := construct_granted start
    cases made.symm.trans made'
    obtain ⟨readable, granted⟩ := of_play_returned holds ahead waiting sizes played
    obtain ⟨t', played', valid, heads', total'⟩ := play_returns holds ahead waiting readable granted
    cases played.symm.trans played'
    rw [mxlen, head] at granted
    rw [head, Nat.zero_add] at total'
    have small := (consume_behind valid heads positive l.toNat_lt).mp throws
    exact ⟨start, granted, readable, total' ▸ small⟩
  · intro ⟨start, granted, readable, small⟩
    obtain ⟨s, made, holds, mxlen, head⟩ := construct_granted start
    rw [← mxlen, ← head] at granted
    obtain ⟨t, played, valid, heads, total'⟩ := play_returns holds ahead waiting readable granted
    rw [head, Nat.zero_add] at total'
    refine ⟨t, ?_, heads, (consume_behind valid heads positive l.toNat_lt).mpr (total' ▸ small)⟩
    unfold session
    rw [made]
    exact played

/-- Two writes, of which the second replaces the buffer, around a read. -/
theorem session_iff_two_items :
    (∃ t, session zeros 4 [.write zeros ⟨[1, 2], false⟩, .read, .write zeros ⟨[3], true⟩, .read] =
        .returned t [[1, 2], [3]] ∧ t.mReadHead = t.mWriteHead ∧ t.consume 1 = .thrown t) ↔
      (4 = 0 ∨ zeros.Allocates 4) ∧
        Granted 4 0 [.write zeros ⟨[1, 2], false⟩, .read, .write zeros ⟨[3], true⟩, .read] ∧
        Readable [⟨[1, 2], false⟩, ⟨[3], true⟩] ∧ 7 + 1 < 2 ^ 64 :=
  session_iff zeros 4 [.write zeros ⟨[1, 2], false⟩, .read, .write zeros ⟨[3], true⟩, .read]
    ⟨by decide, by decide, rfl⟩ (by decide) 1 (by decide)

/-- Behind one byte that was read, `consume` of `2^64 - 1` bytes does not throw. -/
theorem consume_wraps :
    ((session zeros 4 [.write zeros ⟨[1], false⟩, .read]).bind fun t _ =>
      t.consume 18446744073709551615) = .undefined := by
  decide


end ByteStreamMembers

end BatchDualEx
