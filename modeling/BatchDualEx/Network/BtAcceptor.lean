import BatchDualEx.Common.ByteStreamMemory
import BatchDualEx.Lib.Split
import BatchDualEx.Network.Delivery

/- `BtAcceptor`: the first message of a client, the two receives that read it, and the promises by
   which the socket gets to the channel of the host that has the same names. -/
namespace BatchDualEx

open Bytes Memory Split

def BtEndpoint.hello (mName localName remoteName : List Byte) : List Byte :=
  joined 0x60 mName localName remoteName

namespace BtAcceptor

structure Received where
  ec : Bool
  bytesTransferred : Nat
  deriving DecidableEq

/-- An error that is logged, or the names that are read from the buffer. -/
inductive Handshake where
  | headerFailed
  | bodyFailed
  | named (names : List (List Byte))
  deriving DecidableEq

/-- The bytes of a receive are at the start of the buffer, and what was behind them stays. -/
def arrive (buff : ByteStreamMembers) (bytes : List Byte) : ByteStreamMembers :=
  { buff with mData := buff.mData.map fun data => memcpy data 0 bytes }

def granting (fresh : Nat → Nat → Byte) : Allocator := ⟨fun _ => true, fresh⟩

def start (fresh : Nat → Nat → Byte) (stream : List Byte) (first second : Received) :
    Outcome ByteStreamMembers Handshake :=
  (ByteStreamMembers.construct (granting fresh) 4).bind fun buff _ =>
  (buff.setp buff.mxlen).bind fun buff _ =>
  let buff := arrive buff (stream.take first.bytesTransferred)
  if ¬first.ec ∨ first.bytesTransferred ≠ 4 then
    let size := loadU32 (buff.mData.getD [])
    (buff.reserve (granting fresh) size).bind fun buff _ =>
    (buff.setp size).bind fun buff _ =>
    let buff := arrive buff ((stream.drop first.bytesTransferred).take second.bytesTransferred)
    if ¬second.ec ∨ second.bytesTransferred ≠ size then
      .returned buff (.named (split 0x60 buff.written))
    else .returned buff .bodyFailed
  else .returned buff .headerFailed

abbrev SocketPromises (Socket : Type) := List Byte → Option Socket

def getSocketPromise (endpointName localChannelName remoteChannelName : List Byte) : List Byte :=
  joined 0x3A endpointName localChannelName remoteChannelName

variable {Socket : Type}

/-- `getSocketPromise(names[0], names[2], names[1]).set_value(newSocket)`. A promise is set once. -/
def setSocket (promises : SocketPromises Socket) (newSocket : Socket) :
    Handshake → Outcome (SocketPromises Socket) Unit
  | .headerFailed | .bodyFailed => .returned promises ()
  | .named names =>
    match names with
    | endpointName :: remoteName :: localName :: _ =>
      let tag := getSocketPromise endpointName localName remoteName
      match promises tag with
      | none => .returned (Function.update promises tag (some newSocket)) ()
      | some _ => .thrown promises
    | _ => .undefined

def getSocket (promises : SocketPromises Socket) (endpointName name remoteName : List Byte) :
    Option Socket := promises (getSocketPromise endpointName name remoteName)

def headerSize (fresh : Nat → Nat → Byte) (stream : List Byte) (n : Nat) : Nat :=
  loadU32 (memcpy ((granting fresh).bytes 4) 0 (stream.take n))

theorem loadU32_lt (bytes : List Byte) : loadU32 bytes < 2 ^ 32 := by
  have byte (i : Nat) : (bytes.getD i 0).toNat < 256 := (bytes.getD i 0).isLt
  have first := byte 0
  have second := byte 1
  have third := byte 2
  have fourth := byte 3
  unfold loadU32
  omega

theorem reserve_setp {a : Allocator} (granted : ∀ n < 2 ^ 63, a.Allocates n)
    {buff : ByteStreamMembers} (valid : buff.Valid) (four : buff.mWriteHead = 4) {size : Nat}
    (small : size < 2 ^ 32) :
    ∃ t data, buff.reserve a size = .returned t () ∧
      t.setp size = .returned { t with mWriteHead := size, mReadHead := min t.mReadHead size } () ∧
      t.mData = some data ∧ size ≤ data.length := by
  have head := valid.writeHead
  have room : ByteStreamMembers.ReserveSafe a buff size := by
    unfold ByteStreamMembers.ReserveSafe
    omega
  have ends := ByteStreamMembers.reserve_ends valid room
  have notRefused : ¬ ByteStreamMembers.Refused a buff size := by
    intro refused
    exact refused.2 (granted _ (by omega))
  obtain ⟨t, u, run, valid', -, -, capacity⟩ :=
    (ends.mono (fun _ _ kept => kept) fun _ refused => notRefused refused.2).exists_returned
  obtain ⟨data, live, sized⟩ := valid'.buffer
  have enough : size ≤ t.mxlen := by
    rw [capacity]
    exact (ByteStreamMembers.le_capacity (by omega)).1
  refine ⟨t, data, run, ?_, live, by omega⟩
  rw [ByteStreamMembers.setp, if_neg (by omega)]

/-- What the handlers do: the names are cut from the first `size` bytes of a buffer in which the
    bytes of the second receive stand at the start. -/
theorem start_cases (fresh : Nat → Nat → Byte) (stream : List Byte) (first second : Received) :
    ∃ data size, size = headerSize fresh stream first.bytesTransferred ∧ size ≤ data.length ∧
      ∃ buff, start fresh stream first second = .returned buff
        (if first.ec ∧ first.bytesTransferred = 4 then .headerFailed
        else if second.ec ∧ second.bytesTransferred = size then .bodyFailed
        else .named (split 0x60 ((memcpy data 0
          ((stream.drop first.bytesTransferred).take second.bytesTransferred)).take size))) := by
  have granted (n : Nat) (small : n < 2 ^ 63) : (granting fresh).Allocates n := ⟨small, rfl⟩
  obtain ⟨header, isHeader⟩ : ∃ header, header =
    memcpy ((granting fresh).bytes 4) 0 (stream.take first.bytesTransferred) := ⟨_, rfl⟩
  have four : header.length = 4 := by simp [isHeader]
  have valid : (⟨4, 4, 0, some header⟩ : ByteStreamMembers).Valid :=
    ⟨⟨header, rfl, four⟩, (by decide : 4 < 2 ^ 63), Nat.zero_le 4, Nat.le_refl 4⟩
  have built : ByteStreamMembers.construct (granting fresh) 4 =
      .returned ⟨0, 4, 0, some ((granting fresh).bytes 4)⟩ () := by
    rw [ByteStreamMembers.construct, if_neg (by decide), if_pos (granted 4 (by decide))]
  obtain ⟨t, data, reserved, set, live, room⟩ :=
    reserve_setp granted valid rfl (loadU32_lt header)
  have isStart : start fresh stream first second =
      if ¬first.ec ∨ first.bytesTransferred ≠ 4 then
        (ByteStreamMembers.reserve (granting fresh) ⟨4, 4, 0, some header⟩ (loadU32 header)).bind
          fun buff _ => (buff.setp (loadU32 header)).bind fun buff _ =>
            let buff := arrive buff ((stream.drop first.bytesTransferred).take
              second.bytesTransferred)
            if ¬second.ec ∨ second.bytesTransferred ≠ loadU32 header then
              .returned buff (.named (split 0x60 buff.written))
            else .returned buff .bodyFailed
      else .returned ⟨4, 4, 0, some header⟩ .headerFailed := by
    rw [start, built, isHeader]
    rfl
  refine ⟨data, loadU32 header, by rw [isHeader, headerSize], room, ?_⟩
  rw [isStart, reserved, Outcome.bind_returned, set, Outcome.bind_returned]
  by_cases headerFails : first.ec ∧ first.bytesTransferred = 4
  · use ⟨4, 4, 0, some header⟩
    rw [if_neg (by simpa using headerFails), if_pos headerFails]
  · use arrive { t with
      mWriteHead := loadU32 header
      mReadHead := min t.mReadHead (loadU32 header) }
      ((stream.drop first.bytesTransferred).take second.bytesTransferred)
    rw [if_pos (by simpa [imp_iff_not_or] using headerFails), if_neg headerFails]
    by_cases bodyFails : second.ec ∧ second.bytesTransferred = loadU32 header
    · rw [if_neg (by simpa using bodyFails), if_pos bodyFails]
    · rw [if_pos (by simpa [imp_iff_not_or] using bodyFails), if_neg bodyFails]
      simp [ByteStreamMembers.written, ByteStreamMembers.slice, arrive, live]

/-- The names are told apart again: none has the separator, and there is a last one. -/
structure WellNamed (mName localName remoteName : List Byte) : Prop where
  freeName : 0x60 ∉ mName
  freeLocal : 0x60 ∉ localName
  freeRemote : 0x60 ∉ remoteName
  last : remoteName ≠ []

theorem split_hello {mName localName remoteName : List Byte}
    (named : WellNamed mName localName remoteName) :
    split 0x60 (BtEndpoint.hello mName localName remoteName) = [mName, localName, remoteName] := by
  rw [BtEndpoint.hello, joined, split_append named.freeName, split_append named.freeLocal,
    split_free named.freeRemote named.last]

theorem setSocket_returned {promises promises' : SocketPromises Socket} {newSocket : Socket}
    {names : List (List Byte)}
    (run : setSocket promises newSocket (.named names) = .returned promises' ()) :
    ∃ endpointName remoteName localName more,
      names = endpointName :: remoteName :: localName :: more ∧
        promises (getSocketPromise endpointName localName remoteName) = none ∧
        promises' = Function.update promises
          (getSocketPromise endpointName localName remoteName) (some newSocket) := by
  rcases names with _ | ⟨endpointName, _ | ⟨remoteName, _ | ⟨localName, more⟩⟩⟩
  · cases run
  · cases run
  · cases run
  · refine ⟨endpointName, remoteName, localName, more, rfl, ?_⟩
    simp only [setSocket] at run
    split at run
    · rename_i unset
      cases run
      exact ⟨unset, rfl⟩
    · cases run

theorem wellNamed_of_pieces {mName localName remoteName sent : List Byte}
    (accepted : BtChannel.asyncSend (BtEndpoint.hello mName localName remoteName) = .ok sent)
    {first second third : List Byte} {more : List (List Byte)}
    (pieces : split 0x60 sent = first :: second :: third :: more)
    (same : getSocketPromise first third second = getSocketPromise mName remoteName localName) :
    WellNamed mName localName remoteName ∧ sent = BtEndpoint.hello mName localName remoteName := by
  obtain ⟨-, isSent⟩ := BtChannel.asyncSend_ok accepted
  have length := congrArg List.length same
  simp only [getSocketPromise, joined_length] at length
  have inside := split_three pieces
  have whole : sent = BtEndpoint.hello mName localName remoteName := by
    rw [isSent, List.take_eq_self_iff]
    rw [isSent, List.length_take, BtEndpoint.hello, joined_length] at inside
    rw [BtEndpoint.hello, joined_length]
    omega
  have free (item : List Byte) (listed : item ∈ [first, second, third]) : 0x60 ∉ item := by
    apply not_mem_split item
    rw [pieces]
    simp only [List.mem_cons, List.not_mem_nil, or_false] at listed ⊢
    rcases listed with rfl | rfl | rfl <;> simp
  have other : (0x60 : Byte) ≠ 0x3A := by decide
  have unseparated : 0x60 ∉ getSocketPromise mName remoteName localName := by
    rw [← same, getSocketPromise, mem_joined other]
    rintro (listed | listed | listed)
    · exact free first (by simp) listed
    · exact free third (by simp) listed
    · exact free second (by simp) listed
  rw [getSocketPromise, mem_joined other, not_or, not_or] at unseparated
  obtain ⟨noName, noRemote, noLocal⟩ := unseparated
  refine ⟨⟨noName, noLocal, noRemote, ?_⟩, whole⟩
  intro none
  rw [whole, BtEndpoint.hello, joined, split_append noName, split_append noLocal, none] at pieces
  cases pieces

theorem headerSize_buffers (fresh : Nat → Nat → Byte) {sent : List Byte}
    (small : sent.length < 2 ^ 32) (rest : List Byte) :
    headerSize fresh (BtIOService.buffers sent ++ rest) 4 = sent.length := by
  have header : (BtIOService.buffers sent ++ rest).take 4 = encodeU32 sent.length := by
    rw [BtIOService.buffers, List.append_assoc, List.take_left' (encodeU32_length _)]
  rw [headerSize, header, BtChannel.memcpy_all (by simp), loadU32_encodeU32 small]

theorem start_whole (fresh : Nat → Nat → Byte) {sent : List Byte} (small : sent.length < 2 ^ 32)
    (rest : List Byte) :
    ∃ buff, start fresh (BtIOService.buffers sent ++ rest) ⟨false, 4⟩ ⟨false, sent.length⟩ =
      .returned buff (.named (split 0x60 sent)) := by
  obtain ⟨data, size, isSize, room, buff, run⟩ :=
    start_cases fresh (BtIOService.buffers sent ++ rest) ⟨false, 4⟩ ⟨false, sent.length⟩
  have isSize := isSize.trans (headerSize_buffers fresh small rest)
  have body : ((BtIOService.buffers sent ++ rest).drop 4).take sent.length = sent := by
    rw [BtIOService.buffers, List.append_assoc, List.drop_left' (encodeU32_length _),
      List.take_left' rfl]
  have filled : (memcpy data 0 sent).take (0 + sent.length) = data.take 0 ++ sent :=
    take_memcpy (by omega)
  rw [List.take_zero, List.nil_append, Nat.zero_add] at filled
  use buff
  simp only [Bool.false_eq_true, false_and, if_false, body, isSize, filled] at run
  exact run

/-- The socket is registered under the names of the client when all bytes have arrived. Where a
    receive fails nothing is registered, and no name is read. -/
def Greets (fresh : Nat → Nat → Byte) (promises : SocketPromises Socket) (newSocket : Socket)
    (mName localName remoteName sent rest : List Byte) (first second : Received) : Prop :=
  ∃ buff handshake, start fresh (BtIOService.buffers sent ++ rest) first second =
      .returned buff handshake ∧
    (first.ec ∨ second.ec → (∀ names, handshake ≠ .named names) ∧
      setSocket promises newSocket handshake = .returned promises ()) ∧
    (¬first.ec → ¬second.ec →
      first.bytesTransferred = 4 ∧ second.bytesTransferred = sent.length ∧
        setSocket promises newSocket handshake = .returned (Function.update promises
          (getSocketPromise mName remoteName localName) (some newSocket)) ())

/-- A receive fails with all the bytes it asked for, or neither fails and both get all bytes, the
    names are told apart again and their promise is not set yet. -/
def Regular (fresh : Nat → Nat → Byte) (promises : SocketPromises Socket)
    (mName localName remoteName sent rest : List Byte) (first second : Received) : Prop :=
  (first.ec ∧ first.bytesTransferred = 4) ∨
    (second.ec ∧ second.bytesTransferred =
      headerSize fresh (BtIOService.buffers sent ++ rest) first.bytesTransferred) ∨
    (¬first.ec ∧ ¬second.ec ∧ first.bytesTransferred = 4 ∧
      second.bytesTransferred = (BtEndpoint.hello mName localName remoteName).length ∧
      (BtEndpoint.hello mName localName remoteName).length < 2 ^ 32 ∧
      WellNamed mName localName remoteName ∧
      promises (getSocketPromise mName remoteName localName) = none)

theorem sent_small {mName localName remoteName sent : List Byte}
    (accepted : BtChannel.asyncSend (BtEndpoint.hello mName localName remoteName) = .ok sent) :
    sent.length < 2 ^ 32 := by
  obtain ⟨-, isSent⟩ := BtChannel.asyncSend_ok accepted
  have below : u32 (BtEndpoint.hello mName localName remoteName).length < 2 ^ 32 :=
    Nat.mod_lt _ (by decide)
  rw [isSent, List.length_take]
  omega

theorem greets_received (fresh : Nat → Nat → Byte) (promises : SocketPromises Socket)
    (newSocket : Socket) {mName localName remoteName sent : List Byte}
    (accepted : BtChannel.asyncSend (BtEndpoint.hello mName localName remoteName) = .ok sent)
    (rest : List Byte) (n m : Nat) :
    Greets fresh promises newSocket mName localName remoteName sent rest ⟨false, n⟩ ⟨false, m⟩ ↔
      n = 4 ∧ m = (BtEndpoint.hello mName localName remoteName).length ∧
        (BtEndpoint.hello mName localName remoteName).length < 2 ^ 32 ∧
        WellNamed mName localName remoteName ∧
        promises (getSocketPromise mName remoteName localName) = none := by
  have small := sent_small accepted
  constructor
  · rintro ⟨buff', handshake, run', -, registers⟩
    obtain ⟨rfl, rfl, registered⟩ := registers nofun nofun
    obtain ⟨buff'', whole⟩ := start_whole fresh small rest
    rw [run'] at whole
    cases whole
    obtain ⟨a, b, c, more, pieces, unset, updated⟩ := setSocket_returned registered
    have same : getSocketPromise a c b = getSocketPromise mName remoteName localName := by
      by_contra other
      have at_key := congrFun updated (getSocketPromise a c b)
      rw [Function.update_self, Function.update_of_ne other, unset] at at_key
      cases at_key
    obtain ⟨named, whole⟩ := wellNamed_of_pieces accepted pieces same
    rw [same] at unset
    rw [whole] at small
    exact ⟨rfl, by rw [whole], small, named, unset⟩
  · rintro ⟨rfl, all, few, named, unset⟩
    obtain ⟨-, isSent⟩ := BtChannel.asyncSend_ok accepted
    have whole : sent = BtEndpoint.hello mName localName remoteName := by
      rw [isSent, List.take_eq_self_iff, u32_small few]
    rw [← whole] at all
    subst all
    obtain ⟨buff', whole'⟩ := start_whole fresh small rest
    refine ⟨buff', .named (split 0x60 sent), whole', by simp, fun _ _ => ⟨rfl, rfl, ?_⟩⟩
    rw [whole, split_hello named]
    simp only [setSocket, unset]

theorem start_greets_iff (fresh : Nat → Nat → Byte) (promises : SocketPromises Socket)
    (newSocket : Socket) {mName localName remoteName sent : List Byte}
    (accepted : BtChannel.asyncSend (BtEndpoint.hello mName localName remoteName) = .ok sent)
    (rest : List Byte) (first second : Received) :
    Greets fresh promises newSocket mName localName remoteName sent rest first second ↔
      Regular fresh promises mName localName remoteName sent rest first second := by
  obtain ⟨data, size, isSize, -, buff, run⟩ :=
    start_cases fresh (BtIOService.buffers sent ++ rest) first second
  by_cases headerFails : first.ec ∧ first.bytesTransferred = 4
  · rw [if_pos headerFails] at run
    constructor
    · exact fun _ => .inl headerFails
    · intro _
      refine ⟨buff, .headerFailed, run, fun _ => ⟨nofun, rfl⟩, fun fine => ?_⟩
      exact absurd headerFails.1 fine
  rw [if_neg headerFails] at run
  by_cases bodyFails : second.ec ∧ second.bytesTransferred = size
  · rw [if_pos bodyFails] at run
    constructor
    · exact fun _ => .inr (.inl (isSize ▸ bodyFails))
    · intro _
      refine ⟨buff, .bodyFailed, run, fun _ => ⟨nofun, rfl⟩, fun _ fine => ?_⟩
      exact absurd bodyFails.1 fine
  rw [if_neg bodyFails] at run
  by_cases fine : first.ec = false ∧ second.ec = false
  · obtain ⟨ec2, n2⟩ := first
    obtain ⟨ec3, n3⟩ := second
    obtain ⟨rfl, rfl⟩ := fine
    rw [greets_received fresh promises newSocket accepted]
    constructor
    · exact fun received => .inr (.inr ⟨nofun, nofun, received⟩)
    · rintro (⟨fails, -⟩ | ⟨fails, -⟩ | ⟨-, -, received⟩)
      · cases fails
      · cases fails
      · exact received
  · have fails : first.ec ∨ second.ec := by
      by_contra neither
      apply fine
      simpa using neither
    constructor
    · rintro ⟨buff', handshake, run', refused, -⟩
      rw [run] at run'
      cases run'
      exact absurd rfl ((refused fails).1 _)
    · rintro (header | body | ⟨noFirst, noSecond, -⟩)
      · exact absurd header headerFails
      · exact absurd (isSize ▸ body) bodyFails
      · rcases fails with failed | failed
        · exact absurd failed noFirst
        · exact absurd failed noSecond

theorem start_greets_iff_e_a_b :
    Greets (fun _ _ => 0) (fun _ => none) () [101] [97] [98] [101, 96, 97, 96, 98] [] ⟨false, 4⟩
      ⟨false, 5⟩ := by
  have named : WellNamed [101] [97] [98] := by constructor <;> decide
  exact (start_greets_iff _ _ _ rfl [] _ _).mpr
    (.inr (.inr ⟨nofun, nofun, rfl, rfl, by decide, named, rfl⟩))

/-- The connection is lost before a byte arrives. The acceptor takes the size and the names from
    memory that nothing was written to. -/
theorem start_reads_unfilled : ¬ ∀ (fresh : Nat → Nat → Byte) (promises : SocketPromises Unit)
    (mName localName remoteName sent rest : List Byte) (first second : Received),
      BtChannel.asyncSend (BtEndpoint.hello mName localName remoteName) = .ok sent →
      WellNamed mName localName remoteName →
      promises (getSocketPromise mName remoteName localName) = none →
      Greets fresh promises () mName localName remoteName sent rest first second := by
  intro greets
  have named : WellNamed [101] [97] [98] := by constructor <;> decide
  obtain ⟨buff, handshake, run, refused, -⟩ :=
    greets (fun _ _ => 5) (fun _ => none) [101] [97] [98] [101, 96, 97, 96, 98] [] ⟨true, 0⟩
      ⟨true, 0⟩ rfl named rfl
  obtain ⟨data, size, isSize, -, buff', run'⟩ := start_cases (fun _ _ => 5)
    (BtIOService.buffers [101, 96, 97, 96, 98] ++ []) ⟨true, 0⟩ ⟨true, 0⟩
  have unequal : headerSize (fun _ _ => 5) (BtIOService.buffers [101, 96, 97, 96, 98] ++ []) 0 ≠
      0 := by decide
  rw [run, if_neg (by simp), if_neg (by simpa [isSize] using unequal.symm)] at run'
  cases run'
  exact (refused (.inl rfl)).1 _ rfl

def Name (name : List Byte) : Prop := name ≠ [] ∧ 0x60 ∉ name

instance (name : List Byte) : Decidable (Name name) := inferInstanceAs (Decidable (_ ∧ _))

/-- The socket of a client is handed to the channel of the host with its endpoint and its names
    exchanged, and to no other. -/
def HandedToOne (promises : SocketPromises Socket) (newSocket : Socket)
    (mName localName remoteName : List Byte) : Prop :=
  ∃ promises', setSocket promises newSocket
      (.named (split 0x60 (BtEndpoint.hello mName localName remoteName))) =
        .returned promises' () ∧
    ∀ endpointName name remote, Name endpointName → Name name → Name remote →
      (getSocket promises' endpointName name remote = some newSocket ↔
        endpointName = mName ∧ name = remoteName ∧ remote = localName)

theorem setSocket_hello {promises : SocketPromises Socket} {mName localName remoteName : List Byte}
    (named : WellNamed mName localName remoteName)
    (unset : promises (getSocketPromise mName remoteName localName) = none) (newSocket : Socket) :
    setSocket promises newSocket
      (.named (split 0x60 (BtEndpoint.hello mName localName remoteName))) =
        .returned (Function.update promises (getSocketPromise mName remoteName localName)
          (some newSocket)) () := by
  rw [split_hello named]
  simp only [setSocket, unset]

theorem getSocket_update {promises : SocketPromises Socket} {newSocket : Socket}
    (unused : ∀ tag, promises tag ≠ some newSocket) (tag endpointName name remoteName : List Byte) :
    getSocket (Function.update promises tag (some newSocket)) endpointName name remoteName =
      some newSocket ↔ getSocketPromise endpointName name remoteName = tag := by
  rw [getSocket, Function.update_apply]
  split
  · rename_i same
    simp [same]
  · rename_i other
    simp [other, unused]

/-- The key has no other reading exactly when ':' is at most the first character of the endpoint,
    the last of the local name of the client, or all of its remote name. -/
theorem handedToOne_iff {mName localName remoteName : List Byte} (isName : Name mName)
    (isLocal : Name localName) (isRemote : Name remoteName) {promises : SocketPromises Socket}
    {newSocket : Socket} (unset : promises (getSocketPromise mName remoteName localName) = none)
    (unused : ∀ tag, promises tag ≠ some newSocket) :
    HandedToOne promises newSocket mName localName remoteName ↔
      Placed 0x3A mName remoteName localName := by
  have named : WellNamed mName localName remoteName :=
    ⟨isName.2, isLocal.2, isRemote.2, isRemote.1⟩
  have registered := setSocket_hello named unset newSocket
  constructor
  · rintro ⟨promises', run, handed⟩
    rw [registered] at run
    cases run
    by_contra misplaced
    obtain ⟨a, b, c, someA, someB, someC, same, other⟩ :=
      exists_other misplaced isName.1 isLocal.1
    -- The other reading is made of the same characters, so it has no separator of the hello either.
    have separator : (0x60 : Byte) ≠ 0x3A := by decide
    have free : 0x60 ∉ joined 0x3A a b c := by
      rw [same, mem_joined separator, not_or, not_or]
      exact ⟨isName.2, isRemote.2, isLocal.2⟩
    rw [mem_joined separator, not_or, not_or] at free
    have reads := (handed a b c ⟨someA, free.1⟩ ⟨someB, free.2.1⟩ ⟨someC, free.2.2⟩).mp
      ((getSocket_update unused _ a b c).mpr same)
    rcases other with otherA | otherC
    · exact otherA reads.1
    · exact otherC reads.2.2
  · intro placed
    refine ⟨_, registered, fun endpointName name remote someE someN someR => ?_⟩
    rw [getSocket_update unused]
    constructor
    · intro same
      obtain ⟨sameE, sameN, sameR⟩ := joined_inj placed someE.1 someN.1 someR.1 same.symm
      exact ⟨sameE.symm, sameN.symm, sameR.symm⟩
    · rintro ⟨rfl, rfl, rfl⟩
      rfl

theorem handedToOne_iff_colons :
    HandedToOne (fun _ => none) () [58, 101] [97] [98] ∧
      ¬ HandedToOne (fun _ => none) () [101, 58, 102] [97] [98] := by
  have a : Name [97] := by decide
  have b : Name [98] := by decide
  have unused (tag : List Byte) : none ≠ some () := nofun
  constructor
  · have isName : Name [58, 101] := by decide
    exact (handedToOne_iff isName a b rfl unused).mpr (by decide)
  · have isName : Name [101, 58, 102] := by decide
    rw [handedToOne_iff isName a b rfl unused]
    decide

/-- The client of the endpoint "e:f" with the names "a" and "b" is handed to the channel of the
    endpoint "e" with the names "f:b" and "a". -/
theorem handedToOne_collides : ¬ ∀ (mName localName remoteName : List Byte), Name mName →
    Name localName → Name remoteName →
      HandedToOne (fun _ => none) () mName localName remoteName := by
  intro handedToOne
  obtain ⟨promises, run, handed⟩ :=
    handedToOne [101, 58, 102] [97] [98] (by decide) (by decide) (by decide)
  have named : WellNamed [101, 58, 102] [97] [98] := by constructor <;> decide
  rw [setSocket_hello named rfl] at run
  cases run
  have reads := (handed [101] [102, 58, 98] [97] (by decide) (by decide) (by decide)).mp (by decide)
  exact absurd reads.1 (by decide)

end BtAcceptor

end BatchDualEx
