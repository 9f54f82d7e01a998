import BatchDualEx.OT.BaseOTLoops
import Mathlib.Data.Nat.Digits.Lemmas
import Mathlib.Data.ZMod.Basic

/- `exec_base` between two parties: both return when their roles fit, and in every run in which
   both return the receiver has the inputs of its choice. -/
namespace BatchDualEx

open Bytes Result

namespace BaseOT

variable {P : Type} [AddCommGroup P] (M : Miracl P) (crs : CRS P)

/-- How a party that returns got there: `m1` and `m2` are the keys and the ciphertexts that it
    received, `kmsg` and `cmsg` those that it sent. -/
structure Ran (n : Nat) (role : OTRole) (e : Executed P) (kmsg cmsg m1 m2 : List Byte) :
    Prop where
  sent : e.channel.sent =
    (if role.has .Receiver then [kmsg] else []) ++ if role.has .Sender then [cmsg] else []
  sentKeys : role.has .Receiver → BtChannel.asyncSend e.keys.out.strm.unread = .ok kmsg
  transfers : role.has .Sender →
    makeTransfers M crs n e.keys.out.strm (.received m1) e.keys.RNG = .ok e.transfers
  sentCiphertexts : role.has .Sender → ∃ data,
    (data = e.transfers.out.strm.mData ∨ data = e.transfers.out.strm.unread) ∧
      BtChannel.asyncSend data = .ok cmsg
  outputs : role.has .Receiver →
    decryptAll M e.OT_Receiver_Inputs e.keys.sk n (.received m2) = .ok e.outputs

theorem lift_ok {α : Type} {first : Except Fault α} {a : α} (run : lift first = .ok a) :
    first = .ok a := by
  cases first with
  | error f => cases run
  | ok b =>
    cases run
    rfl

theorem asyncSendCopy_ok {c c' : Channel} {data : List Byte}
    (run : c.asyncSendCopy data = .ok c') :
    ∃ message, BtChannel.asyncSend data = .ok message ∧ c'.incoming = c.incoming ∧
      c'.sent = c.sent ++ [message] := by
  obtain ⟨message, sent, done⟩ := bind_ok run
  cases done
  exact ⟨message, lift_ok sent, rfl, rfl⟩

theorem recv_ok {c c' : Channel} {s : ByteStream} (run : c.recv = .ok (s, c')) :
    ∃ message, s = .received message ∧ c.incoming = message :: c'.incoming ∧
      c'.sent = c.sent := by
  unfold Channel.recv at run
  cases waiting : c.incoming with
  | nil =>
    rw [waiting] at run
    cases run
  | cons message incoming =>
    rw [waiting] at run
    cases run
    exact ⟨message, rfl, rfl, rfl⟩

theorem exec_OT_ran {inputs : BitVector} {RNG : csprng} {G : PRNG} {role : OTRole}
    {incoming : List (List Byte)} {e : Executed P}
    (run : Exec_OT M crs inputs RNG G ⟨incoming, []⟩ role = .ok e) :
    e.OT_Receiver_Inputs = choices inputs G role ∧
      e.keys = makeKeys M crs (choices inputs G role) (passes role .Receiver inputs.size) RNG ∧
      ∃ kmsg cmsg m1 m2 rest, Ran M crs inputs.size role e kmsg cmsg m1 m2 ∧
        incoming = (if role.has .Sender then [m1] else []) ++
          (if role.has .Receiver then [m2] else []) ++ rest := by
  obtain ⟨⟨strm1, c1⟩, first, run⟩ := bind_ok run
  obtain ⟨transfers, transferred, run⟩ := bind_ok run
  obtain ⟨⟨strm2, c2⟩, second, run⟩ := bind_ok run
  obtain ⟨outputs, decrypted, run⟩ := bind_ok run
  have transferred := lift_ok transferred
  have decrypted := lift_ok decrypted
  cases run
  refine ⟨rfl, rfl, ?_⟩
  cases role with
  | Receiver =>
    obtain ⟨c, copied, done⟩ := bind_ok first
    cases done
    obtain ⟨kmsg, sentKeys, waiting, sent⟩ := asyncSendCopy_ok copied
    obtain ⟨m2, isM2, incoming, rest⟩ := recv_ok second
    subst isM2
    rw [waiting] at incoming
    refine ⟨kmsg, [], [], m2, c2.incoming, ?_, incoming⟩
    have notSender : OTRole.Receiver.has .Sender = false := rfl
    exact ⟨rest.trans sent, fun _ => sentKeys, by simp [notSender], by simp [notSender],
      fun _ => decrypted⟩
  | Sender =>
    obtain ⟨m1, isM1, incoming, none⟩ := recv_ok first
    subst isM1
    obtain ⟨c, copied, done⟩ := bind_ok second
    cases done
    obtain ⟨cmsg, sentCiphertexts, waiting, sent⟩ := asyncSendCopy_ok copied
    rw [none] at sent
    refine ⟨[], cmsg, m1, [], c1.incoming, ?_, incoming⟩
    have notReceiver : OTRole.Sender.has .Receiver = false := rfl
    exact ⟨sent, by simp [notReceiver], fun _ => transferred,
      fun _ => ⟨_, .inl rfl, sentCiphertexts⟩, by simp [notReceiver]⟩
  | Both =>
    obtain ⟨c, copied1, first⟩ := bind_ok first
    obtain ⟨kmsg, sentKeys, waiting1, sent1⟩ := asyncSendCopy_ok copied1
    obtain ⟨m1, isM1, incoming1, none1⟩ := recv_ok first
    subst isM1
    obtain ⟨c', copied2, second⟩ := bind_ok second
    obtain ⟨cmsg, sentCiphertexts, waiting2, sent2⟩ := asyncSendCopy_ok copied2
    obtain ⟨m2, isM2, incoming2, none2⟩ := recv_ok second
    subst isM2
    refine ⟨kmsg, cmsg, m1, m2, c2.incoming, ?_, ?_⟩
    · have sent : c2.sent = [kmsg] ++ [cmsg] := by rw [none2, sent2, none1, sent1, List.nil_append]
      exact ⟨sent, fun _ => sentKeys, fun _ => transferred,
        fun _ => ⟨_, .inr rfl, sentCiphertexts⟩, fun _ => decrypted⟩
    · rw [waiting1] at incoming1
      rw [waiting2] at incoming2
      exact incoming1.trans (congrArg _ incoming2)

theorem exec_base_ok {SHA1 : List Byte → BitVec 160} {strong_init : List UInt8 → csprng}
    {role : OTRole} {G : PRNG} {incoming : List (List Byte)} {a : BaseOT P}
    (run : exec_base M crs SHA1 strong_init role G incoming = .ok a) :
    (∃ RNG G', Exec_OT M crs (BitVector.empty.reset BASE_OT_COUNT) RNG G' ⟨incoming, []⟩ role =
        .ok a.executed) ∧
      a.receiver_inputs = a.executed.OT_Receiver_Inputs ∧
      (role.has .Sender → a.sender_inputs = a.executed.transfers.Miracl_Sender_Inputs.map
        fun m => (hashPoint M SHA1 m.1, hashPoint M SHA1 m.2)) ∧
      (role.has .Receiver → a.receiver_outputs =
        a.executed.outputs.Miracl_Receiver_Outputs.map (hashPoint M SHA1)) := by
  unfold exec_base at run
  rcases drawn : G.getU8s 100 with ⟨data, G'⟩
  rw [drawn] at run
  obtain ⟨e, exec, done⟩ := bind_ok run
  cases done
  exact ⟨⟨_, _, exec⟩, rfl, fun sends => if_pos sends, fun receives => if_pos receives⟩

variable {M}

/-- The points that a party packs as its keys, and in answer to the keys `all` of the other. -/
def keysOf (strong_init : List UInt8 → csprng) (role : OTRole) (G : PRNG) : List P :=
  keyPoints crs (choices (BitVector.empty.reset BASE_OT_COUNT) (G.getU8s 100).2 role)
    (strong_init (G.getU8s 100).1) (passes role .Receiver BASE_OT_COUNT)

def answersOf (strong_init : List UInt8 → csprng) (role : OTRole) (G : PRNG) (all : List P) :
    List P :=
  ciphertextPoints crs all
    ((strong_init (G.getU8s 100).1).drop (passes role .Receiver BASE_OT_COUNT)) BASE_OT_COUNT

theorem exec_OT_of_steps {inputs : BitVector} {RNG : csprng} {G : PRNG} {role : OTRole}
    {c c1 c2 : Channel} {strm1 strm2 : ByteStream} {keys : Keys P} {transfers : Transfers P}
    {outputs : Outputs P}
    (made : keys = makeKeys M crs (choices inputs G role) (passes role .Receiver inputs.size) RNG)
    (first : sendIfOtReceiver c keys.out.strm ByteStream.empty.setp0 role = .ok (strm1, c1))
    (transferred : makeTransfers M crs (passes role .Sender inputs.size) keys.out.strm strm1
      keys.RNG = .ok transfers)
    (second : sendIfOtSender c1 transfers.out.strm transfers.keys.strm.setp0 role =
      .ok (strm2, c2))
    (decrypted : decryptAll M (choices inputs G role) keys.sk (passes role .Receiver inputs.size)
      strm2 = .ok outputs) :
    Exec_OT M crs inputs RNG G c role =
      .ok ⟨choices inputs G role, keys, transfers, outputs, c2⟩ := by
  subst made
  simp only [Exec_OT, first, ok_bind, transferred, lift, Except.mapError, second, decrypted]
  rfl

theorem asyncSendCopy_packed (laws : M.Lawful) {points : List P} (handled : ∀ p ∈ points, p ≠ 0)
    (some : 0 < points.length) (small : points.length ≤ 1024) (c : Channel) :
    c.asyncSendCopy (points.flatMap M.packed) =
      .ok { c with sent := c.sent ++ [points.flatMap M.packed] } := by
  have length := packedAll_length laws handled
  have filled : points.flatMap M.packed ≠ [] := List.length_pos_iff.mp (by omega)
  rw [Channel.asyncSendCopy, BtChannel.asyncSend_small filled (by omega)]
  rfl

theorem exec_OT_total (laws : M.Lawful) {inputs : BitVector} (sized : inputs.size = BASE_OT_COUNT)
    {RNG : csprng} {G : PRNG} {role : OTRole} {others ciphertexts own answers : List P}
    (isOwn : own = keyPoints crs (choices inputs G role) RNG (passes role .Receiver inputs.size))
    (isAnswers : answers = ciphertextPoints crs others
      (RNG.drop (passes role .Receiver inputs.size)) inputs.size)
    (ownHandled : ∀ p ∈ own, p ≠ 0)
    (othersHandled : role.has .Sender →
      (∀ p ∈ others, p ≠ 0) ∧ others.length = 2 * inputs.size ∧ ∀ p ∈ answers, p ≠ 0)
    (ciphertextsHandled : role.has .Receiver →
      (∀ p ∈ ciphertexts, p ≠ 0) ∧ ciphertexts.length = 4 * inputs.size) :
    ∃ e, Exec_OT M crs inputs RNG G
        ⟨(if role.has .Sender then [others.flatMap M.packed] else []) ++
          if role.has .Receiver then [ciphertexts.flatMap M.packed] else [], []⟩ role = .ok e ∧
      e.channel.sent = (if role.has .Receiver then [own.flatMap M.packed] else []) ++
        (if role.has .Sender then [answers.flatMap M.packed] else []) ∧
      e.keys.out.points = own ∧ (role.has .Sender → e.transfers.out.points = answers) := by
  have keyed := makeKeys_keyed M crs (choices inputs G role) (passes role .Receiver inputs.size) RNG
  obtain ⟨keys, made⟩ : ∃ keys, keys =
    makeKeys M crs (choices inputs G role) (passes role .Receiver inputs.size) RNG := ⟨_, rfl⟩
  rw [← made] at keyed
  have points := keyed.points.trans isOwn.symm
  have ownCount := congrArg List.length isOwn
  rw [keyPoints_length] at ownCount
  have strm : keys.out.strm = ⟨own.flatMap M.packed, 0⟩ := by rw [keyed.wrote, points]
  have answersCount := congrArg List.length isAnswers
  rw [ciphertextPoints_length, sized] at answersCount
  have sendKeys (receives : role.has .Receiver) (c : Channel) :
      c.asyncSendCopy keys.out.strm.unread =
      .ok { c with sent := c.sent ++ [own.flatMap M.packed] } := by
    rw [passes, if_pos receives, sized] at ownCount
    rw [strm]
    exact asyncSendCopy_packed laws ownHandled (by rw [ownCount]; decide)
      (by rw [ownCount]; decide) c
  have answer (sends : role.has .Sender) : ∃ transfers,
      makeTransfers M crs inputs.size keys.out.strm (.received (others.flatMap M.packed)) keys.RNG =
        .ok transfers ∧ transfers.out = ⟨⟨answers.flatMap M.packed, 0⟩, answers⟩ ∧
      ∀ c : Channel, c.asyncSendCopy (answers.flatMap M.packed) =
        .ok { c with sent := c.sent ++ [answers.flatMap M.packed] } := by
    obtain ⟨handled, count, answersHandled⟩ := othersHandled sends
    obtain ⟨transfers, run, answered⟩ := makeTransfers_answered crs laws handled count keys.out.strm
      keys.RNG
    have listed : transfers.out.points = answers := by
      rw [answered.points, isAnswers, keyed.rest]
    have out : transfers.out = ⟨⟨answers.flatMap M.packed, 0⟩, answers⟩ := by
      rw [← listed, ← answered.wrote]
    refine ⟨transfers, run, out, fun c => ?_⟩
    exact asyncSendCopy_packed laws answersHandled (by rw [answersCount]; decide)
      (by rw [answersCount]; decide) c
  have decrypt (receives : role.has .Receiver) : ∃ outputs,
      decryptAll M (choices inputs G role) keys.sk inputs.size
        (.received (ciphertexts.flatMap M.packed)) = .ok outputs := by
    obtain ⟨handled, count⟩ := ciphertextsHandled receives
    obtain ⟨outputs, run, -⟩ := decryptAll_decrypted laws handled (choices inputs G role) keys.sk
      count
    exact ⟨outputs, run⟩
  cases role with
  | Receiver =>
    obtain ⟨outputs, decrypted⟩ := decrypt rfl
    have first : sendIfOtReceiver ⟨[ciphertexts.flatMap M.packed], []⟩ keys.out.strm
        ByteStream.empty.setp0 .Receiver =
          .ok (ByteStream.empty.setp0,
            ⟨[ciphertexts.flatMap M.packed], [own.flatMap M.packed]⟩) := by
      rw [sendIfOtReceiver, sendKeys rfl]
      rfl
    have notSender : OTRole.Receiver.has .Sender = false := rfl
    exact ⟨_, exec_OT_of_steps crs made first rfl rfl decrypted, rfl, points, by simp [notSender]⟩
  | Sender =>
    obtain ⟨transfers, transferred, out, sendAnswers⟩ := answer rfl
    have second : sendIfOtSender ⟨[], []⟩ transfers.out.strm transfers.keys.strm.setp0 .Sender =
        .ok (transfers.keys.strm.setp0, ⟨[], [answers.flatMap M.packed]⟩) := by
      rw [sendIfOtSender, out, sendAnswers]
      rfl
    exact ⟨_, exec_OT_of_steps crs made rfl transferred second rfl, rfl, points,
      fun _ => congrArg Logged.points out⟩
  | Both =>
    obtain ⟨transfers, transferred, out, sendAnswers⟩ := answer rfl
    obtain ⟨outputs, decrypted⟩ := decrypt rfl
    have first : sendIfOtReceiver ⟨[others.flatMap M.packed, ciphertexts.flatMap M.packed], []⟩
        keys.out.strm ByteStream.empty.setp0 .Both =
          .ok (.received (others.flatMap M.packed),
            ⟨[ciphertexts.flatMap M.packed], [own.flatMap M.packed]⟩) := by
      rw [sendIfOtReceiver, sendKeys rfl]
      rfl
    have second : sendIfOtSender ⟨[ciphertexts.flatMap M.packed], [own.flatMap M.packed]⟩
        transfers.out.strm transfers.keys.strm.setp0 .Both =
          .ok (.received (ciphertexts.flatMap M.packed),
            ⟨[], [own.flatMap M.packed, answers.flatMap M.packed]⟩) := by
      rw [sendIfOtSender, out]
      change (Channel.asyncSendCopy _ (answers.flatMap M.packed) >>= _) = _
      rw [sendAnswers]
      rfl
    exact ⟨_, exec_OT_of_steps crs made first transferred second decrypted, rfl, points,
      fun _ => congrArg Logged.points out⟩

theorem exec_base_of_exec (SHA1 : List Byte → BitVec 160) {strong_init : List UInt8 → csprng}
    {role : OTRole} {G : PRNG} {incoming : List (List Byte)} {e : Executed P}
    (run : Exec_OT M crs (BitVector.empty.reset BASE_OT_COUNT) (strong_init (G.getU8s 100).1)
      (G.getU8s 100).2 ⟨incoming, []⟩ role = .ok e) :
    ∃ a, exec_base M crs SHA1 strong_init role G incoming = .ok a ∧ a.executed = e := by
  unfold exec_base
  rcases drawn : G.getU8s 100 with ⟨data, G'⟩
  rw [drawn] at run
  dsimp only at run ⊢
  rw [run]
  exact ⟨_, rfl, rfl⟩

theorem exec_base_completes (laws : M.Lawful) {SHA1 : List Byte → BitVec 160}
    {strong_init : List UInt8 → csprng} {role : OTRole} {GA GB : PRNG} {keysA keysB : List P}
    (isKeysA : keysA = keysOf crs strong_init role GA)
    (isKeysB : keysB = keysOf crs strong_init (INV_ROLE role) GB)
    (handledA : ∀ p ∈ keysA, p ≠ 0) (handledB : ∀ p ∈ keysB, p ≠ 0)
    (answersA : role.has .Sender → ∀ p ∈ answersOf crs strong_init role GA keysB, p ≠ 0)
    (answersB : role.has .Receiver →
      ∀ p ∈ answersOf crs strong_init (INV_ROLE role) GB keysA, p ≠ 0) :
    ∃ a b, exec_base M crs SHA1 strong_init role GA b.executed.channel.sent = .ok a ∧
      exec_base M crs SHA1 strong_init (INV_ROLE role) GB a.executed.channel.sent = .ok b ∧
      a.executed.keys.out.points = keysA ∧ b.executed.keys.out.points = keysB ∧
      (role.has .Sender →
        a.executed.transfers.out.points = answersOf crs strong_init role GA keysB) ∧
      (role.has .Receiver →
        b.executed.transfers.out.points = answersOf crs strong_init (INV_ROLE role) GB keysA) := by
  have receivesB : (INV_ROLE role).has .Receiver = role.has .Sender := by cases role <;> rfl
  have sendsB : (INV_ROLE role).has .Sender = role.has .Receiver := by cases role <;> rfl
  have sized : (BitVector.empty.reset BASE_OT_COUNT).size = BASE_OT_COUNT := rfl
  have lengthA := congrArg List.length isKeysA
  have lengthB := congrArg List.length isKeysB
  rw [keysOf, keyPoints_length, passes] at lengthA lengthB
  rw [receivesB] at lengthB
  obtain ⟨ctA, isCtA⟩ : ∃ ctA, ctA = answersOf crs strong_init role GA keysB := ⟨_, rfl⟩
  obtain ⟨ctB, isCtB⟩ : ∃ ctB, ctB = answersOf crs strong_init (INV_ROLE role) GB keysA :=
    ⟨_, rfl⟩
  have countA : ctA.length = 4 * BASE_OT_COUNT := by rw [isCtA, answersOf, ciphertextPoints_length]
  have countB : ctB.length = 4 * BASE_OT_COUNT := by rw [isCtB, answersOf, ciphertextPoints_length]
  rw [← isCtA] at answersA ⊢
  rw [← isCtB] at answersB ⊢
  obtain ⟨eA, execA, sentA, pointsA, transfersA⟩ := exec_OT_total crs laws sized isKeysA isCtA
    handledA (fun sends => ⟨handledB, by rw [lengthB, if_pos sends]; rfl, answersA sends⟩)
    (fun receives => ⟨answersB receives, countB⟩)
  obtain ⟨eB, execB, sentB, pointsB, transfersB⟩ := exec_OT_total crs laws sized isKeysB isCtB
    handledB (fun sends => ⟨handledA, by rw [lengthA, if_pos (sendsB ▸ sends)]; rfl,
      answersB (sendsB ▸ sends)⟩)
    (fun receives => ⟨answersA (receivesB ▸ receives), countA⟩)
  rw [receivesB, sendsB] at sentB execB
  rw [sendsB] at transfersB
  rw [← sentB] at execA
  rw [← sentA] at execB
  obtain ⟨a, runA, isA⟩ := exec_base_of_exec crs SHA1 execA
  obtain ⟨b, runB, isB⟩ := exec_base_of_exec crs SHA1 execB
  subst isA isB
  exact ⟨a, b, runA, runB, pointsA, pointsB, transfersA, transfersB⟩

def curveOrder : Nat :=
  0xFFFFFFFF00000000FFFFFFFFFFFFFFFFBCE6FAADA7179E84F3B9CAC2FC632551

instance : NeZero curveOrder := ⟨by decide⟩

/-- Points by their logarithms, which also are their first coordinates; numbers as bytes, highest
    first. -/
def logarithms : Miracl (ZMod curveOrder) where
  get p := (p.val, 0)
  ECn x _ := x
  toBinary z := (Nat.digits 256 z).reverse.map (BitVec.ofNat 8)
  fromBinary bytes := Nat.ofDigits 256 (bytes.reverse.map BitVec.toNat)

theorem logarithms_lawful : logarithms.Lawful where
  coordinates p _ := ZMod.natCast_zmod_val p
  bounded p _ := ⟨(ZMod.val_lt p).trans (by decide), Nat.two_pow_pos 400⟩
  fits z small := by
    rw [logarithms, List.length_map, List.length_reverse]
    exact (Nat.digits_length_le_iff (by decide) z).mpr small
  roundTrip z _ := by
    simp only [logarithms, ← List.map_reverse, List.reverse_reverse, List.map_map]
    have same : (Nat.digits 256 z).map (BitVec.toNat ∘ BitVec.ofNat 8) = Nat.digits 256 z := by
      refine (List.map_congr_left fun d listed => ?_).trans (List.map_id _)
      exact Nat.mod_eq_of_lt (Nat.digits_lt_base (by decide) listed)
    rw [same, Nat.ofDigits_digits]

def smallCRS : CRS (ZMod curveOrder) where
  g branch := ((if branch then 3 else 1 : Nat) : ZMod curveOrder)
  h branch := ((if branch then 4 else 2 : Nat) : ZMod curveOrder)

theorem small_ne_zero {k : Nat} (some : 0 < k) (small : k < 1000) :
    ((k : Nat) : ZMod curveOrder) ≠ 0 := by
  rw [Ne, ZMod.natCast_eq_zero_iff]
  intro divides
  have large := Nat.le_of_dvd some divides
  have order : 1000 ≤ curveOrder := by decide
  omega

theorem smallCRS_keys (bits : BitVector) (n : Nat) :
    ∀ p ∈ keyPoints smallCRS bits (Stream'.const 1) n, p ≠ 0 := by
  intro p listed
  obtain ⟨i, -, listed⟩ := List.mem_flatMap.mp listed
  have points : p = (1 : Nat) ∨ p = (2 : Nat) ∨ p = (3 : Nat) ∨ p = (4 : Nat) := by
    cases choice : bits.get i <;> simp [keyPair, publicKey, smallCRS, choice] at listed ⊢ <;> tauto
  rcases points with rfl | rfl | rfl | rfl <;> exact small_ne_zero (by decide) (by decide)

theorem smallCRS_answers (bits : BitVector) (n : Nat) :
    ∀ p ∈ ciphertextPoints smallCRS (keyPoints smallCRS bits (Stream'.const 1) n)
      (Stream'.const 1) n, p ≠ 0 := by
  intro p listed
  obtain ⟨i, inside, listed⟩ := List.mem_flatMap.mp listed
  rw [transferAt_keyPoints smallCRS _ _ _ (List.mem_range.mp inside), Stream'.drop_const] at listed
  have points : p = (3 : Nat) ∨ p = (4 : Nat) ∨ p = (7 : Nat) ∨ p = (8 : Nat) := by
    cases choice : bits.get i <;>
      simp [transfer, publicKey, PK.Encrypt, Randomize, strongRand, smallCRS, choice,
        Stream'.tail_const, Stream'.head, Stream'.get_const] at listed ⊢ <;>
      norm_num at listed <;> tauto
  rcases points with rfl | rfl | rfl | rfl <;> exact small_ne_zero (by decide) (by decide)

theorem asyncSend_packed (laws : M.Lawful) {points : List P} (handled : ∀ p ∈ points, p ≠ 0)
    (some : 0 < points.length) (small : points.length ≤ 1024) {message : List Byte}
    (sent : BtChannel.asyncSend (points.flatMap M.packed) = .ok message) :
    message = points.flatMap M.packed := by
  have length := packedAll_length laws handled
  have filled : points.flatMap M.packed ≠ [] := List.length_pos_iff.mp (by omega)
  rw [BtChannel.asyncSend_small filled (by omega)] at sent
  cases sent
  rfl

/-- In a run in which both parties return, the sender has unpacked the keys of the receiver, the
    receiver the ciphertexts of the sender, and the outputs are the inputs of its choice. -/
theorem exec_base_correct (laws : M.Lawful) {SHA1 : List Byte → BitVec 160}
    {strong_init : List UInt8 → csprng}
    {roleA roleB : OTRole} (receives : roleA.has .Receiver) (sends : roleB.has .Sender)
    {GA GB : PRNG} {a b : BaseOT P}
    (runA : exec_base M crs SHA1 strong_init roleA GA b.executed.channel.sent = .ok a)
    (runB : exec_base M crs SHA1 strong_init roleB GB a.executed.channel.sent = .ok b)
    (handled : ∀ p ∈ a.executed.keys.out.points ++ b.executed.transfers.out.points, p ≠ 0) :
    b.executed.transfers.keys.points = a.executed.keys.out.points ∧
      a.executed.outputs.ciphertexts.points = b.executed.transfers.out.points ∧
      ∀ i < BASE_OT_COUNT, a.receiver_outputs.getD i 0 =
        if a.receiver_inputs.get i then (b.sender_inputs.getD i (0, 0)).2
        else (b.sender_inputs.getD i (0, 0)).1 := by
  obtain ⟨⟨RNGA, GA', execA⟩, inputsA, -, outputsA⟩ := exec_base_ok M crs runA
  obtain ⟨⟨RNGB, GB', execB⟩, -, inputsB, -⟩ := exec_base_ok M crs runB
  obtain ⟨bits, keys, kmsgA, cmsgA, m1A, m2A, restA, ranA, incomingA⟩ := exec_OT_ran M crs execA
  obtain ⟨-, -, kmsgB, cmsgB, m1B, m2B, restB, ranB, incomingB⟩ := exec_OT_ran M crs execB
  have handledKeys := fun p listed => handled p (List.mem_append_left _ listed)
  have handledCiphertexts := fun p listed => handled p (List.mem_append_right _ listed)
  have toB := ranA.sent.symm.trans incomingB
  have toA := ranB.sent.symm.trans incomingA
  rw [if_pos receives, if_pos sends] at toA toB
  have firstB : m1B = kmsgA := (List.cons.inj toB).1.symm
  have lastA : m2A = cmsgB := by
    have countB := congrArg List.length toB
    have countA := congrArg List.length toA
    -- A party that returns has received as many messages as its role asks for.
    cases alsoSends : roleA.has .Sender <;> cases alsoReceives : roleB.has .Receiver
    · simp only [alsoSends, alsoReceives] at toA
      exact (List.cons.inj toA).1.symm
    · simp [alsoSends, alsoReceives] at countB
    · simp [alsoSends, alsoReceives] at countA
    · simp only [alsoSends, alsoReceives] at toA
      exact (List.cons.inj (List.cons.inj toA).2).1.symm
  subst firstB lastA
  have keyed := makeKeys_keyed M crs (choices (BitVector.empty.reset BASE_OT_COUNT) GA' roleA)
    BASE_OT_COUNT RNGA
  have isKeys : makeKeys M crs (choices (BitVector.empty.reset BASE_OT_COUNT) GA' roleA)
      BASE_OT_COUNT RNGA = a.executed.keys := by
    rw [keys, passes, if_pos receives]
    rfl
  rw [isKeys, ← bits] at keyed
  have keyCount : a.executed.keys.out.points.length = 2 * BASE_OT_COUNT := by
    rw [keyed.points, keyPoints_length]
  have sentKeys := ranA.sentKeys receives
  rw [ByteStream.unread, keyed.wrote] at sentKeys
  have keysMessage := asyncSend_packed laws handledKeys (by rw [keyCount]; decide)
    (by rw [keyCount]; decide) sentKeys
  have transferred := ranB.transfers sends
  rw [keysMessage] at transferred
  obtain ⟨transfers, run, answered⟩ := makeTransfers_answered crs laws handledKeys keyCount
    b.executed.keys.out.strm b.executed.keys.RNG
  have same := Except.ok.inj (run.symm.trans transferred)
  subst same
  have ciphertextCount : b.executed.transfers.out.points.length = 4 * BASE_OT_COUNT := by
    rw [answered.points, ciphertextPoints_length]
  have ciphertexts : m2A = b.executed.transfers.out.points.flatMap M.packed := by
    obtain ⟨data, isData, sent⟩ := ranB.sentCiphertexts sends
    rw [ByteStream.unread, answered.wrote] at isData
    have whole : data = b.executed.transfers.out.points.flatMap M.packed := by
      rcases isData with rfl | rfl <;> rfl
    rw [whole] at sent
    exact asyncSend_packed laws handledCiphertexts (by rw [ciphertextCount]; decide)
      (by rw [ciphertextCount]; decide) sent
  have decryptedRun := ranA.outputs receives
  rw [ciphertexts] at decryptedRun
  obtain ⟨outputs, run, decrypted⟩ := decryptAll_decrypted laws handledCiphertexts
    a.executed.OT_Receiver_Inputs a.executed.keys.sk ciphertextCount
  have same := Except.ok.inj (run.symm.trans decryptedRun)
  subst same
  refine ⟨reads_all answered.reads (answered.unpacked.trans keyCount.symm),
    reads_all decrypted.reads (decrypted.unpacked.trans ciphertextCount.symm), ?_⟩
  intro i inside
  have output := decrypted.outputs i inside
  rw [keyed.secret i inside] at output
  have points := answered.points
  rw [keyed.points] at points
  rw [outputsA receives, inputsB sends, inputsA,
    Lists.getD_map _ (by rw [decrypted.sized]; exact inside) 0,
    Lists.getD_map _ (by rw [answered.sized]; exact inside) (0, 0), output,
    decrypt_transfer crs _ _ _ inside points, answered.inputs i inside, keyed.points]
  split <;> rfl

theorem exec_base_correct_both : ∃ a b : BaseOT (ZMod curveOrder),
    exec_base logarithms smallCRS (fun data => BitVec.ofNat 160 data.length)
      (fun _ => Stream'.const 1) .Both (Stream'.const 90) b.executed.channel.sent = .ok a ∧
    exec_base logarithms smallCRS (fun data => BitVec.ofNat 160 data.length)
      (fun _ => Stream'.const 1) .Both (Stream'.const 60) a.executed.channel.sent = .ok b ∧
    b.executed.transfers.keys.points = a.executed.keys.out.points ∧
    a.executed.outputs.ciphertexts.points = b.executed.transfers.out.points ∧
    ∀ i < BASE_OT_COUNT, a.receiver_outputs.getD i 0 =
      if a.receiver_inputs.get i then (b.sender_inputs.getD i (0, 0)).2
      else (b.sender_inputs.getD i (0, 0)).1 := by
  have answers (bits : BitVector) := smallCRS_answers bits BASE_OT_COUNT
  obtain ⟨a, b, runA, runB, keysA, -, -, answersB⟩ := @exec_base_completes _ _ logarithms smallCRS
    logarithms_lawful (fun data => BitVec.ofNat 160 data.length) (fun _ => Stream'.const 1) .Both
    (Stream'.const 90) (Stream'.const 60) _ _ rfl rfl (smallCRS_keys _ _) (smallCRS_keys _ _)
    (fun _ => answers _) (fun _ => answers _)
  have handled : ∀ p ∈ a.executed.keys.out.points ++ b.executed.transfers.out.points, p ≠ 0 := by
    rw [keysA, answersB rfl]
    intro p listed
    rcases List.mem_append.mp listed with key | answer
    · exact smallCRS_keys _ _ p key
    · exact answers _ p answer
  exact ⟨a, b, runA, runB, exec_base_correct smallCRS logarithms_lawful rfl rfl runA runB handled⟩

end BaseOT

end BatchDualEx
