import BatchDualEx.OT.BaseOTCorrect

/- The sender of `Exec_OT` against a receiver that may send anything: what it reads depends on the
   message alone, and what it answers on the points it has read and on its exponents. -/
namespace BatchDualEx

open Bytes Result

namespace BaseOT

variable {P : Type} [AddCommGroup P] (M : Miracl P) (crs : CRS P)

def readKey (keys : Logged P) (_ : ℕ) : Except Fault (Logged P) := do
  let (_, keys) ← keys.unpack M
  let (_, keys) ← keys.unpack M
  return keys

def readKeys (n : ℕ) (strm1 : ByteStream) : Except Fault (Logged P) :=
  (List.range n).foldlM (readKey M) ⟨strm1, []⟩

def answered (n : ℕ) (RNG : csprng) (k : ℕ) (keys : Logged P) : Transfers P where
  keys := keys
  out := ⟨⟨(ciphertextPoints crs keys.points RNG k).flatMap M.packed, 0⟩,
    ciphertextPoints crs keys.points RNG k⟩
  Miracl_Sender_Inputs := (List.range n).map fun i =>
    if i < k then (transferAt crs keys.points RNG i).1 else (0, 0)
  RNG := RNG.drop (6 * k)

theorem transferAt_append {keys : List P} {i : ℕ} (read : 2 * i + 2 ≤ keys.length) (more : List P)
    (RNG : csprng) : transferAt crs (keys ++ more) RNG i = transferAt crs keys RNG i := by
  rw [transferAt, List.getD_append _ _ _ _ (by omega), List.getD_append _ _ _ _ (by omega),
    transferAt]

omit [AddCommGroup P] in
theorem unpack_points {s s' : Logged P} {p : P} (run : s.unpack M = .ok (p, s')) :
    s'.points = s.points ++ [p] := by
  obtain ⟨⟨p', strm⟩, -, done⟩ := bind_ok run
  cases done
  rfl

theorem transferStep_eq (s : Transfers P) (i : ℕ) : transferStep M crs s i = (do
    let (g, keys) ← s.keys.unpack M
    let (h, keys) ← keys.unpack M
    return ⟨keys, (transfer crs ⟨g, h⟩ s.RNG).2.foldl (Logged.pack M) s.out,
      s.Miracl_Sender_Inputs.set i (transfer crs ⟨g, h⟩ s.RNG).1, s.RNG.drop 6⟩) := rfl

omit [AddCommGroup P] in
theorem foldl_pack (points : List P) (out : List P) :
    points.foldl (Logged.pack M) ⟨⟨out.flatMap M.packed, 0⟩, out⟩ =
      ⟨⟨(out ++ points).flatMap M.packed, 0⟩, out ++ points⟩ := by
  induction points generalizing out with
  | nil => simp
  | cons p points ih =>
    have packed : Logged.pack M ⟨⟨out.flatMap M.packed, 0⟩, out⟩ p =
        ⟨⟨(out ++ [p]).flatMap M.packed, 0⟩, out ++ [p]⟩ := by
      simp [Logged.pack, Miracl.pack_eq]
    rw [List.foldl_cons, packed, ih]
    simp

theorem answered_succ {n k : ℕ} (RNG : csprng) (below : k < n) {keys keys' : Logged P} {g h : P}
    (read : keys.points.length = 2 * k) (grown : keys'.points = keys.points ++ [g] ++ [h]) :
    answered M crs n RNG (k + 1) keys' =
      ⟨keys', (transfer crs ⟨g, h⟩ (RNG.drop (6 * k))).2.foldl (Logged.pack M)
          (answered M crs n RNG k keys).out,
        (answered M crs n RNG k keys).Miracl_Sender_Inputs.set k
          (transfer crs ⟨g, h⟩ (RNG.drop (6 * k))).1,
        (answered M crs n RNG k keys).RNG.drop 6⟩ := by
  have last : transferAt crs keys'.points RNG k = transfer crs ⟨g, h⟩ (RNG.drop (6 * k)) := by
    rw [transferAt, grown]
    have first : (keys.points ++ [g] ++ [h]).getD (2 * k) 0 = g := by simp [← read]
    have second : (keys.points ++ [g] ++ [h]).getD (2 * k + 1) 0 = h := by simp [← read]
    rw [first, second]
  have earlier (i : ℕ) (inside : i < k) :
      transferAt crs keys'.points RNG i = transferAt crs keys.points RNG i := by
    rw [grown, List.append_assoc]
    exact transferAt_append crs (by omega) _ RNG
  have points : ciphertextPoints crs keys'.points RNG (k + 1) =
      ciphertextPoints crs keys.points RNG k ++ (transfer crs ⟨g, h⟩ (RNG.drop (6 * k))).2 := by
    rw [ciphertextPoints, List.range_succ, List.flatMap_append, List.flatMap_singleton, last,
      ciphertextPoints]
    congr 1
    exact List.flatMap_congr fun i listed => by rw [earlier i (List.mem_range.mp listed)]
  have inputs : (answered M crs n RNG (k + 1) keys').Miracl_Sender_Inputs =
      (answered M crs n RNG k keys).Miracl_Sender_Inputs.set k
        (transfer crs ⟨g, h⟩ (RNG.drop (6 * k))).1 := by
    apply Lists.ext_getD (0, 0) (by simp [answered])
    intro i inside
    have inside : i < n := by simpa [answered] using inside
    have sized : k < (answered M crs n RNG k keys).Miracl_Sender_Inputs.length := by
      simpa [answered] using below
    by_cases here : i = k
    · rw [here, Lists.getD_set_self sized, answered, Lists.map_range_getD _ _ below,
        if_pos (Nat.lt_succ_self k), last]
    · rw [Lists.getD_set_ne _ (Ne.symm here), answered, answered, Lists.map_range_getD _ _ inside,
        Lists.map_range_getD _ _ inside]
      by_cases before : i < k
      · rw [if_pos (by omega), if_pos before, earlier i before]
      · rw [if_neg (by omega), if_neg before]
  have rest : RNG.drop (6 * (k + 1)) = (RNG.drop (6 * k)).drop 6 := by
    rw [Stream'.drop_drop, Nat.mul_succ, Nat.add_comm]
  rw [← inputs]
  simp only [answered, foldl_pack, points, rest]

theorem transferStep_answered_eq {n k : ℕ} (RNG : csprng) (below : k < n) {keys : Logged P}
    (read : keys.points.length = 2 * k) :
    transferStep M crs (answered M crs n RNG k keys) k =
      (readKey M keys k).map (answered M crs n RNG (k + 1)) := by
  rw [transferStep_eq, readKey]
  change (keys.unpack M >>= _) = Except.map _ (keys.unpack M >>= _)
  rcases first : keys.unpack M with f | ⟨g, keys₁⟩
  · rfl
  simp only [ok_bind]
  rcases second : keys₁.unpack M with f | ⟨h, keys₂⟩
  · rfl
  have grown : keys₂.points = keys.points ++ [g] ++ [h] := by
    rw [unpack_points M second, unpack_points M first]
  exact congrArg Except.ok (answered_succ M crs RNG below read grown).symm

omit [AddCommGroup P] in
theorem readKey_points {keys keys' : Logged P} {i : ℕ} (run : readKey M keys i = .ok keys') :
    keys'.points.length = keys.points.length + 2 := by
  obtain ⟨⟨g, keys₁⟩, first, run⟩ := bind_ok run
  obtain ⟨⟨h, keys₂⟩, second, done⟩ := bind_ok run
  cases done
  simp [unpack_points M second, unpack_points M first]

omit [AddCommGroup P] in
theorem readKeys_points {n : ℕ} {strm1 : ByteStream} {keys : Logged P}
    (run : readKeys M n strm1 = .ok keys) : keys.points.length = 2 * n := by
  apply foldlM_range_ok (fun k (keys : Logged P) => keys.points.length = 2 * k) _ run rfl
  intro k _ keys keys' read step
  rw [readKey_points M step, read, Nat.mul_succ]

/-- The answers of the sender do not change what it reads. -/
theorem makeTransfers_eq (n : ℕ) (strm0 strm1 : ByteStream) (RNG : csprng) :
    makeTransfers M crs n strm0 strm1 RNG =
      (readKeys M n strm1).map (answered M crs n RNG n) := by
  have start : (⟨⟨strm1, []⟩, ⟨strm0.setp0, []⟩, List.replicate n (0, 0), RNG⟩ : Transfers P) =
      answered M crs n RNG 0 ⟨strm1, []⟩ := by
    have inputs : List.replicate n ((0, 0) : P × P) = (List.range n).map fun _ => (0, 0) := by simp
    rw [ByteStream.setp0_eq, inputs]
    rfl
  have passes (k : ℕ) (inside : k ≤ n) :
      (List.range k).foldlM (transferStep M crs) (answered M crs n RNG 0 ⟨strm1, []⟩) =
        (readKeys M k strm1).map (answered M crs n RNG k) := by
    induction k with
    | zero => rfl
    | succ k ih =>
      rw [readKeys, List.range_succ, List.foldlM_append, List.foldlM_append, ih (by omega)]
      change _ = ((readKeys M k strm1) >>= _).map _
      cases run : readKeys M k strm1 with
      | error f => rfl
      | ok keys =>
        have step := transferStep_answered_eq M crs RNG inside (readKeys_points M run)
        simp only [Except.map, ok_bind, List.foldlM_cons, List.foldlM_nil, step]
        cases readKey M keys k <;> rfl
  rw [makeTransfers, start, passes n (Nat.le_refl n)]

theorem answered_inputs_getD (n : ℕ) (RNG : csprng) (keys : Logged P) {i : ℕ} (below : i < n) :
    (answered M crs n RNG n keys).Miracl_Sender_Inputs.getD i (0, 0) =
      (transferAt crs keys.points RNG i).1 := by
  rw [answered, Lists.map_range_getD _ _ below, if_pos below]

theorem exec_OT_sender {inputs : BitVector} {RNG : csprng} {G : PRNG}
    {incoming : List (List Byte)} {e : Executed P}
    (run : Exec_OT M crs inputs RNG G ⟨incoming, []⟩ .Sender = .ok e) :
    ∃ message rest keys sent, incoming = message :: rest ∧
      readKeys M inputs.size (.received message) = .ok keys ∧
      e.transfers = answered M crs inputs.size RNG inputs.size keys ∧
      BtChannel.asyncSend e.transfers.out.strm.mData = .ok sent := by
  obtain ⟨-, made, kmsg, cmsg, m1, m2, rest, ran, waiting⟩ := exec_OT_ran M crs run
  have noKeys : passes .Sender .Receiver inputs.size = 0 := rfl
  rw [noKeys] at made
  have rng : e.keys.RNG = RNG := by
    rw [made]
    rfl
  have transferred := ran.transfers rfl
  rw [rng, makeTransfers_eq] at transferred
  obtain ⟨data, whole, sent⟩ := ran.sentCiphertexts rfl
  cases read : readKeys M inputs.size (.received m1) with
  | error f =>
    rw [read] at transferred
    cases transferred
  | ok keys =>
    rw [read] at transferred
    have isTransfers : answered M crs inputs.size RNG inputs.size keys = e.transfers :=
      Except.ok.inj transferred
    have all : data = e.transfers.out.strm.mData := by
      rcases whole with same | same
      · exact same
      · rw [same, ← isTransfers]
        rfl
    exact ⟨m1, rest, keys, cmsg, waiting, read, isTransfers.symm, all ▸ sent⟩

theorem exec_OT_sender_total {inputs : BitVector} (RNG : csprng) (G : PRNG)
    {message sent : List Byte} (rest : List (List Byte)) {keys : Logged P}
    (read : readKeys M inputs.size (.received message) = .ok keys)
    (sends : BtChannel.asyncSend
      (answered M crs inputs.size RNG inputs.size keys).out.strm.mData = .ok sent) :
    ∃ e, Exec_OT M crs inputs RNG G ⟨message :: rest, []⟩ .Sender = .ok e ∧
      e.transfers = answered M crs inputs.size RNG inputs.size keys := by
  have transferred : makeTransfers M crs inputs.size
      (makeKeys M crs (choices inputs G .Sender) (passes .Sender .Receiver inputs.size)
        RNG).out.strm
      (.received message) RNG = .ok (answered M crs inputs.size RNG inputs.size keys) := by
    rw [makeTransfers_eq, read]
    rfl
  have second : sendIfOtSender ⟨rest, []⟩
      (answered M crs inputs.size RNG inputs.size keys).out.strm keys.strm.setp0 .Sender =
        .ok (keys.strm.setp0, ⟨rest, [sent]⟩) := by
    rw [sendIfOtSender, Channel.asyncSendCopy, sends]
    rfl
  exact ⟨_, exec_OT_of_steps crs rfl rfl transferred second rfl, rfl⟩

end BaseOT

end BatchDualEx
