import BatchDualEx.OT.BaseOT
import Mathlib.Tactic.Abel

/- The loops of `Exec_OT`: which points they pack, that the points packed by one party are those
   unpacked by the other, and what is decrypted. -/
namespace BatchDualEx

open Bytes Result

/-- What is assumed of MIRACL's conversions. -/
structure Miracl.Lawful {P : Type} [Zero P] (M : Miracl P) : Prop where
  coordinates : ∀ p ≠ 0, M.ECn (M.get p).1 (M.get p).2 = p
  bounded : ∀ p ≠ 0, (M.get p).1 < 2 ^ 400 ∧ (M.get p).2 < 2 ^ 400
  fits : ∀ z < 2 ^ 400, (M.toBinary z).length ≤ 50
  roundTrip : ∀ z < 2 ^ 400, M.fromBinary (M.toBinary z) = z

section

variable {P : Type} [AddCommGroup P] {crs : CRS P}

def Encrypts (crs : CRS P) (pk : PK P) (branch : Bool) (m c0 c1 : P) : Prop :=
  ∃ s t : Nat, c0 = s • crs.g branch + t • crs.h branch ∧ c1 = s • pk.g + t • pk.h + m

theorem encrypt_encrypts (crs : CRS P) (pk : PK P) (m : P) (branch : Bool) (RNG : csprng) :
    Encrypts crs pk branch m (pk.Encrypt m branch crs RNG).1 (pk.Encrypt m branch crs RNG).2.1 :=
  ⟨_, _, rfl, rfl⟩

theorem decrypt_encrypts {pk : PK P} {sigma : Bool} {sk : Nat} {m c0 c1 : P}
    (first : pk.g = sk • crs.g sigma) (second : pk.h = sk • crs.h sigma)
    (encrypts : Encrypts crs pk sigma m c0 c1) : Decrypt sk c0 c1 = m := by
  obtain ⟨s, t, rfl, rfl⟩ := encrypts
  have left : s • pk.g = sk • s • crs.g sigma := by rw [first, smul_smul, smul_smul, Nat.mul_comm]
  have right : t • pk.h = sk • t • crs.h sigma := by
    rw [second, smul_smul, smul_smul, Nat.mul_comm]
  rw [Decrypt, left, right, smul_add]
  abel

end

section

variable {P : Type} {M : Miracl P}

def Miracl.packed (M : Miracl P) (p : P) : List Byte :=
  ByteStream.stored (M.toBinary (M.get p).1) ++ ByteStream.stored (M.toBinary (M.get p).2)

theorem Miracl.pack_eq (s : ByteStream) (p : P) :
    M.pack s p = { s with mData := s.mData ++ M.packed p } := by
  simp [pack, packBig, packed, ByteStream.storeBytes, ByteStream.stored]

namespace BaseOT

def Wrote (M : Miracl P) (s : Logged P) : Prop := s.strm = ⟨s.points.flatMap M.packed, 0⟩

/-- A stream that holds the points `all`, of which the logged ones have been unpacked. -/
def Reads (M : Miracl P) (all : List P) (s : Logged P) : Prop :=
  ∃ left, all = s.points ++ left ∧ s.strm.unread = left.flatMap M.packed

theorem wrote_pack {s : Logged P} (wrote : Wrote M s) (p : P) : Wrote M (s.pack M p) := by
  unfold Wrote at wrote ⊢
  simp [Logged.pack, Miracl.pack_eq, wrote]

theorem reads_received (all : List P) :
    Reads M all ⟨.received (all.flatMap M.packed), []⟩ := ⟨all, rfl, rfl⟩

theorem reads_all {all : List P} {s : Logged P} (reads : Reads M all s)
    (finished : s.points.length = all.length) : s.points = all := by
  obtain ⟨left, rfl, -⟩ := reads
  rw [List.length_append] at finished
  have none : left.length = 0 := by omega
  rw [List.length_eq_zero_iff.mp none, List.append_nil]

end BaseOT

end

section

variable {P : Type} [Zero P] {M : Miracl P} (laws : M.Lawful)

include laws

theorem Miracl.packed_length {p : P} (point : p ≠ 0) :
    0 < (M.packed p).length ∧ (M.packed p).length ≤ 108 := by
  have x := laws.fits _ (laws.bounded p point).1
  have y := laws.fits _ (laws.bounded p point).2
  simp only [packed, List.length_append, ByteStream.stored_length]
  omega

theorem Miracl.unpackBig_stored {s : ByteStream} {z : Nat} {rest : List Byte}
    (small : z < 2 ^ 400) (ahead : s.unread = ByteStream.stored (M.toBinary z) ++ rest) :
    ∃ s', M.unpackBig s = .ok (z, s') ∧ s'.unread = rest := by
  have length := laws.fits z small
  obtain ⟨s', read, left⟩ := ByteStream.getBytes_stored (by omega) ahead
  refine ⟨s', ?_, left⟩
  rw [unpackBig, read]
  change (require ((M.toBinary z).length ≤ 50) _ >>= fun _ => pure (_, s')) = _
  rw [require_ok_iff.mpr length, laws.roundTrip z small]
  rfl

theorem Miracl.unpack_packed {s : ByteStream} {p : P} {rest : List Byte} (point : p ≠ 0)
    (ahead : s.unread = M.packed p ++ rest) :
    ∃ s', M.unpack s = .ok (p, s') ∧ s'.unread = rest := by
  rw [packed, List.append_assoc] at ahead
  obtain ⟨s1, x, ahead⟩ := unpackBig_stored laws (laws.bounded p point).1 ahead
  obtain ⟨s2, y, ahead⟩ := unpackBig_stored laws (laws.bounded p point).2 ahead
  refine ⟨s2, ?_, ahead⟩
  have made := laws.coordinates p point
  rw [unpack, x]
  change (M.unpackBig s1 >>= fun y => pure (M.ECn (M.get p).1 y.1, y.2)) = _
  rw [y]
  exact congrArg (fun q => Except.ok (q, s2)) made

namespace BaseOT

theorem packedAll_length {points : List P} (handled : ∀ p ∈ points, p ≠ 0) :
    points.length ≤ (points.flatMap M.packed).length ∧
      (points.flatMap M.packed).length ≤ 108 * points.length := by
  induction points with
  | nil => simp
  | cons p points ih =>
    have first := Miracl.packed_length laws (handled p List.mem_cons_self)
    have later := ih fun q listed => handled q (List.mem_cons_of_mem p listed)
    simp only [List.flatMap_cons, List.length_append, List.length_cons]
    omega

theorem unpack_next {all : List P} (handled : ∀ p ∈ all, p ≠ 0) {s : Logged P} {i : Nat}
    (reads : Reads M all s) (unpacked : s.points.length = i) (below : i < all.length) :
    ∃ s', s.unpack M = .ok (all.getD i 0, s') ∧ Reads M all s' ∧ s'.points.length = i + 1 := by
  obtain ⟨left, rfl, ahead⟩ := reads
  cases left with
  | nil =>
    rw [List.append_nil] at below
    omega
  | cons p left =>
    rw [List.flatMap_cons] at ahead
    obtain ⟨strm, read, ahead⟩ := Miracl.unpack_packed laws (handled p (by simp)) ahead
    refine ⟨⟨strm, s.points ++ [p]⟩, ?_, ⟨left, by simp, ahead⟩, by simp [unpacked]⟩
    rw [Logged.unpack, read, List.getD_append_right _ _ _ _ (Nat.le_of_eq unpacked), unpacked,
      Nat.sub_self]
    rfl

end BaseOT

end

namespace BaseOT

variable {P : Type} [AddCommGroup P] (M : Miracl P) (crs : CRS P)

def publicKey (bits : BitVector) (RNG : csprng) (i : Nat) : PK P :=
  ⟨RNG.get i • crs.g (bits.get i), RNG.get i • crs.h (bits.get i)⟩

def keyPair (pk : PK P) : List P := [pk.g, pk.h]

def keyPoints (bits : BitVector) (RNG : csprng) (k : Nat) : List P :=
  (List.range k).flatMap fun i => keyPair (publicKey crs bits RNG i)

/-- After `k` passes of `n` the keys of the first `k` choice bits have been packed. -/
structure Keyed (bits : BitVector) (RNG : csprng) (n k : Nat) (s : Keys P) : Prop where
  wrote : Wrote M s.out
  points : s.out.points = keyPoints crs bits RNG k
  sized : s.sk.length = n
  secret : ∀ i < k, s.sk.getD i 0 = RNG.get i
  rest : s.RNG = RNG.drop k

theorem keyStep_keyed {bits : BitVector} {RNG : csprng} {n k : Nat} (below : k < n) {s : Keys P}
    (keyed : Keyed M crs bits RNG n k s) :
    Keyed M crs bits RNG n (k + 1) (keyStep M crs bits s k) := by
  have drawn : s.RNG.head = RNG.get k := by rw [keyed.rest, Stream'.head_drop]
  have sk : (keyStep M crs bits s k).sk = s.sk.set k (RNG.get k) := by
    rw [← drawn]
    rfl
  refine ⟨wrote_pack (wrote_pack keyed.wrote _) _, ?_, ?_, ?_, ?_⟩
  · rw [keyPoints, List.range_succ, List.flatMap_append, List.flatMap_singleton, publicKey,
      ← drawn]
    change (s.out.points ++ _) ++ _ = _
    rw [keyed.points, keyPoints, List.append_assoc]
    rfl
  · exact (List.length_set ..).trans keyed.sized
  · intro i earlier
    rw [sk]
    by_cases last : i = k
    · subst last
      exact Lists.getD_set_self (by rw [keyed.sized]; exact below) _ _
    · rw [Lists.getD_set_ne _ (Ne.symm last)]
      exact keyed.secret i (by omega)
  · change s.RNG.tail = _
    rw [keyed.rest, Stream'.tail_drop']

theorem makeKeys_keyed (bits : BitVector) (n : Nat) (RNG : csprng) :
    Keyed M crs bits RNG n n (makeKeys M crs bits n RNG) := by
  have passes : ∀ k ≤ n, Keyed M crs bits RNG n k ((List.range k).foldl (keyStep M crs bits)
      { out := ⟨.empty, []⟩, sk := List.replicate n 0, RNG := RNG }) := by
    intro k inside
    induction k with
    | zero =>
      exact ⟨rfl, rfl, List.length_replicate, fun i below => absurd below (Nat.not_lt_zero i), rfl⟩
    | succ k ih =>
      rw [List.range_succ, List.foldl_append]
      exact keyStep_keyed M crs inside (ih (Nat.le_of_succ_le inside))
  exact passes n (Nat.le_refl n)

def transfer (pk : PK P) (RNG : csprng) : (P × P) × List P :=
  let m0 := RNG.head • crs.g false
  let m1 := RNG.tail.head • crs.g false
  let e0 := pk.Encrypt m0 false crs RNG.tail.tail
  let e1 := pk.Encrypt m1 true crs e0.2.2
  ((m0, m1), [e0.1, e0.2.1, e1.1, e1.2.1])

theorem transfer_encrypts (pk : PK P) (RNG : csprng) :
    Encrypts crs pk false (transfer crs pk RNG).1.1 ((transfer crs pk RNG).2.getD 0 0)
        ((transfer crs pk RNG).2.getD 1 0) ∧
      Encrypts crs pk true (transfer crs pk RNG).1.2 ((transfer crs pk RNG).2.getD 2 0)
        ((transfer crs pk RNG).2.getD 3 0) :=
  ⟨encrypt_encrypts crs pk _ false _, encrypt_encrypts crs pk _ true _⟩

/-- The transfer of index `i`, six draws for each before it. -/
def transferAt (all : List P) (RNG : csprng) (i : Nat) : (P × P) × List P :=
  transfer crs ⟨all.getD (2 * i) 0, all.getD (2 * i + 1) 0⟩ (RNG.drop (6 * i))

def ciphertextPoints (all : List P) (RNG : csprng) (k : Nat) : List P :=
  (List.range k).flatMap fun i => (transferAt crs all RNG i).2

theorem keyPoints_length (bits : BitVector) (RNG : csprng) (n : Nat) :
    (keyPoints crs bits RNG n).length = 2 * n := by
  apply Lists.length_flatMap_range
  intro i
  rfl

theorem ciphertextPoints_length (all : List P) (RNG : csprng) (n : Nat) :
    (ciphertextPoints crs all RNG n).length = 4 * n := by
  apply Lists.length_flatMap_range
  intro i
  rfl

theorem transferAt_keyPoints (bits : BitVector) (keyRNG RNG : csprng) {n i : Nat} (inside : i < n) :
    transferAt crs (keyPoints crs bits keyRNG n) RNG i =
      transfer crs (publicKey crs bits keyRNG i) (RNG.drop (6 * i)) := by
  have sized (i : Nat) : (keyPair (publicKey crs bits keyRNG i)).length = 2 := rfl
  have g := Lists.getD_flatMap_range (r := 0) sized inside (by decide) 0
  have h := Lists.getD_flatMap_range (r := 1) sized inside (by decide) 0
  rw [Nat.add_zero] at g
  rw [transferAt, keyPoints, g, h]
  rfl

theorem decrypt_transfer (bits : BitVector) (keyRNG RNG : csprng) {n i : Nat} (inside : i < n)
    {all : List P} (isAll : all = ciphertextPoints crs (keyPoints crs bits keyRNG n) RNG n) :
    (if bits.get i then
      Decrypt (keyRNG.get i) (all.getD (4 * i + 2) 0) (all.getD (4 * i + 3) 0)
    else Decrypt (keyRNG.get i) (all.getD (4 * i) 0) (all.getD (4 * i + 1) 0)) =
      if bits.get i then (transferAt crs (keyPoints crs bits keyRNG n) RNG i).1.2
      else (transferAt crs (keyPoints crs bits keyRNG n) RNG i).1.1 := by
  have entry (r : Nat) (within : r < 4) : all.getD (4 * i + r) 0 =
      (transferAt crs (keyPoints crs bits keyRNG n) RNG i).2.getD r 0 := by
    have sized (i : Nat) :
        (transferAt crs (keyPoints crs bits keyRNG n) RNG i).2.length = 4 := rfl
    rw [isAll]
    exact Lists.getD_flatMap_range sized inside within 0
  have first := entry 0 (by decide)
  rw [Nat.add_zero] at first
  rw [first, entry 1 (by decide), entry 2 (by decide), entry 3 (by decide),
    transferAt_keyPoints crs bits keyRNG RNG inside]
  obtain ⟨zero, one⟩ := transfer_encrypts crs (publicKey crs bits keyRNG i) (RNG.drop (6 * i))
  cases choice : bits.get i
  · exact decrypt_encrypts (by rw [publicKey, choice]) (by rw [publicKey, choice]) zero
  · exact decrypt_encrypts (by rw [publicKey, choice]) (by rw [publicKey, choice]) one

structure Answered (all : List P) (RNG : csprng) (n k : Nat) (s : Transfers P) : Prop where
  reads : Reads M all s.keys
  unpacked : s.keys.points.length = 2 * k
  wrote : Wrote M s.out
  points : s.out.points = ciphertextPoints crs all RNG k
  sized : s.Miracl_Sender_Inputs.length = n
  inputs : ∀ i < k, s.Miracl_Sender_Inputs.getD i (0, 0) = (transferAt crs all RNG i).1
  rest : s.RNG = RNG.drop (6 * k)

variable {M} (laws : M.Lawful)

include laws

theorem transferStep_answered {all : List P} (handled : ∀ p ∈ all, p ≠ 0) {RNG : csprng} {n k : Nat}
    (sized : all.length = 2 * n) (below : k < n) {s : Transfers P}
    (answered : Answered M crs all RNG n k s) :
    ∃ s', transferStep M crs s k = .ok s' ∧ Answered M crs all RNG n (k + 1) s' := by
  obtain ⟨keys1, g, reads, unpacked⟩ :=
    unpack_next laws handled answered.reads answered.unpacked (by omega)
  obtain ⟨keys2, h, reads, unpacked⟩ := unpack_next laws handled reads unpacked (by omega)
  obtain ⟨t, isT⟩ : ∃ t, t = transferAt crs all RNG k := ⟨_, rfl⟩
  have run : transferStep M crs s k = .ok {
      keys := keys2
      out := t.2.foldl (Logged.pack M) s.out
      Miracl_Sender_Inputs := s.Miracl_Sender_Inputs.set k t.1
      RNG := s.RNG.drop 6 } := by
    rw [isT, transferAt, ← answered.rest]
    simp only [transferStep, strongRand, g, h, ok_bind]
    rfl
  have wrote (points : List P) : ∀ {out : Logged P}, Wrote M out →
      Wrote M (points.foldl (Logged.pack M) out) ∧
        (points.foldl (Logged.pack M) out).points = out.points ++ points := by
    induction points with
    | nil => exact fun start => ⟨start, (List.append_nil _).symm⟩
    | cons p points ih =>
      intro out start
      obtain ⟨later, listed⟩ := ih (wrote_pack start p)
      exact ⟨later, listed.trans (List.append_assoc _ _ _)⟩
  obtain ⟨wrote, listed⟩ := wrote t.2 answered.wrote
  refine ⟨_, run, reads, unpacked, wrote, ?_, (List.length_set ..).trans answered.sized, ?_, ?_⟩
  · rw [listed, answered.points, ciphertextPoints, ciphertextPoints, List.range_succ,
      List.flatMap_append, List.flatMap_singleton, isT]
  · intro i earlier
    by_cases last : i = k
    · subst last
      rw [← isT]
      exact Lists.getD_set_self (by rw [answered.sized]; exact below) _ _
    · rw [Lists.getD_set_ne _ (Ne.symm last)]
      exact answered.inputs i (by omega)
  · rw [answered.rest, Stream'.drop_drop, Nat.mul_succ]

theorem makeTransfers_answered {all : List P} (handled : ∀ p ∈ all, p ≠ 0) {n : Nat}
    (sized : all.length = 2 * n) (strm0 : ByteStream) (RNG : csprng) :
    ∃ s, makeTransfers M crs n strm0 (.received (all.flatMap M.packed)) RNG = .ok s ∧
      Answered M crs all RNG n n s := by
  apply foldlM_range_total (Answered M crs all RNG n)
  · intro k below s answered
    exact transferStep_answered crs laws handled sized below answered
  · refine ⟨reads_received all, rfl, ByteStream.setp0_eq strm0, rfl, List.length_replicate, ?_, rfl⟩
    intro j below
    exact absurd below (Nat.not_lt_zero j)

structure Decrypted (M : Miracl P) (all : List P) (bits : BitVector) (sk : List Nat) (n k : Nat)
    (s : Outputs P) : Prop where
  reads : Reads M all s.ciphertexts
  unpacked : s.ciphertexts.points.length = 4 * k
  sized : s.Miracl_Receiver_Outputs.length = n
  outputs : ∀ j < k, s.Miracl_Receiver_Outputs.getD j 0 =
    if bits.get j then Decrypt (sk.getD j 0) (all.getD (4 * j + 2) 0) (all.getD (4 * j + 3) 0)
    else Decrypt (sk.getD j 0) (all.getD (4 * j) 0) (all.getD (4 * j + 1) 0)

theorem decryptStep_decrypted {all : List P} (handled : ∀ p ∈ all, p ≠ 0) {bits : BitVector}
    {sk : List Nat} {n k : Nat} (sized : all.length = 4 * n) (below : k < n) {s : Outputs P}
    (decrypted : Decrypted M all bits sk n k s) :
    ∃ s', decryptStep M bits sk s k = .ok s' ∧ Decrypted M all bits sk n (k + 1) s' := by
  obtain ⟨next1, c0, reads, unpacked⟩ :=
    unpack_next laws handled decrypted.reads decrypted.unpacked (by omega)
  obtain ⟨next2, c1, reads, unpacked⟩ := unpack_next laws handled reads unpacked (by omega)
  obtain ⟨next3, c2, reads, unpacked⟩ := unpack_next laws handled reads unpacked (by omega)
  obtain ⟨next4, c3, reads, unpacked⟩ := unpack_next laws handled reads unpacked (by omega)
  have run : decryptStep M bits sk s k = .ok {
      ciphertexts := next4
      Miracl_Receiver_Outputs := s.Miracl_Receiver_Outputs.set k
        (if bits.get k then
          Decrypt (sk.getD k 0) (all.getD (4 * k + 2) 0) (all.getD (4 * k + 3) 0)
        else Decrypt (sk.getD k 0) (all.getD (4 * k) 0) (all.getD (4 * k + 1) 0)) } := by
    simp only [decryptStep, c0, c1, c2, c3, ok_bind]
    cases bits.get k <;> rfl
  refine ⟨_, run, reads, unpacked, (List.length_set ..).trans decrypted.sized, ?_⟩
  intro j earlier
  by_cases last : j = k
  · subst last
    exact Lists.getD_set_self (by rw [decrypted.sized]; exact below) _ _
  · rw [Lists.getD_set_ne _ (Ne.symm last)]
    exact decrypted.outputs j (by omega)

theorem decryptAll_decrypted {all : List P} (handled : ∀ p ∈ all, p ≠ 0) (bits : BitVector)
    (sk : List Nat) {n : Nat} (sized : all.length = 4 * n) :
    ∃ s, decryptAll M bits sk n (.received (all.flatMap M.packed)) = .ok s ∧
      Decrypted M all bits sk n n s := by
  apply foldlM_range_total (Decrypted M all bits sk n)
  · intro k below s decrypted
    exact decryptStep_decrypted laws handled sized below decrypted
  · refine ⟨reads_received all, rfl, List.length_replicate, ?_⟩
    intro j below
    exact absurd below (Nat.not_lt_zero j)

end BaseOT

end BatchDualEx
