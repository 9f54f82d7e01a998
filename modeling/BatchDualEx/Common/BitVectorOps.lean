import BatchDualEx.Common.BitVector

/- Comparison, `append` and `copy` of vectors that may hold anything behind their bits. -/
namespace BatchDualEx.BitVector

open Bytes

section Equals

/-- The bits of the last byte that `equals` compares: a shift of the `int` 255. -/
def lastMask (mNumBits : Nat) : Byte :=
  let rem := mNumBits &&& 7
  BitVec.ofNat 8 (255 >>> (8 - rem))

/-- `equals` of vectors of one size. For the size 0 the number of the last byte wraps around and
    the loop leaves the allocation. -/
def equals (v rhs : BitVector) : Except Fault Bool :=
  if v.sizeBytes = 0 then .error .undefined
  else
    let lastByte := v.sizeBytes - 1
    let mask := lastMask v.mNumBits
    if (List.range lastByte).any fun i => v.mData.getD i 0 != rhs.mData.getD i 0 then .ok false
    else if v.mData.getD lastByte 0 &&& mask ≠ rhs.mData.getD lastByte 0 &&& mask then .ok false
    else .ok true

def eq (v k : BitVector) : Except Fault Bool := v.equals k

def ne (v k : BitVector) : Except Fault Bool := return !(← v.equals k)

theorem getLsbD_lastMask (n : Nat) {j : Nat} (inByte : j < 8) :
    (lastMask n).getLsbD j = decide (j < n % 8) := by
  have low : n &&& 7 = n % 8 := Nat.and_two_pow_sub_one_eq_mod n 3
  have below : n % 8 < 8 := Nat.mod_lt n (by decide)
  unfold lastMask
  rw [low]
  generalize n % 8 = rem at below
  revert rem j
  decide

theorem masked_eq_iff (n : Nat) (a b : Byte) :
    a &&& lastMask n = b &&& lastMask n ↔ ∀ j < n % 8, a.getLsbD j = b.getLsbD j := by
  have small : n % 8 < 8 := Nat.mod_lt n (by decide)
  constructor
  · intro same j below
    have bits := congrArg (BitVec.getLsbD · j) same
    simpa [BitVec.getLsbD_and, getLsbD_lastMask n (show j < 8 by omega), below] using bits
  · intro same
    apply BitVec.eq_of_getLsbD_eq
    intro j inByte
    rw [BitVec.getLsbD_and, BitVec.getLsbD_and, getLsbD_lastMask n inByte]
    by_cases used : j < n % 8
    · rw [same j used]
    · simp [used]

theorem getD_eq_iff (data data' : List Byte) (k : Nat) : data.getD k 0 = data'.getD k 0 ↔
    ∀ i, i / 8 = k → bit data i = bit data' i := by
  constructor
  · intro same i here
    unfold bit
    rw [here, same]
  · intro same
    apply BitVec.eq_of_getLsbD_eq
    intro j inByte
    have bits := same (8 * k + j) (by omega)
    unfold bit at bits
    rwa [show (8 * k + j) / 8 = k by omega, show (8 * k + j) % 8 = j by omega] at bits

def compared (n : Nat) : Nat := 8 * ((n + 7) / 8 - 1) + n % 8

theorem equals_compared {v rhs : BitVector} (sized : v.mNumBits = rhs.mNumBits)
    (some : 1 ≤ v.mNumBits) :
    v.equals rhs = .ok (decide (∀ i < compared v.mNumBits, v.get i = rhs.get i)) := by
  have bytes : v.sizeBytes = (v.mNumBits + 7) / 8 := rfl
  have bound : compared v.mNumBits = 8 * (v.sizeBytes - 1) + v.mNumBits % 8 := rfl
  unfold equals
  rw [if_neg (by omega)]
  by_cases early : (List.range (v.sizeBytes - 1)).any
      fun i => v.mData.getD i 0 != rhs.mData.getD i 0
  · rw [if_pos early]
    obtain ⟨k, listed, differ⟩ := List.any_eq_true.mp early
    have below := List.mem_range.mp listed
    congr 1
    symm
    rw [decide_eq_false_iff_not]
    intro same
    apply bne_iff_ne.mp differ
    rw [getD_eq_iff]
    intro i here
    exact same i (by omega)
  · rw [if_neg early]
    have whole : ∀ k < v.sizeBytes - 1, v.mData.getD k 0 = rhs.mData.getD k 0 := by
      intro k below
      by_contra differ
      exact early (List.any_eq_true.mpr ⟨k, List.mem_range.mpr below, bne_iff_ne.mpr differ⟩)
    have last : v.mData.getD (v.sizeBytes - 1) 0 &&& lastMask v.mNumBits =
        rhs.mData.getD (v.sizeBytes - 1) 0 &&& lastMask v.mNumBits ↔
          ∀ i < compared v.mNumBits, v.get i = rhs.get i := by
      rw [masked_eq_iff]
      constructor
      · intro same i below
        by_cases inLast : i / 8 = v.sizeBytes - 1
        · have bits := same (i % 8) (by omega)
          rw [← inLast] at bits
          exact bits
        · exact (getD_eq_iff _ _ _).mp (whole (i / 8) (by omega)) i rfl
      · intro same j below
        have bits := same (8 * (v.sizeBytes - 1) + j) (by omega)
        have small : v.mNumBits % 8 < 8 := Nat.mod_lt _ (by decide)
        unfold get bit at bits
        rwa [show (8 * (v.sizeBytes - 1) + j) / 8 = v.sizeBytes - 1 by omega,
          show (8 * (v.sizeBytes - 1) + j) % 8 = j by omega] at bits
    by_cases same : ∀ i < compared v.mNumBits, v.get i = rhs.get i
    · rw [if_neg (not_not.mpr (last.mpr same)), decide_eq_true same]
    · rw [if_pos fun masked => same (last.mp masked), decide_eq_false same]

/-- The comparison is right unless the size is a multiple of 8, the last bytes differ and the
    others do not. -/
theorem equals_iff (v rhs : BitVector) (sized : v.mNumBits = rhs.mNumBits)
    (some : 1 ≤ v.mNumBits) :
    (∃ b, v.equals rhs = .ok b ∧ v.eq rhs = .ok b ∧ v.ne rhs = .ok !b ∧
        (b = true ↔ ∀ i < v.mNumBits, v.get i = rhs.get i)) ↔
      (v.mNumBits % 8 = 0 → (∀ i < v.mNumBits - 8, v.get i = rhs.get i) →
        ∀ i < v.mNumBits, v.get i = rhs.get i) := by
  have run := equals_compared sized some
  have bound : compared v.mNumBits =
      if v.mNumBits % 8 = 0 then v.mNumBits - 8 else v.mNumBits := by
    unfold compared
    split <;> omega
  constructor
  · intro right whole same
    obtain ⟨b, equal, -, -, meaning⟩ := right
    rw [run] at equal
    cases equal
    rw [← meaning, decide_eq_true_iff, bound, if_pos whole]
    exact same
  · intro condition
    refine ⟨_, run, run, ?_, ?_⟩
    · unfold ne
      rw [run]
      rfl
    · rw [decide_eq_true_iff, bound]
      split
      · rename_i whole
        constructor
        · exact condition whole
        · intro same i below
          exact same i (by omega)
      · exact Iff.rfl

/-- Two vectors of 10 bits that agree, with other padding. -/
theorem equals_iff_ten_bits :
    (∃ b, equals ⟨[0x5a, 0x03], 10, by decide⟩ ⟨[0x5a, 0xff], 10, by decide⟩ = .ok b ∧
        eq ⟨[0x5a, 0x03], 10, by decide⟩ ⟨[0x5a, 0xff], 10, by decide⟩ = .ok b ∧
        ne ⟨[0x5a, 0x03], 10, by decide⟩ ⟨[0x5a, 0xff], 10, by decide⟩ = .ok !b ∧
        (b = true ↔ ∀ i < 10, get ⟨[0x5a, 0x03], 10, by decide⟩ i =
          get ⟨[0x5a, 0xff], 10, by decide⟩ i)) ↔
      (10 % 8 = 0 → (∀ i < 10 - 8, get ⟨[0x5a, 0x03], 10, by decide⟩ i =
          get ⟨[0x5a, 0xff], 10, by decide⟩ i) →
        ∀ i < 10, get ⟨[0x5a, 0x03], 10, by decide⟩ i =
          get ⟨[0x5a, 0xff], 10, by decide⟩ i) :=
  equals_iff ⟨[0x5a, 0x03], 10, by decide⟩ ⟨[0x5a, 0xff], 10, by decide⟩ rfl (by decide)

/-- The last byte of a vector of whole bytes is not compared. -/
theorem equals_misses_last_byte :
    equals ⟨[0x00], 8, by decide⟩ ⟨[0xff], 8, by decide⟩ = .ok true ∧
      get ⟨[0x00], 8, by decide⟩ 0 ≠ get ⟨[0xff], 8, by decide⟩ 0 := by
  decide

end Equals

section Resize

/-- The sizes that `resize` takes: those for which the conversion to `int` is exact, and beyond
    them those that fit already and whose lowest 32 bits do not make the number of bytes
    negative. -/
def Resizes (v : BitVector) (newSize : Nat) : Prop :=
  newSize + 8 < 2 ^ 31 ∨
    (newSize + 14) % 2 ^ 32 < 2 ^ 31 + 6 ∧ (newSize + 7) / 8 ≤ v.mData.length

theorem toInt_size (n : Nat) : (BitVec.ofNat 32 n).toInt =
    if (n : Int) % 2 ^ 32 < 2 ^ 31 then (n : Int) % 2 ^ 32 else (n : Int) % 2 ^ 32 - 2 ^ 32 := by
  rw [BitVec.toInt_ofNat', Int.bmod_def]
  norm_num

theorem newBytes_ok_iff (n : Nat) : (∃ k, newBytes n = .ok k ∧ k < 2 ^ 63) ↔
    (n + 14) % 2 ^ 32 < 2 ^ 31 + 6 := by
  have value := toInt_size n
  have quotient : ∀ z : Int, (z + 7).tdiv 8 =
      (z + 7) / 8 + if 0 ≤ z + 7 ∨ 8 ∣ z + 7 then 0 else 1 :=
    fun _ => Int.tdiv_eq_ediv
  constructor
  · rintro ⟨k, computed, small⟩
    obtain ⟨exact, rfl⟩ := newBytes_ok computed
    rw [BitVec.toNat_ofInt, quotient] at small
    generalize (BitVec.ofNat 32 n).toInt = z at value exact small
    split at small <;> split at value <;> omega
  · intro low
    have exact : (BitVec.ofNat 32 n).toInt + 8 < 2 ^ 31 := by
      split at value <;> omega
    refine ⟨_, newBytes_eq exact, ?_⟩
    rw [BitVec.toNat_ofInt, quotient]
    generalize (BitVec.ofNat 32 n).toInt = z at value exact
    split <;> split at value <;> omega

theorem resize_ok_iff (v : BitVector) (n : Nat) : (∃ w, v.resize n = .ok w) ↔ v.Resizes n := by
  by_cases small : n + 8 < 2 ^ 31
  · constructor
    · intro _
      exact .inl small
    · intro _
      exact ⟨_, resize_small v small⟩
  · unfold Resizes
    rw [or_iff_right small, ← newBytes_ok_iff]
    constructor
    · rintro ⟨w, run⟩
      unfold resize at run
      cases computed : newBytes n with
      | error fault =>
        rw [computed] at run
        cases run
      | ok k =>
        rw [computed] at run
        change (if 2 ^ 63 ≤ k then _ else _) = _ at run
        split at run
        · cases run
        · rename_i fits
          split at run
          · rename_i room
            rcases newBytes_large (by omega) computed with big | less
            · exact absurd big fits
            · rw [allocate_length] at room
              exact ⟨⟨k, rfl, by omega⟩, by omega⟩
          · cases run
    · rintro ⟨⟨k, computed, fits⟩, room⟩
      have stays : (n + 7) / 8 ≤ (v.allocate k).length := by
        rw [allocate_length]
        omega
      refine ⟨⟨v.allocate k, n, stays⟩, ?_⟩
      unfold resize
      rw [computed]
      change (if 2 ^ 63 ≤ k then _ else _) = _
      rw [if_neg (by omega), dif_pos stays]

theorem newBytes_whole {n k : Nat} (whole : n = 128 * k) :
    (2 ^ 31 ≤ n % 2 ^ 32 ∧ ∃ bytes, newBytes n = .ok bytes ∧ 2 ^ 63 ≤ bytes) ∨
      (n % 2 ^ 32 < 2 ^ 31 ∧ newBytes n = .ok (n % 2 ^ 32 / 8)) := by
  have value := toInt_size n
  have exact : (BitVec.ofNat 32 n).toInt + 8 < 2 ^ 31 := by
    split at value <;> omega
  have computed := newBytes_eq exact
  generalize (BitVec.ofNat 32 n).toInt = z at value computed
  have quotient : (z + 7).tdiv 8 = (z + 7) / 8 + if 0 ≤ z + 7 ∨ 8 ∣ z + 7 then 0 else 1 :=
    Int.tdiv_eq_ediv
  by_cases low : n % 2 ^ 32 < 2 ^ 31
  · rw [if_pos (by omega)] at value
    rw [if_pos (.inl (by omega))] at quotient
    refine .inr ⟨low, ?_⟩
    rw [computed, BitVec.toNat_ofInt]
    exact congrArg Except.ok (by omega)
  · rw [if_neg (by omega)] at value
    have negative : (z + 7).tdiv 8 < 0 ∧ -(2 ^ 28) ≤ (z + 7).tdiv 8 := by
      rw [quotient]
      split <;> omega
    refine .inl ⟨by omega, _, computed, ?_⟩
    rw [BitVec.toNat_ofInt]
    omega

theorem resize_whole (v : BitVector) {n k : Nat} (whole : n = 128 * k) :
    (2 ^ 31 ≤ n % 2 ^ 32 ∧ v.resize n = .error (.thrown "bad_array_new_length")) ∨
    (n % 2 ^ 32 < 2 ^ 31 ∧ (n < 2 ^ 32 ∨ n ≤ 8 * v.mData.length) ∧ ∃ w, v.resize n = .ok w) ∨
    (n % 2 ^ 32 < 2 ^ 31 ∧ 2 ^ 32 ≤ n ∧ 8 * v.mData.length < n ∧
      v.resize n = .error .undefined) := by
  unfold resize
  rcases newBytes_whole whole with ⟨high, bytes, computed, large⟩ | ⟨low, computed⟩
  · refine .inl ⟨high, ?_⟩
    rw [computed, Result.ok_bind, if_pos large]
  · have sized := v.allocate_length (n % 2 ^ 32 / 8)
    rw [computed, Result.ok_bind, if_neg (by omega)]
    by_cases room : (n + 7) / 8 ≤ (v.allocate (n % 2 ^ 32 / 8)).length
    · exact .inr (.inl ⟨low, by omega, _, dif_pos room⟩)
    · exact .inr (.inr ⟨low, by omega, by omega, dif_neg room⟩)

theorem get_allocate (v : BitVector) (k : Nat) {i : Nat} (inside : i < 8 * v.sizeBytes) :
    bit (v.allocate k) i = v.get i := by
  unfold allocate
  split
  · have inBytes : i / 8 < v.bytes.length := by
      rw [bytes_length]
      omega
    rw [← bit_bytes v inside]
    unfold bit
    rw [List.getD_append _ _ _ _ inBytes]
  · rfl

theorem resize_ok {v w : BitVector} {n : Nat} (run : v.resize n = .ok w) :
    w.mNumBits = n ∧ ∀ i < 8 * v.sizeBytes, w.get i = v.get i := by
  unfold resize at run
  obtain ⟨k, -, run⟩ := Result.bind_ok run
  split at run
  · cases run
  · split at run
    · cases run
      constructor
      · rfl
      · intro i inside
        exact get_allocate v k inside
    · cases run

theorem resize_keeps (v : BitVector) {n : Nat} (small : n + 8 < 2 ^ 31) :
    ∃ w, v.resize n = .ok w ∧ w.mNumBits = n ∧
      ∀ i < 8 * v.sizeBytes, w.get i = v.get i :=
  ⟨_, resize_small v small, resize_ok (resize_small v small)⟩

end Resize

section Append

theorem append_get (v : BitVector) (data : List Byte) (length offset : Nat)
    (small : v.mNumBits + length + 8 < 2 ^ 31) :
    ∃ w, v.append data length offset = .ok w ∧ w.mNumBits = v.mNumBits + length ∧
      (∀ i < v.mNumBits, w.get i = v.get i) ∧
      ∀ i < length, w.get (v.mNumBits + i) = bit data (offset + i) := by
  obtain ⟨r, resized, size, kept⟩ := resize_keeps v small
  have room := r.fits
  have used : v.sizeBytes = (v.mNumBits + 7) / 8 := rfl
  unfold append
  rw [resized]
  by_cases shifting : offset % 8 ≠ 0 ∨ v.mNumBits % 8 ≠ 0
  · obtain ⟨numBits, -, written⟩ := get_setLoop r v.mNumBits (fun i => bit data (offset + i))
      length (by omega)
    refine ⟨_, if_pos shifting, numBits.trans size, ?_, ?_⟩
    · intro i below
      rw [written i, if_neg (by omega)]
      exact kept i (by omega)
    · intro i below
      rw [written (v.mNumBits + i), if_pos (by omega), Nat.add_sub_cancel_left]
  · refine ⟨_, if_neg shifting, size, ?_, ?_⟩
    · intro i below
      unfold get overwrite
      rw [bit_memcpy (by omega), if_neg (by omega)]
      exact kept i (by omega)
    · intro i below
      unfold get overwrite
      rw [bit_memcpy (by omega), if_pos (by rw [List.takeD_length]; omega),
        bit_takeD _ (by omega), bit_drop]
      congr 1
      omega

theorem copy_get (v src : BitVector) (idx length : Nat) (small : length + 8 < 2 ^ 31) :
    ∃ w, v.copy src idx length = .ok w ∧ w.mNumBits = length ∧
      ∀ i < length, w.get i = src.get (idx + i) := by
  obtain ⟨emptied, resized, none, -⟩ := resize_keeps v (n := 0) (by decide)
  obtain ⟨w, run, size, -, written⟩ := append_get emptied src.mData length idx (by omega)
  rw [none, Nat.zero_add] at size
  refine ⟨w, ?_, size, ?_⟩
  · unfold copy
    rw [resized]
    exact run
  · intro i below
    have bits := written i below
    rw [none, Nat.zero_add] at bits
    exact bits

/-- `append` keeps the old bits and puts those of the source behind them, and `copy` leaves only
    those of the source, whatever the vector held. -/
theorem append_copy (d s : BitVector) (offset length : Nat)
    (within : offset + length ≤ s.mNumBits) (source : s.mNumBits < 2 ^ 31 - 8) :
    (d.mNumBits + length < 2 ^ 31 - 8 →
      ∃ w, d.append s.mData length offset = .ok w ∧ w.mNumBits = d.mNumBits + length ∧
        (∀ i < d.mNumBits, w.get i = d.get i) ∧
        ∀ i < length, w.get (d.mNumBits + i) = s.get (offset + i)) ∧
      ∃ w, d.copy s offset length = .ok w ∧ w.mNumBits = length ∧
        ∀ i < length, w.get i = s.get (offset + i) := by
  constructor
  · intro dest
    exact append_get d s.mData length offset (by omega)
  · exact copy_get d s offset length (by omega)

/-- Three bits behind two, from the second byte of the source on. -/
theorem append_copy_two_bits :
    (∃ w, append ⟨[0xfe], 2, by decide⟩ [0x0f, 0x05] 3 8 = .ok w ∧ w.mNumBits = 2 + 3 ∧
        (∀ i < 2, w.get i = get ⟨[0xfe], 2, by decide⟩ i) ∧
        ∀ i < 3, w.get (2 + i) = get ⟨[0x0f, 0x05], 12, by decide⟩ (8 + i)) ∧
      ∃ w, copy ⟨[0xfe], 2, by decide⟩ ⟨[0x0f, 0x05], 12, by decide⟩ 8 3 = .ok w ∧
        w.mNumBits = 3 ∧ ∀ i < 3, w.get i = get ⟨[0x0f, 0x05], 12, by decide⟩ (8 + i) := by
  have both := append_copy ⟨[0xfe], 2, by decide⟩ ⟨[0x0f, 0x05], 12, by decide⟩ 8 3 (by decide)
    (by decide)
  exact ⟨both.1 (by decide), both.2⟩

end Append

end BatchDualEx.BitVector
