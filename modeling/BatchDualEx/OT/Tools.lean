import BatchDualEx.Common.Block
import BatchDualEx.Lib.CarryLess
import BatchDualEx.Lib.PairUpdate

/- `mul128` and `eklundh_transpose128`: the product of two blocks without reduction and the
   transposition of 128 blocks in place. -/
namespace BatchDualEx

open BinaryField Polynomial PairUpdate WordXor

/-- `_mm_clmulepi64_si128`: bit 0 of `imm8` chooses the half of `a`, bit 4 the half of `b`. -/
def mmClmulepi64Si128 (a b : Block) (imm8 : BitVec 8) : Block :=
  carryLess 128 (if imm8.getLsbD 0 then a.hi else a.lo) (if imm8.getLsbD 4 then b.hi else b.lo)

def mul128 (a b : Block) : Block × Block :=
  let tmp3 := mmClmulepi64Si128 a b 0x00
  let tmp4 := mmClmulepi64Si128 a b 0x10
  let tmp5 := mmClmulepi64Si128 a b 0x01
  let tmp6 := mmClmulepi64Si128 a b 0x11
  let tmp4 := tmp4 ^^^ tmp5
  let tmp5 := mmSlliSi128 tmp4 8
  let tmp4 := mmSrliSi128 tmp4 8
  (tmp3 ^^^ tmp5, tmp6 ^^^ tmp4)

def TRANSPOSE_MASKS128 : List (BitVec 64 × BitVec 64) := [
  (0x0000000000000000, 0xFFFFFFFFFFFFFFFF),
  (0x00000000FFFFFFFF, 0x00000000FFFFFFFF),
  (0x0000FFFF0000FFFF, 0x0000FFFF0000FFFF),
  (0x00FF00FF00FF00FF, 0x00FF00FF00FF00FF),
  (0x0F0F0F0F0F0F0F0F, 0x0F0F0F0F0F0F0F0F),
  (0x3333333333333333, 0x3333333333333333),
  (0x5555555555555555, 0x5555555555555555)]

/-- The new `inOut[i1]` and `inOut[i2]` for the old `t2 ++ t1` and `tt2 ++ tt1`. -/
def transposeRows (mask1 mask2 : BitVec 64) (width : Nat) (t tt : Block) : Block × Block :=
  let t1 := t.lo
  let t2 := t.hi
  let tt1 := tt.lo
  let tt2 := tt.hi
  if width < 64 then
    (((t2 &&& mask2) ^^^ ((tt2 &&& mask2) <<< width) ^^^ ((tt1 &&& mask1) >>> (64 - width))) ++
        ((t1 &&& mask1) ^^^ ((tt1 &&& mask1) <<< width)),
      ((tt2 &&& ~~~mask2) ^^^ ((t2 &&& ~~~mask2) >>> width)) ++
        ((tt1 &&& ~~~mask1) ^^^ ((t1 &&& ~~~mask1) >>> width) ^^^
          ((t2 &&& ~~~mask2) <<< (64 - width))))
  else
    (((t2 &&& mask2) ^^^ ((tt1 &&& mask1) >>> (64 - width))) ++ (t1 &&& mask1),
      (tt2 &&& ~~~mask2) ++ ((tt1 &&& ~~~mask1) ^^^ ((t2 &&& ~~~mask2) <<< (64 - width))))

def transposeStage (inOut : List Block) (masks : BitVec 64 × BitVec 64) (width nswaps : Nat) :
    List Block :=
  (List.range nswaps).foldl (fun inOut j =>
    (List.range width).foldl (fun inOut k =>
      updatePair (transposeRows masks.2 masks.1 width) zeroBlock inOut
        (k + 2 * width * j, k + width + 2 * width * j)) inOut) inOut

def eklundhTranspose128 (inOut : List Block) : List Block :=
  (TRANSPOSE_MASKS128.foldl
    (fun (inOut, width, nswaps) masks =>
      (transposeStage inOut masks width nswaps, width / 2, nswaps * 2)) (inOut, 64, 1)).1

theorem Block.hi_append_lo (a : Block) : a.hi ++ a.lo = a := by
  apply BitVec.eq_of_getLsbD_eq
  intro i below
  unfold Block.hi Block.lo
  rw [BitVec.getLsbD_append, BitVec.getLsbD_extractLsb', BitVec.getLsbD_extractLsb']
  by_cases low : i < 64
  · simp [low]
  · simp [low, show i - 64 < 64 by omega, show 64 + (i - 64) = i by omega]

theorem ofWord_halves (a : Block) : ofWord a = ofWord a.lo + X ^ 64 * ofWord a.hi := by
  rw [← ofWord_append]
  exact congrArg ofWord a.hi_append_lo.symm

theorem ofWord_middle (m : Block) :
    ofWord (mmSrliSi128 m 8 ++ mmSlliSi128 m 8) = X ^ 64 * ofWord m := by
  have halves := ofWord_shift_halves m (show 64 ≤ 128 by decide)
  unfold mmSrliSi128 mmSlliSi128
  simp only [show 8 * 8 = 64 from rfl, show 128 - 64 = 64 from rfl] at halves ⊢
  exact halves

theorem ofWord_mul128 (a b : Block) :
    ofWord ((mul128 a b).2 ++ (mul128 a b).1) = ofWord a * ofWord b := by
  have parts : (mul128 a b).2 ++ (mul128 a b).1 =
      (mmClmulepi64Si128 a b 0x11 ++ mmClmulepi64Si128 a b 0x00) ^^^
        (mmSrliSi128 (mmClmulepi64Si128 a b 0x10 ^^^ mmClmulepi64Si128 a b 0x01) 8 ++
          mmSlliSi128 (mmClmulepi64Si128 a b 0x10 ^^^ mmClmulepi64Si128 a b 0x01) 8) :=
    BitVec.xor_append.symm
  have low : ofWord (mmClmulepi64Si128 a b 0x00) = ofWord a.lo * ofWord b.lo :=
    ofWord_carryLess a.lo b.lo (by decide)
  have lowHigh : ofWord (mmClmulepi64Si128 a b 0x10) = ofWord a.lo * ofWord b.hi :=
    ofWord_carryLess a.lo b.hi (by decide)
  have highLow : ofWord (mmClmulepi64Si128 a b 0x01) = ofWord a.hi * ofWord b.lo :=
    ofWord_carryLess a.hi b.lo (by decide)
  have high : ofWord (mmClmulepi64Si128 a b 0x11) = ofWord a.hi * ofWord b.hi :=
    ofWord_carryLess a.hi b.hi (by decide)
  rw [parts, ofWord_xor, ofWord_append, ofWord_middle, ofWord_xor, low, lowHigh, highLow, high,
    ofWord_halves a, ofWord_halves b]
  ring

def product (a b : Block) : BitVec (128 + 128) := (mul128 a b).2 ++ (mul128 a b).1

theorem product_inj {lo lo' hi hi' : Block} (same : hi ++ lo = hi' ++ lo') :
    lo = lo' ∧ hi = hi' := by
  have bits (i : Nat) := congrArg (BitVec.getLsbD · i) same
  simp only [BitVec.getLsbD_append] at bits
  constructor
  · apply BitVec.eq_of_getLsbD_eq
    intro i below
    simpa only [below, if_true] using bits i
  · apply BitVec.eq_of_getLsbD_eq
    intro i below
    simpa using bits (128 + i)

/-- Multiples of `delta` in the first factors of a sum of products add the product of `delta` and
    the sum of their second factors. -/
theorem product_check (n : Nat) (chi t : Nat → Block) (choice : Nat → Bool) (delta : Block) :
    (product (xorSum n fun i => select (choice i) (chi i)) delta ^^^
      xorSum n fun i => product (t i ^^^ select (choice i) delta) (chi i)) =
        xorSum n fun i => product (t i) (chi i) := by
  have words (a b : Block) : ofWord (product a b) = ofWord a * ofWord b := ofWord_mul128 a b
  apply ofWord_injective
  rw [ofWord_xor, ofWord_xorSum, ofWord_xorSum, words, ofWord_xorSum, Finset.sum_mul,
    ← Finset.sum_add_distrib]
  apply Finset.sum_congr rfl
  intro i _
  rw [words, words, ofWord_xor, ofWord_select, ofWord_select]
  have cancel := CharTwo.add_self_eq_zero
    ((if choice i then 1 else 0) * ofWord (chi i) * ofWord delta)
  linear_combination cancel

theorem mul128_check (n : Nat) (chi t : Nat → Block) (choice : Nat → Bool) (delta : Block) :
    let x := xorSum n fun i => select (choice i) (chi i)
    ((mul128 x delta).1 ^^^ xorSum n fun i =>
        (mul128 (t i ^^^ select (choice i) delta) (chi i)).1) =
        xorSum n (fun i => (mul128 (t i) (chi i)).1) ∧
      ((mul128 x delta).2 ^^^
        xorSum n fun i => (mul128 (t i ^^^ select (choice i) delta) (chi i)).2) =
        xorSum n fun i => (mul128 (t i) (chi i)).2 := by
  have check := product_check n chi t choice delta
  unfold product at check
  rw [xorSum_append, xorSum_append, BitVec.xor_append] at check
  exact product_inj check

/-- Moving by a block of `width` bits changes the parity of the block, within a half and across
    the halves of a word. -/
theorem parity_move {width : Nat} (stage : width ∈ [32, 16, 8, 4, 2, 1]) (c : Nat) :
    (c + width) / width % 2 = 1 - c / width % 2 ∧
      (width ≤ c → (c - width) / width % 2 = 1 - c / width % 2) ∧
      (c < width → c / width % 2 = 0) ∧ (64 + c) / width % 2 = c / width % 2 ∧
      (c < width → (64 - width + c) / width % 2 = 1) ∧
      (c < 64 → 64 ≤ c + width → c / width % 2 = 1) ∧
      (c < 64 → 64 - width ≤ c → (c - (64 - width)) / width % 2 = 0) ∧ width < 64 := by
  simp only [List.mem_cons, List.not_mem_nil, or_false] at stage
  rcases stage with rfl | rfl | rfl | rfl | rfl | rfl <;> omega

/-- What one step does to its two rows: the blocks of even parity of the second row change places
    with the blocks of odd parity of the first one. -/
structure Exchanges (width : Nat) (step : Block → Block → Block × Block) : Prop where
  first : ∀ t tt, ∀ c < 128, (step t tt).1.getLsbD c =
    if c / width % 2 = 0 then t.getLsbD c else tt.getLsbD (c - width)
  second : ∀ t tt, ∀ c < 128, (step t tt).2.getLsbD c =
    if c / width % 2 = 0 then t.getLsbD (c + width) else tt.getLsbD c

theorem transposeRows_exchanges {width : Nat} (stage : width ∈ [32, 16, 8, 4, 2, 1])
    {mask : BitVec 64} (masks : ∀ c < 64, mask.getLsbD c = decide (c / width % 2 = 0)) :
    Exchanges width (transposeRows mask mask width) := by
  have small := (parity_move stage 0).2.2.2.2.2.2.2
  have maskBits (c : Nat) : mask.getLsbD c = (decide (c < 64) && decide (c / width % 2 = 0)) := by
    by_cases inLane : c < 64
    · rw [masks c inLane, decide_eq_true inLane, Bool.true_and]
    · rw [BitVec.getLsbD_of_ge mask c (Nat.not_lt.mp inLane), decide_eq_false inLane,
        Bool.false_and]
  constructor
  · intro t tt c inside
    unfold transposeRows Block.lo Block.hi
    simp only [small, if_true, BitVec.getLsbD_append, BitVec.getLsbD_xor, BitVec.getLsbD_and,
      BitVec.getLsbD_shiftLeft, BitVec.getLsbD_ushiftRight, BitVec.getLsbD_extractLsb', maskBits]
    by_cases low : c < 64
    · obtain ⟨_, before, start, _⟩ := parity_move stage c
      by_cases edge : c < width
      · simp [low, edge, start edge]
      · have moved := before (Nat.not_lt.mp edge)
        by_cases even : c / width % 2 = 0
        · simp [low, even, moved]
        · simp [low, even, edge, moved, show c - width < 64 by omega,
            show 1 - c / width % 2 = 0 by omega]
    · obtain ⟨e, rfl⟩ : ∃ e, c = 64 + e := ⟨c - 64, by omega⟩
      have high : e < 64 := by omega
      obtain ⟨_, before, start, across, last, _⟩ := parity_move stage e
      simp only [across, low, if_false, Nat.add_sub_cancel_left]
      by_cases edge : e < width
      · simp [high, edge, start edge, last edge]
      · have moved := before (Nat.not_lt.mp edge)
        have inLane : ¬64 - width + e < 64 := by omega
        by_cases even : e / width % 2 = 0
        · simp [high, even, moved, inLane]
        · simp [high, even, edge, moved, inLane, show e - width < 64 by omega,
            show 1 - e / width % 2 = 0 by omega, show 64 + (e - width) = 64 + e - width by omega]
  · intro t tt c inside
    unfold transposeRows Block.lo Block.hi
    simp only [small, if_true, BitVec.getLsbD_append, BitVec.getLsbD_xor, BitVec.getLsbD_and,
      BitVec.getLsbD_not, BitVec.getLsbD_shiftLeft, BitVec.getLsbD_ushiftRight,
      BitVec.getLsbD_extractLsb', maskBits, Nat.add_comm width]
    by_cases low : c < 64
    · obtain ⟨after, _, _, _, _, top, wrapped, _⟩ := parity_move stage c
      by_cases even : c / width % 2 = 0
      · have inLane : c + width < 64 := by
          by_contra outside
          exact absurd (top low (by omega)) (by omega)
        simp [low, even, after, inLane, show c < 64 - width by omega]
      · by_cases edge : c < 64 - width
        · simp [low, even, edge, after, show 1 - c / width % 2 = 0 by omega]
        · simp [low, even, edge, after, wrapped low (by omega), show ¬c + width < 64 by omega]
    · obtain ⟨e, rfl⟩ : ∃ e, c = 64 + e := ⟨c - 64, by omega⟩
      have high : e < 64 := by omega
      obtain ⟨after, _, _, across, _, top, _⟩ := parity_move stage e
      simp only [across, low, if_false, Nat.add_sub_cancel_left]
      by_cases even : e / width % 2 = 0
      · have inLane : e + width < 64 := by
          by_contra outside
          exact absurd (top high (by omega)) (by omega)
        simp [high, even, after, inLane, Nat.add_assoc]
      · by_cases inLane : e + width < 64
        · simp [high, even, after, inLane, show 1 - e / width % 2 = 0 by omega]
        · simp [high, even, inLane]

theorem transposeRows_halves (t tt : Block) :
    transposeRows 0xFFFFFFFFFFFFFFFF 0x0000000000000000 64 t tt =
      (tt.lo ++ t.lo, tt.hi ++ t.hi) := by
  have ones : (0xFFFFFFFFFFFFFFFF : BitVec 64) = BitVec.allOnes 64 := rfl
  have zeros : (0x0000000000000000 : BitVec 64) = 0#64 := rfl
  unfold transposeRows
  simp only [ones, zeros, Nat.lt_irrefl, if_false, Nat.sub_self, BitVec.and_allOnes,
    BitVec.and_zero, BitVec.not_allOnes, BitVec.not_zero, BitVec.ushiftRight_zero,
    BitVec.shiftLeft_zero, BitVec.zero_xor]

theorem transposeRows_exchanges_halves :
    Exchanges 64 (transposeRows 0xFFFFFFFFFFFFFFFF 0x0000000000000000 64) := by
  constructor
  · intro t tt c inside
    rw [transposeRows_halves]
    unfold Block.lo
    simp only [BitVec.getLsbD_append, BitVec.getLsbD_extractLsb']
    by_cases low : c < 64
    · simp [low, show c / 64 % 2 = 0 by omega]
    · simp [low, show ¬c / 64 % 2 = 0 by omega, show c - 64 < 64 by omega]
  · intro t tt c inside
    rw [transposeRows_halves]
    unfold Block.hi
    simp only [BitVec.getLsbD_append, BitVec.getLsbD_extractLsb']
    by_cases low : c < 64
    · simp [low, show c / 64 % 2 = 0 by omega, Nat.add_comm]
    · simp [low, show ¬c / 64 % 2 = 0 by omega, show c - 64 < 64 by omega,
        show 64 + (c - 64) = c by omega]

def stagePairs (width nswaps : Nat) : List (Nat × Nat) :=
  (List.range nswaps).flatMap fun j =>
    (List.range width).map fun k => (k + 2 * width * j, k + width + 2 * width * j)

theorem transposeStage_eq (inOut : List Block) (masks : BitVec 64 × BitVec 64)
    (width nswaps : Nat) : transposeStage inOut masks width nswaps =
      (stagePairs width nswaps).foldl
        (updatePair (transposeRows masks.2 masks.1 width) zeroBlock) inOut := by
  unfold transposeStage stagePairs
  rw [List.foldl_flatMap]
  simp only [List.foldl_map]

theorem stagePairs_apart (width nswaps : Nat) : (stagePairs width nswaps).Pairwise Apart := by
  unfold stagePairs
  rw [List.pairwise_flatMap]
  constructor
  · intro j _
    rw [List.pairwise_map]
    refine List.pairwise_lt_range.imp_of_mem fun {k k'} listed listed' less => ?_
    rw [List.mem_range] at listed listed'
    simp only [Apart, Outside]
    omega
  · refine List.pairwise_lt_range.imp fun {j j'} less => ?_
    have blocks : 2 * width * (j + 1) ≤ 2 * width * j' := Nat.mul_le_mul_left _ less
    rw [Nat.mul_add, Nat.mul_one] at blocks
    intro p listed q listed'
    obtain ⟨k, below, rfl⟩ := List.mem_map.mp listed
    obtain ⟨k', below', rfl⟩ := List.mem_map.mp listed'
    rw [List.mem_range] at below below'
    simp only [Apart, Outside]
    omega

def stages : List (Nat × Nat) := [(64, 1), (32, 2), (16, 4), (8, 8), (4, 16), (2, 32), (1, 64)]

theorem stage_row {width nswaps : Nat} (stage : (width, nswaps) ∈ stages) {r : Nat}
    (row : r < 128) : 0 < width ∧ r / (2 * width) < nswaps ∧ r % width < width ∧
      (r / width % 2 = 0 → r % width + 2 * width * (r / (2 * width)) = r ∧ r + width < 128) ∧
      (r / width % 2 = 1 →
        r % width + width + 2 * width * (r / (2 * width)) = r ∧ width ≤ r) := by
  simp only [stages, List.mem_cons, Prod.mk.injEq, List.not_mem_nil, or_false] at stage
  rcases stage with ⟨rfl, rfl⟩ | ⟨rfl, rfl⟩ | ⟨rfl, rfl⟩ | ⟨rfl, rfl⟩ | ⟨rfl, rfl⟩ |
    ⟨rfl, rfl⟩ | ⟨rfl, rfl⟩ <;> omega

theorem mem_stagePairs {width nswaps j k : Nat} (swap : j < nswaps) (below : k < width) :
    (k + 2 * width * j, k + width + 2 * width * j) ∈ stagePairs width nswaps := by
  unfold stagePairs
  simp only [List.mem_flatMap, List.mem_map, List.mem_range]
  exact ⟨j, swap, k, below, rfl⟩

def entry (rows : List Block) (r c : Nat) : Bool := (rows.getD r zeroBlock).getLsbD c

/-- One stage exchanges the bit of its width between the index of the row and that of the column. -/
theorem entry_transposeStage {width nswaps : Nat} (stage : (width, nswaps) ∈ stages)
    {masks : BitVec 64 × BitVec 64} (step : Exchanges width (transposeRows masks.2 masks.1 width))
    {rows : List Block} (sized : rows.length = 128) {r c : Nat} (row : r < 128)
    (column : c < 128) : entry (transposeStage rows masks width nswaps) r c =
      if r / width % 2 = c / width % 2 then entry rows r c
      else if r / width % 2 = 0 then entry rows (r + width) (c - width)
      else entry rows (r - width) (c + width) := by
  obtain ⟨positive, swap, below, even, odd⟩ := stage_row stage row
  have listed := mem_stagePairs swap below
  have apart := stagePairs_apart width nswaps
  unfold entry
  rw [transposeStage_eq]
  rcases Nat.mod_two_eq_zero_or_one (r / width) with parity | parity
  · obtain ⟨place, inside⟩ := even parity
    have partner : r % width + width + 2 * width * (r / (2 * width)) = r + width := by omega
    rw [place, partner] at listed
    have first : r < rows.length := by omega
    have second : r + width < rows.length := by omega
    have written := foldl_updatePair (transposeRows masks.2 masks.1 width) zeroBlock apart listed
      (show r ≠ r + width by omega) first second
    rw [written.1, step.first _ _ c column, parity]
    by_cases same : c / width % 2 = 0
    · rw [if_pos same, if_pos same.symm]
    · rw [if_neg same, if_neg (Ne.symm same), if_pos rfl]
  · obtain ⟨place, inside⟩ := odd parity
    have partner : r % width + 2 * width * (r / (2 * width)) = r - width := by omega
    rw [place, partner] at listed
    have first : r - width < rows.length := by omega
    have second : r < rows.length := by omega
    have written := foldl_updatePair (transposeRows masks.2 masks.1 width) zeroBlock apart listed
      (show r - width ≠ r by omega) first second
    rw [written.2, step.second _ _ c column, parity]
    by_cases same : c / width % 2 = 0
    · rw [if_pos same, if_neg (by omega), if_neg (by decide)]
    · rw [if_neg same, if_pos (by omega)]

theorem transposeStage_length (rows : List Block) (masks : BitVec 64 × BitVec 64)
    (width nswaps : Nat) : (transposeStage rows masks width nswaps).length = rows.length := by
  rw [transposeStage_eq, foldl_updatePair_length]

/-- After the stages down to `width` the index of the row and that of the column have exchanged
    their bits from `width` on. -/
structure ExchangedFrom (width : Nat) (old new : List Block) : Prop where
  sized : new.length = 128
  entries : ∀ r < 128, ∀ c < 128, entry new r c =
    entry old (c / width * width + r % width) (r / width * width + c % width)

theorem exchange_index {width nswaps : Nat} (stage : (width, nswaps) ∈ stages) {r c : Nat}
    (row : r < 128) (column : c < 128) :
    (r / width % 2 = c / width % 2 →
      c / (2 * width) * (2 * width) + r % (2 * width) = c / width * width + r % width) ∧
    (r / width % 2 = 0 → c / width % 2 = 1 →
      r + width < 128 ∧ (c - width) / (2 * width) * (2 * width) + (r + width) % (2 * width) =
        c / width * width + r % width) ∧
    (r / width % 2 = 1 → c / width % 2 = 0 →
      (c + width) / (2 * width) * (2 * width) + (r - width) % (2 * width) =
        c / width * width + r % width) := by
  simp only [stages, List.mem_cons, Prod.mk.injEq, List.not_mem_nil, or_false] at stage
  rcases stage with ⟨rfl, rfl⟩ | ⟨rfl, rfl⟩ | ⟨rfl, rfl⟩ | ⟨rfl, rfl⟩ | ⟨rfl, rfl⟩ |
    ⟨rfl, rfl⟩ | ⟨rfl, rfl⟩ <;> omega

theorem ExchangedFrom.stage {width nswaps : Nat} (stage : (width, nswaps) ∈ stages)
    (masks : BitVec 64 × BitVec 64) (step : Exchanges width (transposeRows masks.2 masks.1 width))
    {old rows : List Block} (before : ExchangedFrom (2 * width) old rows) :
    ExchangedFrom width old (transposeStage rows masks width nswaps) where
  sized := (transposeStage_length rows masks width nswaps).trans before.sized
  entries r row c column := by
    rw [entry_transposeStage stage step before.sized row column]
    obtain ⟨same, up, down⟩ := exchange_index stage row column
    obtain ⟨same', up', down'⟩ := exchange_index stage column row
    by_cases parity : r / width % 2 = c / width % 2
    · rw [if_pos parity, before.entries r row c column, same parity, same' parity.symm]
    · rw [if_neg parity]
      rcases Nat.mod_two_eq_zero_or_one (r / width) with even | odd
      · obtain ⟨inside, index⟩ := up even (by omega)
        rw [if_pos even, before.entries _ inside _ (by omega), index, down' (by omega) even]
      · obtain ⟨inside, index⟩ := up' (by omega) odd
        rw [if_neg (by omega), before.entries _ (by omega) _ inside, down odd (by omega), index]

theorem eklundhTranspose128_exchanged {rows : List Block} (sized : rows.length = 128) :
    ExchangedFrom 1 rows (eklundhTranspose128 rows) := by
  have start : ExchangedFrom (2 * 64) rows rows := by
    refine ⟨sized, fun r row c column => ?_⟩
    rw [Nat.div_eq_of_lt row, Nat.div_eq_of_lt column, Nat.mod_eq_of_lt row,
      Nat.mod_eq_of_lt column, Nat.zero_mul, Nat.zero_add, Nat.zero_add]
  have halves := start.stage (show (64, 1) ∈ stages by decide)
    (0x0000000000000000, 0xFFFFFFFFFFFFFFFF) transposeRows_exchanges_halves
  have by32 := halves.stage (show (32, 2) ∈ stages by decide)
    (0x00000000FFFFFFFF, 0x00000000FFFFFFFF) (transposeRows_exchanges (by decide) (by decide))
  have by16 := by32.stage (show (16, 4) ∈ stages by decide)
    (0x0000FFFF0000FFFF, 0x0000FFFF0000FFFF) (transposeRows_exchanges (by decide) (by decide))
  have by8 := by16.stage (show (8, 8) ∈ stages by decide)
    (0x00FF00FF00FF00FF, 0x00FF00FF00FF00FF) (transposeRows_exchanges (by decide) (by decide))
  have by4 := by8.stage (show (4, 16) ∈ stages by decide)
    (0x0F0F0F0F0F0F0F0F, 0x0F0F0F0F0F0F0F0F) (transposeRows_exchanges (by decide) (by decide))
  have by2 := by4.stage (show (2, 32) ∈ stages by decide)
    (0x3333333333333333, 0x3333333333333333) (transposeRows_exchanges (by decide) (by decide))
  have by1 := by2.stage (show (1, 64) ∈ stages by decide)
    (0x5555555555555555, 0x5555555555555555) (transposeRows_exchanges (by decide) (by decide))
  unfold eklundhTranspose128 TRANSPOSE_MASKS128
  simp only [List.foldl_cons, List.foldl_nil, Nat.reduceDiv, Nat.reduceMul, Nat.one_mul]
  exact by1

theorem entry_eklundhTranspose128 {rows : List Block} (sized : rows.length = 128) {r c : Nat}
    (row : r < 128) (column : c < 128) : entry (eklundhTranspose128 rows) r c = entry rows c r := by
  rw [(eklundhTranspose128_exchanged sized).entries r row c column, Nat.div_one, Nat.mul_one,
    Nat.mod_one, Nat.add_zero, Nat.div_one, Nat.mul_one, Nat.mod_one, Nat.add_zero]

theorem eklundhTranspose128_length {rows : List Block} (sized : rows.length = 128) :
    (eklundhTranspose128 rows).length = 128 :=
  (eklundhTranspose128_exchanged sized).sized

theorem ext_entry {rows rows' : List Block} (sized : rows.length = 128)
    (sized' : rows'.length = 128)
    (same : ∀ r < 128, ∀ c < 128, entry rows r c = entry rows' r c) : rows = rows' := by
  apply List.ext_getElem (sized.trans sized'.symm)
  intro r below below'
  apply BitVec.eq_of_getLsbD_eq
  intro c inBlock
  have bits := same r (by omega) c inBlock
  unfold entry at bits
  rw [List.getD_eq_getElem _ _ below, List.getD_eq_getElem _ _ below'] at bits
  exact bits

/-- The function transposes every matrix, and applied twice it does nothing. -/
theorem eklundhTranspose128_transposes (inOut : Vector Block 128) :
    (eklundhTranspose128 inOut.toList).length = 128 ∧
      (∀ r c : Fin 128,
        entry (eklundhTranspose128 inOut.toList) r c = entry inOut.toList c r) ∧
      eklundhTranspose128 (eklundhTranspose128 inOut.toList) = inOut.toList := by
  have sized : inOut.toList.length = 128 := Vector.length_toList
  have once := eklundhTranspose128_length sized
  constructor
  · exact once
  constructor
  · intro r c
    exact entry_eklundhTranspose128 sized r.isLt c.isLt
  · apply ext_entry (eklundhTranspose128_length once) sized
    intro r row c column
    rw [entry_eklundhTranspose128 once row column, entry_eklundhTranspose128 sized column row]

end BatchDualEx
