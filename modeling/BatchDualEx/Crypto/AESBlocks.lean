import BatchDualEx.Crypto.AES

/- `AES128` on several blocks in memory: the unrolled functions, line by line. -/
namespace BatchDualEx

namespace AES128

open AESNI

/-- The blocks at their addresses, which count blocks. -/
abbrev BlockMemory := Nat → Block

/-- One assignment of a function that is called with `key`, `src` and `dest`. -/
abbrev Line := Key → Nat → Nat → BlockMemory → BlockMemory

def xor (d s : BitVec 32) (r : Fin 11) : Line := fun key src dest m =>
  Function.update m (dest + d.toNat) (m (src + s.toNat) ^^^ key.mRoundKey[r])

def enc (d s : BitVec 32) (r : Fin 11) : Line := fun key _ dest m =>
  Function.update m (dest + d.toNat) (mmAesencSi128 (m (dest + s.toNat)) key.mRoundKey[r])

def encLast (d s : BitVec 32) (r : Fin 11) : Line := fun key _ dest m =>
  Function.update m (dest + d.toNat) (mmAesenclastSi128 (m (dest + s.toNat)) key.mRoundKey[r])

def run (lines : List Line) (key : Key) (src dest : Nat) (m : BlockMemory) : BlockMemory :=
  lines.foldl (fun m line => line key src dest m) m

def ecbEncFourBlocks : Key → Nat → Nat → BlockMemory → BlockMemory :=
  run [
    xor 0 0 0, xor 1 1 0, xor 2 2 0, xor 3 3 0,
    enc 0 0 1, enc 1 1 1, enc 2 2 1, enc 3 3 1,
    enc 0 0 2, enc 1 1 2, enc 2 2 2, enc 3 3 2,
    enc 0 0 3, enc 1 1 3, enc 2 2 3, enc 3 3 3,
    enc 0 0 4, enc 1 1 4, enc 2 2 4, enc 3 3 4,
    enc 0 0 5, enc 1 1 5, enc 2 2 5, enc 3 3 5,
    enc 0 0 6, enc 1 1 6, enc 2 2 6, enc 3 3 6,
    enc 0 0 7, enc 1 1 7, enc 2 2 7, enc 3 3 7,
    enc 0 0 8, enc 1 1 8, enc 2 2 8, enc 3 3 8,
    enc 0 0 9, enc 1 1 9, enc 2 2 9, enc 3 3 9,
    encLast 0 0 10, encLast 1 1 10, encLast 2 2 10, encLast 3 3 10]

def ecbEncTwoBlocks : Key → Nat → Nat → BlockMemory → BlockMemory :=
  run [
    xor 0 0 0, xor 1 1 0,
    enc 0 0 1, enc 1 1 1,
    enc 0 0 2, enc 1 1 2,
    enc 0 0 3, enc 1 1 3,
    enc 0 0 4, enc 1 1 4,
    enc 0 0 5, enc 1 1 5,
    enc 0 0 6, enc 1 1 6,
    enc 0 0 7, enc 1 1 7,
    enc 0 0 8, enc 1 1 8,
    enc 0 0 9, enc 1 1 9,
    encLast 0 0 10, encLast 1 1 10]

def encUnrolled (k : BitVec 32) : Key → Nat → Nat → BlockMemory → BlockMemory :=
  run [
    xor (k + 0) (k + 0) 0, xor (k + 1) (k + 1) 0, xor (k + 2) (k + 2) 0, xor (k + 3) (k + 3) 0,
    xor (k + 4) (k + 4) 0, xor (k + 5) (k + 5) 0, xor (k + 6) (k + 6) 0, xor (k + 7) (k + 7) 0,
    enc (k + 0) (k + 0) 1, enc (k + 1) (k + 1) 1, enc (k + 2) (k + 2) 1, enc (k + 3) (k + 3) 1,
    enc (k + 4) (k + 4) 1, enc (k + 5) (k + 5) 1, enc (k + 6) (k + 6) 1, enc (k + 7) (k + 7) 1,
    enc (k + 0) (k + 0) 2, enc (k + 1) (k + 1) 2, enc (k + 2) (k + 2) 2, enc (k + 3) (k + 3) 2,
    enc (k + 4) (k + 4) 2, enc (k + 5) (k + 5) 2, enc (k + 6) (k + 6) 2, enc (k + 7) (k + 7) 2,
    enc (k + 0) (k + 0) 3, enc (k + 1) (k + 1) 3, enc (k + 2) (k + 2) 3, enc (k + 3) (k + 3) 3,
    enc (k + 4) (k + 4) 3, enc (k + 5) (k + 5) 3, enc (k + 6) (k + 6) 3, enc (k + 7) (k + 7) 3,
    enc (k + 0) (k + 0) 4, enc (k + 1) (k + 1) 4, enc (k + 2) (k + 2) 4, enc (k + 3) (k + 3) 4,
    enc (k + 4) (k + 4) 4, enc (k + 5) (k + 5) 4, enc (k + 6) (k + 6) 4, enc (k + 7) (k + 7) 4,
    enc (k + 0) (k + 0) 5, enc (k + 1) (k + 1) 5, enc (k + 2) (k + 2) 5, enc (k + 3) (k + 3) 5,
    enc (k + 4) (k + 4) 5, enc (k + 5) (k + 5) 5, enc (k + 6) (k + 6) 5, enc (k + 7) (k + 7) 5,
    enc (k + 0) (k + 0) 6, enc (k + 1) (k + 1) 6, enc (k + 2) (k + 2) 6, enc (k + 3) (k + 3) 6,
    enc (k + 4) (k + 4) 6, enc (k + 5) (k + 5) 6, enc (k + 6) (k + 6) 6, enc (k + 7) (k + 7) 6,
    enc (k + 0) (k + 0) 7, enc (k + 1) (k + 1) 7, enc (k + 2) (k + 2) 7, enc (k + 3) (k + 3) 7,
    enc (k + 4) (k + 4) 7, enc (k + 5) (k + 5) 7, enc (k + 6) (k + 6) 7, enc (k + 7) (k + 7) 7,
    enc (k + 0) (k + 0) 8, enc (k + 1) (k + 1) 8, enc (k + 2) (k + 2) 8, enc (k + 3) (k + 3) 8,
    enc (k + 4) (k + 4) 8, enc (k + 5) (k + 5) 8, enc (k + 6) (k + 6) 8, enc (k + 7) (k + 7) 8,
    enc (k + 0) (k + 0) 9, enc (k + 1) (k + 1) 9, enc (k + 2) (k + 2) 9, enc (k + 3) (k + 3) 9,
    enc (k + 4) (k + 4) 9, enc (k + 5) (k + 5) 9, enc (k + 6) (k + 6) 9, enc (k + 7) (k + 7) 9,
    encLast (k + 0) (k + 0) 10, encLast (k + 1) (k + 1) 10, encLast (k + 2) (k + 2) 10,
    encLast (k + 3) (k + 3) 10, encLast (k + 4) (k + 4) 10, encLast (k + 5) (k + 5) 10,
    encLast (k + 6) (k + 6) 10, encLast (k + 7) (k + 7) 10]

def encRemaining (i : BitVec 32) : Key → Nat → Nat → BlockMemory → BlockMemory :=
  run [
    xor i i 0,
    enc i i 1,
    enc i i 2,
    enc i i 3,
    enc i i 4,
    enc i i 5,
    enc i i 6,
    enc i i 7,
    enc i i 8,
    enc i i 9,
    encLast i i 10]

def mainLoop (key : Key) (src dest : Nat) : Nat → BitVec 32 → BlockMemory → BlockMemory
  | 0, _, m => m
  | left + 1, k, m => mainLoop key src dest left (k + 8) (encUnrolled k key src dest m)

def remainingLoop (key : Key) (src dest : Nat) (size : BitVec 64) :
    Nat → BitVec 32 → BlockMemory → Option BlockMemory
  | 0, _, _ => none
  | fuel + 1, i, m =>
    if i.setWidth 64 < size then
      remainingLoop key src dest size fuel (i + 1) (encRemaining i key src dest m)
    else some m

def ecbEncBlocks (fuel : Nat) (key : Key) (src dest : Nat) (size : BitVec 64) (m : BlockMemory) :
    Option BlockMemory :=
  let unrollCount : BitVec 32 := 8
  let mainLoopCount : BitVec 32 := size.setWidth 32 / unrollCount
  let m := mainLoop key src dest mainLoopCount.toNat 0 m
  remainingLoop key src dest size fuel (mainLoopCount * unrollCount) m

def round (r : Fin 11) (i : BitVec 32) : Line :=
  if r = 0 then xor i i 0 else if r = 10 then encLast i i 10 else enc i i r

def rounds (blocks : List (BitVec 32)) : List Line :=
  (List.finRange 11).flatMap fun r => blocks.map (round r)

theorem ecbEncTwoBlocks_eq : ecbEncTwoBlocks = run (rounds [0, 1]) := rfl

theorem ecbEncFourBlocks_eq : ecbEncFourBlocks = run (rounds [0, 1, 2, 3]) := rfl

theorem encUnrolled_eq (k : BitVec 32) : encUnrolled k =
    run (rounds [k + 0, k + 1, k + 2, k + 3, k + 4, k + 5, k + 6, k + 7]) := rfl

theorem encRemaining_eq (i : BitVec 32) : encRemaining i = run (rounds [i]) := rfl

def roundValue (key : Key) (x : Block) (r : Fin 11) : Block :=
  if r = 0 then x ^^^ key.mRoundKey[r] else if r = 10 then mmAesenclastSi128 x key.mRoundKey[r]
  else mmAesencSi128 x key.mRoundKey[r]

theorem ecbEncBlock_foldl (key : Key) (x : Block) :
    ecbEncBlock key x = (List.finRange 11).foldl (roundValue key) x := rfl

variable (key : Key) (src dest : Nat)

/-- Only the first round reads from `src`. -/
theorem round_eq (r : Fin 11) (i : BitVec 32) (m : BlockMemory) :
    round r i key src dest m = Function.update m (dest + i.toNat)
      (roundValue key (m ((if r = 0 then src else dest) + i.toNat)) r) := by
  unfold round roundValue
  split
  · rename_i first
    subst first
    rfl
  · split
    · rename_i last
      subst last
      rfl
    · rfl

/-- One round for a list of blocks, none of which is read after another has been written there. -/
theorem run_round (r : Fin 11) {blocks : List (BitVec 32)} (nodup : blocks.Nodup)
    (apart : ∀ i ∈ blocks, ∀ j ∈ blocks,
      (if r = 0 then src else dest) + i.toNat = dest + j.toNat → i = j) (m : BlockMemory) :
    (∀ i ∈ blocks, run (blocks.map (round r)) key src dest m (dest + i.toNat) =
        roundValue key (m ((if r = 0 then src else dest) + i.toNat)) r) ∧
      ∀ a, (∀ i ∈ blocks, a ≠ dest + i.toNat) →
        run (blocks.map (round r)) key src dest m a = m a := by
  induction blocks generalizing m with
  | nil => exact ⟨fun _ listed => absurd listed List.not_mem_nil, fun _ _ => rfl⟩
  | cons j blocks ih =>
    obtain ⟨notLater, nodup⟩ := List.nodup_cons.mp nodup
    have first : run ((j :: blocks).map (round r)) key src dest m =
        run (blocks.map (round r)) key src dest (round r j key src dest m) := rfl
    have later := ih nodup (fun i listed k listed' => apart i (List.mem_cons_of_mem j listed) k
      (List.mem_cons_of_mem j listed')) (round r j key src dest m)
    rw [first]
    constructor
    · intro i listed
      rcases List.mem_cons.mp listed with rfl | inRest
      · rw [later.2 (dest + i.toNat), round_eq, Function.update_self]
        intro k inRest same
        have equal : i = k := BitVec.eq_of_toNat_eq (by omega)
        exact notLater (equal ▸ inRest)
      · rw [later.1 i inRest, round_eq, Function.update_of_ne]
        intro same
        have equal := apart i listed j List.mem_cons_self same
        exact notLater (equal ▸ inRest)
    · intro a elsewhere
      rw [later.2 a fun i listed => elsewhere i (List.mem_cons_of_mem j listed), round_eq,
        Function.update_of_ne (elsewhere j List.mem_cons_self)]

theorem run_laterRounds {rs : List (Fin 11)} (notFirst : 0 ∉ rs) {blocks : List (BitVec 32)}
    (nodup : blocks.Nodup) (m : BlockMemory) :
    (∀ i ∈ blocks, run (rs.flatMap fun r => blocks.map (round r)) key src dest m (dest + i.toNat) =
        rs.foldl (roundValue key) (m (dest + i.toNat))) ∧
      ∀ a, (∀ i ∈ blocks, a ≠ dest + i.toNat) →
        run (rs.flatMap fun r => blocks.map (round r)) key src dest m a = m a := by
  induction rs generalizing m with
  | nil => exact ⟨fun _ _ => rfl, fun _ _ => rfl⟩
  | cons r rs ih =>
    rw [List.mem_cons, not_or] at notFirst
    have other : r ≠ 0 := Ne.symm notFirst.1
    have here := run_round key src dest r nodup (fun i _ j _ same => by
      rw [if_neg other] at same
      exact BitVec.eq_of_toNat_eq (by omega)) m
    rw [if_neg other] at here
    have split : run ((r :: rs).flatMap fun r => blocks.map (round r)) key src dest m =
        run (rs.flatMap fun r => blocks.map (round r)) key src dest
          (run (blocks.map (round r)) key src dest m) := by
      rw [List.flatMap_cons, run, List.foldl_append]
      rfl
    have later := ih notFirst.2 (run (blocks.map (round r)) key src dest m)
    rw [split]
    constructor
    · intro i listed
      rw [later.1 i listed, here.1 i listed, List.foldl_cons]
    · intro a elsewhere
      rw [later.2 a elsewhere, here.2 a elsewhere]

theorem run_rounds {blocks : List (BitVec 32)} (nodup : blocks.Nodup)
    (apart : ∀ i ∈ blocks, ∀ j ∈ blocks, src + i.toNat = dest + j.toNat → i = j)
    (m : BlockMemory) :
    (∀ i ∈ blocks, run (rounds blocks) key src dest m (dest + i.toNat) =
        ecbEncBlock key (m (src + i.toNat))) ∧
      ∀ a, (∀ i ∈ blocks, a ≠ dest + i.toNat) → run (rounds blocks) key src dest m a = m a := by
  have first := run_round key src dest 0 nodup apart m
  obtain ⟨rs, isRs⟩ : ∃ rs, List.finRange 11 = 0 :: rs := ⟨_, rfl⟩
  have notFirst : 0 ∉ rs := (List.nodup_cons.mp (isRs ▸ List.nodup_finRange 11)).1
  have later := run_laterRounds key src dest notFirst nodup
    (run (blocks.map (round 0)) key src dest m)
  have split : run (rounds blocks) key src dest m = run (rs.flatMap fun r => blocks.map (round r))
      key src dest (run (blocks.map (round 0)) key src dest m) := by
    rw [rounds, isRs, List.flatMap_cons, run, List.foldl_append]
    rfl
  rw [split]
  constructor
  · intro i listed
    rw [later.1 i listed, first.1 i listed, ecbEncBlock_foldl, isRs, List.foldl_cons]
    rfl
  · intro a elsewhere
    rw [later.2 a elsewhere, first.2 a elsewhere]

/-- The blocks from `lo` to `hi` are encrypted into `dest`, and no other address is written. -/
structure Encrypted (key : Key) (src dest lo hi : Nat) (m m' : BlockMemory) : Prop where
  inside : ∀ i, lo ≤ i → i < hi → m' (dest + i) = ecbEncBlock key (m (src + i))
  outside : ∀ a, (∀ i, lo ≤ i → i < hi → a ≠ dest + i) → m' a = m a

variable {key src dest}

/-- The two arrays of `n` blocks are one, or have no block in common. -/
def Placed (src dest n : Nat) : Prop :=
  dest = src ∨ ∀ i < n, ∀ j < n, dest + i ≠ src + j

theorem Placed.apart {n : Nat} (placed : Placed src dest n) {i j : Nat} (hi : i < n) (hj : j < n)
    (same : src + i = dest + j) : i = j := by
  rcases placed with one | two
  · omega
  · exact absurd same.symm (two j hj i hi)

theorem encrypted_none (lo : Nat) (m : BlockMemory) : Encrypted key src dest lo lo m m :=
  ⟨fun i from_lo to_lo => absurd to_lo (by omega), fun _ _ => rfl⟩

theorem Encrypted.trans {n lo mid hi : Nat} (placed : Placed src dest n) (order : lo ≤ mid)
    (order' : mid ≤ hi) (fits : hi ≤ n) {m m₁ m₂ : BlockMemory}
    (first : Encrypted key src dest lo mid m m₁) (later : Encrypted key src dest mid hi m₁ m₂) :
    Encrypted key src dest lo hi m m₂ := by
  constructor
  · intro i from_lo to_hi
    by_cases before : i < mid
    · rw [later.outside (dest + i) fun j from_mid _ => by omega]
      exact first.inside i from_lo before
    · rw [later.inside i (by omega) to_hi, first.outside]
      intro j from_lo to_mid same
      have equal := placed.apart (by omega) (by omega) same
      omega
  · intro a elsewhere
    rw [later.outside a fun i from_mid to_hi => elsewhere i (by omega) to_hi,
      first.outside a fun i from_lo to_mid => elsewhere i from_lo (by omega)]

variable (key)

theorem encrypted_rounds {n lo hi : Nat} (placed : Placed src dest n) (fits : hi ≤ n)
    {blocks : List (BitVec 32)} (nodup : blocks.Nodup)
    (indices : ∀ k, k ∈ blocks.map BitVec.toNat ↔ lo ≤ k ∧ k < hi) (m : BlockMemory) :
    Encrypted key src dest lo hi m (run (rounds blocks) key src dest m) := by
  have bounds (i : BitVec 32) (listed : i ∈ blocks) : lo ≤ i.toNat ∧ i.toNat < hi :=
    (indices i.toNat).mp (List.mem_map_of_mem listed)
  have ran := run_rounds key src dest nodup (fun i listed j listed' same => by
    have below := bounds i listed
    have below' := bounds j listed'
    exact BitVec.eq_of_toNat_eq (placed.apart (by omega) (by omega) same)) m
  constructor
  · intro k from_lo to_hi
    obtain ⟨i, listed, rfl⟩ := List.mem_map.mp ((indices k).mpr ⟨from_lo, to_hi⟩)
    exact ran.1 i listed
  · intro a elsewhere
    apply ran.2
    intro i listed
    have below := bounds i listed
    exact elsewhere i.toNat below.1 below.2

theorem encrypted_unrolled {n : Nat} (placed : Placed src dest n) {k : BitVec 32}
    (fits : k.toNat + 8 ≤ n) (small : n < 2 ^ 32) (m : BlockMemory) :
    Encrypted key src dest k.toNat (k.toNat + 8) m (encUnrolled k key src dest m) := by
  have value (i : BitVec 32) (few : i.toNat < 8) : (k + i).toNat = k.toNat + i.toNat := by
    rw [BitVec.toNat_add, Nat.mod_eq_of_lt (by omega)]
  have values : [k + 0, k + 1, k + 2, k + 3, k + 4, k + 5, k + 6, k + 7].map BitVec.toNat =
      [k.toNat + 0, k.toNat + 1, k.toNat + 2, k.toNat + 3, k.toNat + 4, k.toNat + 5, k.toNat + 6,
        k.toNat + 7] := by
    simp only [List.map_cons, List.map_nil]
    rw [value 0 (by decide), value 1 (by decide), value 2 (by decide), value 3 (by decide),
      value 4 (by decide), value 5 (by decide), value 6 (by decide), value 7 (by decide)]
    rfl
  rw [encUnrolled_eq]
  apply encrypted_rounds key placed fits
  · apply List.Nodup.of_map BitVec.toNat
    rw [values]
    simp
  · intro i
    rw [values]
    simp only [List.mem_cons, List.not_mem_nil, or_false]
    omega

theorem encrypted_remaining {n : Nat} (placed : Placed src dest n) {i : BitVec 32}
    (fits : i.toNat + 1 ≤ n) (m : BlockMemory) :
    Encrypted key src dest i.toNat (i.toNat + 1) m (encRemaining i key src dest m) := by
  rw [encRemaining_eq]
  apply encrypted_rounds key placed fits (List.nodup_singleton i)
  intro k
  rw [List.map_cons, List.map_nil, List.mem_singleton]
  omega

theorem encrypted_mainLoop {n : Nat} (placed : Placed src dest n) (small : n < 2 ^ 32)
    (left : Nat) {k : BitVec 32} (fits : k.toNat + 8 * left ≤ n) (m : BlockMemory) :
    Encrypted key src dest k.toNat (k.toNat + 8 * left) m (mainLoop key src dest left k m) := by
  induction left generalizing k m with
  | zero => exact encrypted_none k.toNat m
  | succ left ih =>
    have turn := encrypted_unrolled key placed (k := k) (by omega) small m
    by_cases last : left = 0
    · subst last
      exact turn
    · have next : (k + 8).toNat = k.toNat + 8 := by
        rw [BitVec.toNat_add, show (8 : BitVec 32).toNat = 8 from rfl, Nat.mod_eq_of_lt (by omega)]
      have rest := ih (k := k + 8) (by omega) (encUnrolled k key src dest m)
      rw [next, show k.toNat + 8 + 8 * left = k.toNat + 8 * (left + 1) by omega] at rest
      exact turn.trans placed (by omega) (by omega) fits rest

theorem encrypted_remainingLoop {size : BitVec 64} (placed : Placed src dest size.toNat)
    (small : size.toNat < 2 ^ 32) {fuel : Nat} {i : BitVec 32} (fits : i.toNat ≤ size.toNat)
    (enough : size.toNat < fuel + i.toNat) (m : BlockMemory) :
    ∃ m', remainingLoop key src dest size fuel i m = some m' ∧
      Encrypted key src dest i.toNat size.toNat m m' := by
  induction fuel generalizing i m with
  | zero => omega
  | succ fuel ih =>
    have compare : i.setWidth 64 < size ↔ i.toNat < size.toNat := by
      rw [BitVec.lt_def, BitVec.toNat_setWidth, Nat.mod_eq_of_lt (by omega)]
    rw [remainingLoop]
    by_cases more : i.toNat < size.toNat
    · have next : (i + 1).toNat = i.toNat + 1 := by
        rw [BitVec.toNat_add, show (1 : BitVec 32).toNat = 1 from rfl, Nat.mod_eq_of_lt (by omega)]
      rw [if_pos (compare.mpr more)]
      obtain ⟨m', run, rest⟩ := ih (i := i + 1) (by omega) (by omega)
        (encRemaining i key src dest m)
      rw [next] at rest
      have turn := encrypted_remaining key placed more m
      exact ⟨m', run, turn.trans placed (by omega) more le_rfl rest⟩
    · rw [if_neg (mt compare.mp more)]
      have done : i.toNat = size.toNat := by omega
      exact ⟨m, rfl, done ▸ encrypted_none i.toNat m⟩

theorem encrypted_ecbEncBlocks {size : BitVec 64} (placed : Placed src dest size.toNat)
    (small : size.toNat < 2 ^ 32) {fuel : Nat} (enough : size.toNat < fuel) (m : BlockMemory) :
    ∃ m', ecbEncBlocks fuel key src dest size m = some m' ∧
      Encrypted key src dest 0 size.toNat m m' := by
  have count : (size.setWidth 32 / 8).toNat = size.toNat / 8 := by
    rw [BitVec.toNat_udiv, BitVec.toNat_setWidth, Nat.mod_eq_of_lt small]
    rfl
  have start : (size.setWidth 32 / 8 * 8).toNat = 8 * (size.toNat / 8) := by
    rw [BitVec.toNat_mul, count, show (8 : BitVec 32).toNat = 8 from rfl,
      Nat.mod_eq_of_lt (by omega)]
    omega
  have main := encrypted_mainLoop key placed small (size.toNat / 8) (k := 0)
    (by rw [show (0 : BitVec 32).toNat = 0 from rfl]; omega) m
  rw [show (0 : BitVec 32).toNat = 0 from rfl, Nat.zero_add] at main
  obtain ⟨m', run, rest⟩ := encrypted_remainingLoop key placed small (i := size.setWidth 32 / 8 * 8)
    (by omega) (show size.toNat < fuel + _ by omega)
    (mainLoop key src dest (size.toNat / 8) 0 m)
  rw [start] at rest
  refine ⟨m', ?_, main.trans placed (Nat.zero_le _) (by omega) le_rfl rest⟩
  rw [ecbEncBlocks, count]
  exact run

/-- All three functions write what `ecbEncBlock` gives for every block, and nothing else. -/
theorem ecbEncBlocks_encrypts (src dest : Nat) (m : BlockMemory) :
    (∀ size : BitVec 64, size.toNat < 2 ^ 32 → Placed src dest size.toNat →
      ∀ fuel, size.toNat < fuel → ∃ m', ecbEncBlocks fuel key src dest size m = some m' ∧
        Encrypted key src dest 0 size.toNat m m') ∧
    (Placed src dest 2 → Encrypted key src dest 0 2 m (ecbEncTwoBlocks key src dest m)) ∧
    (Placed src dest 4 → Encrypted key src dest 0 4 m (ecbEncFourBlocks key src dest m)) := by
  refine ⟨fun size small placed fuel enough => ?_, fun placed => ?_, fun placed => ?_⟩
  · exact encrypted_ecbEncBlocks key placed small enough m
  · rw [ecbEncTwoBlocks_eq]
    apply encrypted_rounds key placed le_rfl (by decide)
    intro k
    simp
    omega
  · rw [ecbEncFourBlocks_eq]
    apply encrypted_rounds key placed le_rfl (by decide)
    intro k
    simp
    omega

theorem ecbEncBlocks_encrypts_nine :
    (∃ m', ecbEncBlocks 10 ⟨Vector.replicate 11 0⟩ 0 0 9 (fun _ => 0) = some m' ∧
        Encrypted ⟨Vector.replicate 11 0⟩ 0 0 0 9 (fun _ => 0) m') ∧
      Encrypted ⟨Vector.replicate 11 0⟩ 0 2 0 2 (fun _ => 0)
        (ecbEncTwoBlocks ⟨Vector.replicate 11 0⟩ 0 2 fun _ => 0) ∧
      Encrypted ⟨Vector.replicate 11 0⟩ 4 0 0 4 (fun _ => 0)
        (ecbEncFourBlocks ⟨Vector.replicate 11 0⟩ 4 0 fun _ => 0) := by
  refine ⟨?_, ?_, ?_⟩
  · exact (ecbEncBlocks_encrypts _ 0 0 _).1 9 (by decide) (.inl rfl) 10 (by decide)
  · exact (ecbEncBlocks_encrypts _ 0 2 _).2.1 (.inr (by omega))
  · exact (ecbEncBlocks_encrypts _ 4 0 _).2.2 (.inr (by omega))

end AES128

end BatchDualEx
