import BatchDualEx.Crypto.AES
import BatchDualEx.Crypto.PRNG

/- `PRNG` with its members: a counter that is encrypted, the block that it gives, and how much of
   the block has been used. Every call takes bytes of one stream, in its order. -/
namespace BatchDualEx

open Bytes AESNI AES128

structure PRNGMembers where
  seed : Block
  state : List Byte
  random : List Byte
  mKeyShedule : Key
  cnt : Nat

namespace PRNGMembers

def RAND_SIZE : Nat := 16

def hash (g : PRNGMembers) : PRNGMembers :=
  { g with random := byteArray (ecbEncBlock g.mKeyShedule (blockOfBytes g.state)), cnt := 0 }

/-- `state[i] = state[i] + 1`, and on to the next byte while the sum is zero. -/
def increment : List Byte → List Byte
  | [] => []
  | byte :: bytes => if byte + 1 = 0 then 0 :: increment bytes else (byte + 1) :: bytes

def next (g : PRNGMembers) : PRNGMembers := hash { g with state := increment g.state }

/-- The members that are not set stay as they were. -/
def setSeed (g : PRNGMembers) (seed : Block) : PRNGMembers :=
  next { g with seed := seed, mKeyShedule := encKeyGen seed, state := List.replicate 16 0 }

def getUchar (g : PRNGMembers) : Byte × PRNGMembers :=
  let g := if g.cnt ≥ RAND_SIZE then g.next else g
  (g.random.getD g.cnt 0, { g with cnt := g.cnt + 1 })

def getBit (g : PRNGMembers) : Byte × PRNGMembers :=
  let (byte, g) := g.getUchar
  (byte &&& 1, g)

def uintOfBytes (a0 a1 a2 a3 : Byte) : BitVec 32 :=
  a0.setWidth 32 + a1.setWidth 32 <<< 8 + a2.setWidth 32 <<< 16 + a3.setWidth 32 <<< 24

def getUint (g : PRNGMembers) : BitVec 32 × PRNGMembers :=
  let g := if g.cnt > RAND_SIZE - 4 then g.next else g
  (uintOfBytes (g.random.getD g.cnt 0) (g.random.getD (g.cnt + 1) 0) (g.random.getD (g.cnt + 2) 0)
    (g.random.getD (g.cnt + 3) 0), { g with cnt := g.cnt + 4 })

def getU64 (g : PRNGMembers) : BitVec 64 × PRNGMembers :=
  let (high, g) := g.getUint
  let a : BitVec 64 := high.setWidth 64 <<< 32
  let (low, g) := g.getUint
  (a + low.setWidth 64, g)

/-- The loop of `get_u8s`, with the bytes that have been written. `RAND_SIZE - cnt` is a `u64`. -/
def u8sLoop : Nat → PRNGMembers → List Byte → Nat → Option (List Byte × PRNGMembers)
  | 0, _, _, _ => none
  | fuel + 1, g, ans, len =>
    if len ≠ 0 then
      let step := min len ((2 ^ 64 + RAND_SIZE - g.cnt) % 2 ^ 64)
      let ans := ans ++ (g.random.drop g.cnt).take step
      let g := { g with cnt := g.cnt + step }
      u8sLoop fuel (if g.cnt = RAND_SIZE then g.next else g) ans (len - step)
    else some (ans, g)

/-- None where the loop does not end after `fuel` turns. -/
def getU8s (fuel : Nat) (g : PRNGMembers) (len : Nat) : Option (List Byte × PRNGMembers) :=
  u8sLoop fuel g [] len

def getBlock (fuel : Nat) (g : PRNGMembers) : Option (Block × PRNGMembers) :=
  (g.getU8s fuel 16).map fun (bytes, g) => (blockOfBytes bytes, g)

/-- Byte `p` of `AES_seed(1) || AES_seed(2) || ...`. -/
def keystream (seed : Block) (p : Nat) : Byte :=
  byteAt (ecbEncBlock (encKeyGen seed) (BitVec.ofNat 128 (p / 16 + 1))) (p % 16)

/-- The generator stands after `n` blocks, in the last of which `cnt` bytes are used. -/
structure At (seed : Block) (n : Nat) (g : PRNGMembers) : Prop where
  key : g.mKeyShedule = encKeyGen seed
  state : g.state = littleEndian 16 n
  random : g.random = byteArray (ecbEncBlock (encKeyGen seed) (BitVec.ofNat 128 n))
  used : g.cnt ≤ 16
  positive : 0 < n

def position (n : Nat) (g : PRNGMembers) : Nat := 16 * (n - 1) + g.cnt

theorem increment_littleEndian (k n : Nat) :
    increment (littleEndian k n) = littleEndian k (n + 1) := by
  induction k generalizing n with
  | zero => rfl
  | succ k ih =>
    have sum : BitVec.ofNat 8 n + 1 = BitVec.ofNat 8 (n + 1) := (BitVec.ofNat_add n 1).symm
    rw [littleEndian, increment, littleEndian, sum]
    by_cases wraps : (n + 1) % 256 = 0
    · have zero : BitVec.ofNat 8 (n + 1) = 0 := BitVec.eq_of_toNat_eq wraps
      rw [if_pos zero, ih, zero, show (n + 1) / 256 = n / 256 + 1 by omega]
    · have nonzero : BitVec.ofNat 8 (n + 1) ≠ 0 := fun zero => wraps (congrArg BitVec.toNat zero)
      rw [if_neg nonzero, show (n + 1) / 256 = n / 256 by omega]

theorem getD_littleEndian (k n : Nat) {i : Nat} (inside : i < k) :
    (littleEndian k n).getD i 0 = BitVec.ofNat 8 (n / 256 ^ i) := by
  induction k generalizing n i with
  | zero => omega
  | succ k ih =>
    cases i with
    | zero => simp [littleEndian]
    | succ i =>
      rw [littleEndian, List.getD_cons_succ, ih (n / 256) (by omega), Nat.div_div_eq_div_mul,
        Nat.pow_succ']

theorem blockOfBytes_littleEndian (n : Nat) :
    blockOfBytes (littleEndian 16 n) = BitVec.ofNat 128 n := by
  apply BitVec.eq_of_getLsbD_eq
  intro c inside
  rw [getLsbD_blockOfBytes _ inside, bit, getD_littleEndian 16 n (by omega), BitVec.getLsbD_ofNat,
    BitVec.getLsbD_ofNat, show 256 ^ (c / 8) = 2 ^ (8 * (c / 8)) by rw [Nat.pow_mul],
    Nat.testBit_div_two_pow, show c % 8 + 8 * (c / 8) = c by omega]
  simp [inside, Nat.mod_lt]

theorem getD_byteArray (b : Block) {i : Nat} (inside : i < 16) :
    (byteArray b).getD i 0 = byteAt b i := by
  simp [byteArray, byteAt, inside]

theorem at_next {seed : Block} {n : Nat} {g : PRNGMembers} (here : At seed n g) :
    At seed (n + 1) g.next ∧ g.next.cnt = 0 := by
  have state : g.next.state = littleEndian 16 (n + 1) := by
    rw [← increment_littleEndian, ← here.state]
    rfl
  refine ⟨⟨here.key, state, ?_, Nat.zero_le _, Nat.succ_pos n⟩, rfl⟩
  calc g.next.random = byteArray (ecbEncBlock g.mKeyShedule (blockOfBytes g.next.state)) := rfl
    _ = _ := by rw [here.key, state, blockOfBytes_littleEndian]

theorem at_setSeed (g : PRNGMembers) (seed : Block) :
    At seed 1 (g.setSeed seed) ∧ position 1 (g.setSeed seed) = 0 := by
  have state : (g.setSeed seed).state = littleEndian 16 1 := by
    have zeros : List.replicate 16 0 = littleEndian 16 0 := rfl
    calc (g.setSeed seed).state = increment (List.replicate 16 0) := rfl
      _ = littleEndian 16 1 := by rw [zeros, increment_littleEndian]
  refine ⟨⟨rfl, state, ?_, Nat.zero_le _, Nat.one_pos⟩, rfl⟩
  calc (g.setSeed seed).random =
      byteArray (ecbEncBlock (encKeyGen seed) (blockOfBytes (g.setSeed seed).state)) := rfl
    _ = _ := by rw [state, blockOfBytes_littleEndian]

/-- The unused bytes of the current block are the next ones of the stream. -/
theorem random_eq {seed : Block} {n : Nat} {g : PRNGMembers} (here : At seed n g) {i : Nat}
    (unused : g.cnt + i < 16) :
    g.random.getD (g.cnt + i) 0 = keystream seed (position n g + i) := by
  have positive := here.positive
  rw [here.random, getD_byteArray _ unused, keystream, position,
    show (16 * (n - 1) + g.cnt + i) / 16 + 1 = n by omega,
    show (16 * (n - 1) + g.cnt + i) % 16 = g.cnt + i by omega]

theorem at_skip {seed : Block} {n : Nat} {g : PRNGMembers} (here : At seed n g) {k : Nat}
    (unused : g.cnt + k ≤ 16) :
    At seed n { g with cnt := g.cnt + k } ∧
      position n { g with cnt := g.cnt + k } = position n g + k :=
  ⟨⟨here.key, here.state, here.random, unused, here.positive⟩, (Nat.add_assoc _ _ _).symm⟩

theorem at_refill {seed : Block} {n : Nat} {g : PRNGMembers} (here : At seed n g) :
    At seed (n + 1) g.next ∧ position n g ≤ position (n + 1) g.next ∧
      (g.cnt = 16 → position (n + 1) g.next = position n g) := by
  obtain ⟨there, unused⟩ := at_next here
  have used := here.used
  have positive := here.positive
  refine ⟨there, ?_, ?_⟩
  · unfold position
    omega
  · intro full
    unfold position
    omega

theorem getUchar_spec {seed : Block} {n : Nat} {g : PRNGMembers} (here : At seed n g) :
    g.getUchar.1 = keystream seed (position n g) ∧
      ∃ n', At seed n' g.getUchar.2 ∧ position n' g.getUchar.2 = position n g + 1 := by
  have used := here.used
  unfold getUchar
  by_cases full : g.cnt ≥ RAND_SIZE
  · have full' : g.cnt = 16 := Nat.le_antisymm used full
    obtain ⟨there, -, same⟩ := at_refill here
    have unused := (at_next here).2
    rw [if_pos full, ← same full']
    have byte := random_eq there (i := 0) (by omega)
    have skip := at_skip there (k := 1) (by omega)
    exact ⟨byte, n + 1, skip⟩
  · have more : g.cnt < 16 := Nat.lt_of_not_le full
    rw [if_neg full]
    have byte := random_eq here (i := 0) (by omega)
    have skip := at_skip here (k := 1) (by omega)
    exact ⟨byte, n, skip⟩

theorem getUint_spec {seed : Block} {n : Nat} {g : PRNGMembers} (here : At seed n g) :
    ∃ p, position n g ≤ p ∧
      g.getUint.1 = uintOfBytes (keystream seed p) (keystream seed (p + 1)) (keystream seed (p + 2))
        (keystream seed (p + 3)) ∧
      ∃ n', At seed n' g.getUint.2 ∧ position n' g.getUint.2 = p + 4 := by
  unfold getUint
  by_cases few : g.cnt > RAND_SIZE - 4
  · obtain ⟨there, later, -⟩ := at_refill here
    have unused := (at_next here).2
    rw [if_pos few]
    refine ⟨position (n + 1) g.next, later, ?_, n + 1, at_skip there (by omega)⟩
    rw [← random_eq there (i := 1) (by omega), ← random_eq there (i := 2) (by omega),
      ← random_eq there (i := 3) (by omega), ← Nat.add_zero (position _ _),
      ← random_eq there (i := 0) (by omega)]
    rfl
  · have enough : g.cnt + 4 ≤ 16 := by
      unfold RAND_SIZE at few
      omega
    rw [if_neg few]
    refine ⟨position n g, le_rfl, ?_, n, at_skip here enough⟩
    rw [← random_eq here (i := 1) (by omega), ← random_eq here (i := 2) (by omega),
      ← random_eq here (i := 3) (by omega), ← Nat.add_zero (position _ _),
      ← random_eq here (i := 0) (by omega)]
    rfl

def bytesFrom (seed : Block) (p len : Nat) : List Byte :=
  (List.range len).map fun i => keystream seed (p + i)

theorem bytesFrom_append (seed : Block) (p len len' : Nat) :
    bytesFrom seed p len ++ bytesFrom seed (p + len) len' = bytesFrom seed p (len + len') := by
  rw [bytesFrom, bytesFrom, bytesFrom, List.range_add, List.map_append, List.map_map]
  simp only [Function.comp_def, Nat.add_assoc]

theorem take_random {seed : Block} {n : Nat} {g : PRNGMembers} (here : At seed n g) {k : Nat}
    (unused : g.cnt + k ≤ 16) :
    (g.random.drop g.cnt).take k = bytesFrom seed (position n g) k := by
  have sized : g.random.length = 16 := by rw [here.random, byteArray_length]
  apply List.ext_getElem
  · rw [List.length_take, List.length_drop, bytesFrom, List.length_map, List.length_range]
    omega
  · intro i below _
    rw [List.length_take, List.length_drop] at below
    have byte := random_eq here (i := i) (by omega)
    rw [List.getD_eq_getElem _ _ (by omega)] at byte
    simpa [bytesFrom] using byte

/-- The loop returns the next bytes, and ends after at most a turn for each of them and one more. -/
theorem u8sLoop_spec {seed : Block} {n : Nat} {g : PRNGMembers} (here : At seed n g)
    {fuel len : Nat} (enough : len + (if g.cnt = 16 then 1 else 0) < fuel) (ans : List Byte) :
    ∃ g' n', u8sLoop fuel g ans len = some (ans ++ bytesFrom seed (position n g) len, g') ∧
      At seed n' g' ∧ position n' g' = position n g + len := by
  induction fuel generalizing n g ans len with
  | zero => omega
  | succ fuel ih =>
    have used := here.used
    rw [u8sLoop]
    by_cases none : len = 0
    · subst none
      rw [if_neg (not_not.mpr rfl)]
      exact ⟨g, n, by simp [bytesFrom], here, rfl⟩
    · obtain ⟨step, isStep⟩ : ∃ step, step = min len (16 - g.cnt) := ⟨_, rfl⟩
      have unsigned : min len ((2 ^ 64 + RAND_SIZE - g.cnt) % 2 ^ 64) = step := by
        unfold RAND_SIZE
        omega
      obtain ⟨there, moved⟩ := at_skip here (k := step) (by omega)
      have split : bytesFrom seed (position n g) step ++
            bytesFrom seed (position n g + step) (len - step) =
          bytesFrom seed (position n g) len := by
        rw [bytesFrom_append, Nat.add_sub_cancel' (by omega)]
      rw [if_pos none]
      simp only [unsigned]
      rw [take_random here (by omega)]
      by_cases full : g.cnt + step = RAND_SIZE
      · rw [if_pos full]
        obtain ⟨after, -, same⟩ := at_refill there
        have unused := (at_next there).2
        have fuelled : len - step +
            (if (next { g with cnt := g.cnt + step }).cnt = 16 then 1 else 0) < fuel := by
          rw [unused, if_neg (by decide)]
          split at enough <;> omega
        obtain ⟨g', n', run, there', moved'⟩ :=
          ih after fuelled (ans ++ bytesFrom seed (position n g) step)
        rw [same full, moved, List.append_assoc, split] at run
        rw [same full, moved] at moved'
        exact ⟨g', n', run, there', by omega⟩
      · have all : step = len := by
          unfold RAND_SIZE at full
          omega
        rw [if_neg full]
        have fuelled : len - step +
            (if ({ g with cnt := g.cnt + step } : PRNGMembers).cnt = 16 then 1 else 0) < fuel := by
          split
          · exact absurd ‹_› full
          · omega
        obtain ⟨g', n', run, there', moved'⟩ :=
          ih there fuelled (ans ++ bytesFrom seed (position n g) step)
        rw [moved, List.append_assoc, split] at run
        rw [moved] at moved'
        exact ⟨g', n', run, there', by omega⟩

theorem getU8s_spec {seed : Block} {n : Nat} {g : PRNGMembers} (here : At seed n g) (fuel len : Nat)
    (enough : len + 1 < fuel) :
    ∃ g' n', g.getU8s fuel len = some (bytesFrom seed (position n g) len, g') ∧
      At seed n' g' ∧ position n' g' = position n g + len :=
  u8sLoop_spec here (by split <;> omega) []

def stream (seed : Block) (p : Nat) : PRNG := fun i => UInt8.ofBitVec (keystream seed (p + i))

theorem tail_stream (seed : Block) (p : Nat) : (stream seed p).tail = stream seed (p + 1) := by
  funext i
  change UInt8.ofBitVec (keystream seed (p + (i + 1))) = UInt8.ofBitVec (keystream seed (p + 1 + i))
  rw [Nat.add_right_comm p 1 i, Nat.add_assoc]

theorem stream_getUchar {seed : Block} {n : Nat} {g : PRNGMembers} (here : At seed n g) :
    ∃ n', At seed n' g.getUchar.2 ∧ (stream seed (position n g)).getUchar =
      (UInt8.ofBitVec g.getUchar.1, stream seed (position n' g.getUchar.2)) := by
  obtain ⟨byte, n', there, moved⟩ := getUchar_spec here
  refine ⟨n', there, ?_⟩
  rw [PRNG.getUchar, tail_stream, moved, byte]
  rfl

theorem stream_getU8s (seed : Block) (p len : Nat) : (stream seed p).getU8s len =
    ((bytesFrom seed p len).map UInt8.ofBitVec, stream seed (p + len)) := by
  induction len generalizing p with
  | zero => rfl
  | succ len ih =>
    have bytes : bytesFrom seed p (len + 1) = keystream seed p :: bytesFrom seed (p + 1) len := by
      rw [Nat.add_comm len, ← bytesFrom_append]
      rfl
    simp only [PRNG.getU8s, PRNG.getUchar, tail_stream, ih, bytes, List.map_cons]
    rw [Nat.add_assoc, Nat.add_comm 1]
    rfl

/-- A generator with its members returns what one that is known by its stream does. -/
theorem getU8s_stream {seed : Block} {n : Nat} {g : PRNGMembers} (here : At seed n g)
    {fuel len : Nat} (enough : len + 1 < fuel) :
    ∃ bytes g' n', g.getU8s fuel len = some (bytes, g') ∧ At seed n' g' ∧
      (stream seed (position n g)).getU8s len =
        (bytes.map UInt8.ofBitVec, stream seed (position n' g')) := by
  obtain ⟨g', n', run, there, moved⟩ := getU8s_spec here fuel len enough
  exact ⟨_, g', n', run, there, moved ▸ stream_getU8s seed _ len⟩

/-- A call of one of the functions that take bytes. -/
inductive Call where
  | getU8s (len : Nat)
  | getBlock
  | getUchar
  | getBit
  | getUint
  | getU64
  deriving DecidableEq

inductive Output where
  | u8s (bytes : List Byte)
  | block (b : Block)
  | u8 (byte : Byte)
  | u32 (value : BitVec 32)
  | u64 (value : BitVec 64)
  deriving DecidableEq

namespace Call

def run (fuel : Nat) (g : PRNGMembers) : Call → Option (Output × PRNGMembers)
  | getU8s len => (g.getU8s fuel len).map fun (bytes, g) => (.u8s bytes, g)
  | getBlock => (g.getBlock fuel).map fun (b, g) => (.block b, g)
  | getUchar => some (.u8 g.getUchar.1, g.getUchar.2)
  | getBit => some (.u8 g.getBit.1, g.getBit.2)
  | getUint => some (.u32 g.getUint.1, g.getUint.2)
  | getU64 => some (.u64 g.getU64.1, g.getU64.2)

def size : Call → Nat
  | getU8s len => len
  | getBlock => 16
  | getUchar | getBit => 1
  | getUint => 4
  | getU64 => 8

def output (bytes : List Byte) : Call → Output
  | getU8s _ => .u8s bytes
  | getBlock => .block (blockOfBytes bytes)
  | getUchar => .u8 (bytes.getD 0 0)
  | getBit => .u8 (bytes.getD 0 0 &&& 1)
  | getUint =>
    .u32 (uintOfBytes (bytes.getD 0 0) (bytes.getD 1 0) (bytes.getD 2 0) (bytes.getD 3 0))
  | getU64 => .u64
      ((uintOfBytes (bytes.getD 0 0) (bytes.getD 1 0) (bytes.getD 2 0) (bytes.getD 3 0)).setWidth 64
          <<< 32 +
        (uintOfBytes (bytes.getD 4 0) (bytes.getD 5 0) (bytes.getD 6 0)
          (bytes.getD 7 0)).setWidth 64)

end Call

def Ordered (lo hi : Nat) (positions : List Nat) : Prop :=
  positions.Pairwise (· < ·) ∧ ∀ p ∈ positions, lo ≤ p ∧ p < hi

theorem Ordered.append {lo mid hi : Nat} {ps qs : List Nat} (first : Ordered lo mid ps)
    (later : Ordered mid hi qs) (order : lo ≤ mid) (order' : mid ≤ hi) :
    Ordered lo hi (ps ++ qs) := by
  constructor
  · rw [List.pairwise_append]
    refine ⟨first.1, later.1, fun p listed q listed' => ?_⟩
    have before := (first.2 p listed).2
    have after := (later.2 q listed').1
    omega
  · intro p listed
    rcases List.mem_append.mp listed with early | late
    · have bounds := first.2 p early
      omega
    · have bounds := later.2 p late
      omega

theorem ordered_range (p len : Nat) : Ordered p (p + len) ((List.range len).map (p + ·)) := by
  constructor
  · rw [List.pairwise_map]
    exact List.pairwise_lt_range.imp fun less => by omega
  · intro q listed
    obtain ⟨i, below, rfl⟩ := List.mem_map.mp listed
    have inside := List.mem_range.mp below
    omega

/-- Every call returns bytes of the stream from positions that nothing was taken from before. -/
theorem call_spec {seed : Block} {n : Nat} {g : PRNGMembers} (here : At seed n g) (call : Call)
    {fuel : Nat} (enough : max call.size 16 + 1 < fuel) :
    ∃ out g' n' positions, call.run fuel g = some (out, g') ∧ At seed n' g' ∧
      position n g ≤ position n' g' ∧ positions.length = call.size ∧
      Ordered (position n g) (position n' g') positions ∧
      out = call.output (positions.map (keystream seed)) := by
  cases call with
  | getU8s len =>
    obtain ⟨g', n', run, there, moved⟩ := getU8s_spec here fuel len
      (by simp only [Call.size] at enough; omega)
    refine ⟨_, g', n', (List.range len).map (position n g + ·), by rw [Call.run, run]; rfl, there,
      by omega, by simp [Call.size], moved ▸ ordered_range (position n g) len, ?_⟩
    rw [List.map_map]
    rfl
  | getBlock =>
    obtain ⟨g', n', run, there, moved⟩ := getU8s_spec here fuel 16
      (by simp only [Call.size] at enough; omega)
    refine ⟨_, g', n', (List.range 16).map (position n g + ·),
      by rw [Call.run, PRNGMembers.getBlock, run]; rfl, there,
      by omega, by simp [Call.size], moved ▸ ordered_range (position n g) 16, ?_⟩
    rw [List.map_map]
    rfl
  | getUchar =>
    obtain ⟨byte, n', there, moved⟩ := getUchar_spec here
    refine ⟨_, _, n', [position n g], rfl, there, by omega, rfl, ?_, by rw [byte]; rfl⟩
    exact ⟨List.pairwise_singleton _ _, by simp [moved]⟩
  | getBit =>
    obtain ⟨byte, n', there, moved⟩ := getUchar_spec here
    have run : Call.run fuel g .getBit = some (.u8 (g.getUchar.1 &&& 1), g.getUchar.2) := rfl
    refine ⟨_, _, n', [position n g], run, there, by omega, rfl, ?_, by rw [byte]; rfl⟩
    exact ⟨List.pairwise_singleton _ _, by simp [moved]⟩
  | getUint =>
    obtain ⟨p, later, value, n', there, moved⟩ := getUint_spec here
    refine ⟨_, _, n', (List.range 4).map (p + ·), rfl, there, by omega, rfl, ?_, by rw [value]; rfl⟩
    have ordered := ordered_range p 4
    exact ⟨ordered.1, fun q listed => by have := ordered.2 q listed; omega⟩
  | getU64 =>
    obtain ⟨p, later, high, n₁, there₁, moved₁⟩ := getUint_spec here
    obtain ⟨q, later', low, n', there, moved⟩ := getUint_spec there₁
    have run : Call.run fuel g .getU64 =
        some (.u64 (g.getUint.1.setWidth 64 <<< 32 + g.getUint.2.getUint.1.setWidth 64),
          g.getUint.2.getUint.2) := rfl
    refine ⟨_, _, n', (List.range 4).map (p + ·) ++ (List.range 4).map (q + ·), run, there,
      by omega, rfl, ?_, ?_⟩
    · have first := ordered_range p 4
      have second := ordered_range q 4
      have before : Ordered (position n g) (p + 4) ((List.range 4).map (p + ·)) :=
        ⟨first.1, fun r listed => by have := first.2 r listed; omega⟩
      have after : Ordered (p + 4) (position n' g.getUint.2.getUint.2)
          ((List.range 4).map (q + ·)) :=
        ⟨second.1, fun r listed => by have := second.2 r listed; omega⟩
      exact before.append after (by omega) (by omega)
    · rw [high, low]
      rfl

def runCalls (fuel : Nat) : PRNGMembers → List Call → Option (List Output × PRNGMembers)
  | g, [] => some ([], g)
  | g, call :: calls =>
    (call.run fuel g).bind fun (out, g) =>
      (runCalls fuel g calls).map fun (outs, g) => (out :: outs, g)

theorem runCalls_cons {fuel : Nat} {g g₁ g' : PRNGMembers} {call : Call} {calls : List Call}
    {out : Output} {outs : List Output} (run : call.run fuel g = some (out, g₁))
    (runs : runCalls fuel g₁ calls = some (outs, g')) :
    runCalls fuel g (call :: calls) = some (out :: outs, g') := by
  simp [runCalls, run, runs]

def outputs (seed : Block) (calls : List Call) (taken : List (List Nat)) : List Output :=
  List.zipWith (fun call positions => call.output (positions.map (keystream seed))) calls taken

theorem runCalls_at {seed : Block} {n : Nat} {g : PRNGMembers} (here : At seed n g)
    (calls : List Call) {fuel : Nat} (enough : ∀ call ∈ calls, max call.size 16 + 1 < fuel) :
    ∃ g' n' taken, runCalls fuel g calls = some (outputs seed calls taken, g') ∧ At seed n' g' ∧
      position n g ≤ position n' g' ∧ taken.map List.length = calls.map Call.size ∧
      Ordered (position n g) (position n' g') taken.flatten := by
  induction calls generalizing n g with
  | nil => exact ⟨g, n, [], rfl, here, le_rfl, rfl, List.Pairwise.nil, by simp⟩
  | cons call calls ih =>
    obtain ⟨out, g₁, n₁, positions, run, there₁, later, sized, ordered, value⟩ :=
      call_spec here call (enough call List.mem_cons_self)
    subst value
    obtain ⟨g', n', taken, runs, there, later', sizes, ordered'⟩ :=
      ih there₁ fun other listed => enough other (List.mem_cons_of_mem call listed)
    have both : runCalls fuel g (call :: calls) =
        some (outputs seed (call :: calls) (positions :: taken), g') :=
      runCalls_cons run runs
    refine ⟨g', n', positions :: taken, both, there, later.trans later', ?_, ?_⟩
    · rw [List.map_cons, List.map_cons, sized, sizes]
    · rw [List.flatten_cons]
      exact ordered.append ordered' later later'

/-- The counter that is encrypted for the byte at `p`, and which byte of its block it is. -/
def drawn (p : Nat) : Block × Nat := (BitVec.ofNat 128 (p / 16 + 1), p % 16)

theorem drawn_nodup {lo hi : Nat} {positions : List Nat} (ordered : Ordered lo hi positions)
    (few : hi ≤ 16 * (2 ^ 128 - 1)) : (positions.map drawn).Nodup := by
  have nodup : positions.Nodup := ordered.1.imp fun less => Nat.ne_of_lt less
  refine List.Nodup.map_on ?_ nodup
  intro p listed q listed' same
  have below := ordered.2 p listed
  have below' := ordered.2 q listed'
  have counter : (p / 16 + 1) % 2 ^ 128 = (q / 16 + 1) % 2 ^ 128 :=
    congrArg BitVec.toNat (congrArg Prod.fst same)
  have place : p % 16 = q % 16 := congrArg Prod.snd same
  omega

theorem runCalls_getU8s {seed : Block} {n : Nat} {g : PRNGMembers} (here : At seed n g)
    (lens : List Nat) {fuel : Nat} (enough : lens.sum + 1 < fuel) :
    ∃ (chunks : List (List Byte)) (g' : PRNGMembers), runCalls fuel g (lens.map Call.getU8s) =
      some (chunks.map Output.u8s, g') ∧
      chunks.flatten = bytesFrom seed (position n g) lens.sum := by
  induction lens generalizing n g with
  | nil => exact ⟨[], g, rfl, rfl⟩
  | cons len lens ih =>
    rw [List.sum_cons] at enough
    obtain ⟨g₁, n₁, run, there, moved⟩ := getU8s_spec here fuel len (by omega)
    obtain ⟨chunks, g', runs, bytes⟩ := ih there (by omega)
    have first : (Call.getU8s len).run fuel g =
        some (.u8s (bytesFrom seed (position n g) len), g₁) := by
      simp [Call.run, run]
    refine ⟨bytesFrom seed (position n g) len :: chunks, g', runCalls_cons first runs, ?_⟩
    rw [List.flatten_cons, bytes, moved, bytesFrom_append, List.sum_cons]

/-- From a seed on, every call ends, and what the calls return are bytes of the stream at positions
each above all before it. No byte is taken twice while the counter has not come around, and calls of
`get_u8s` return the same bytes however their length is divided. -/
theorem setSeed_runCalls (g : PRNGMembers) (seed : Block) (calls : List Call) (fuel : Nat)
    (enough : ∀ call ∈ calls, max call.size 16 + 1 < fuel) :
    ∃ g' n taken, runCalls fuel (g.setSeed seed) calls = some (outputs seed calls taken, g') ∧
      At seed n g' ∧
      taken.map List.length = calls.map Call.size ∧
      taken.flatten.Pairwise (· < ·) ∧
      (∀ p ∈ taken.flatten, p < position n g') ∧
      (n < 2 ^ 128 → (taken.flatten.map drawn).Nodup) ∧
      ∀ (lens : List Nat) (fuel' : Nat), lens.sum + 1 < fuel' →
        ∃ (chunks : List (List Byte)) (g₁ g₂ : PRNGMembers),
          runCalls fuel' g' (lens.map Call.getU8s) = some (chunks.map Output.u8s, g₁) ∧
          g'.getU8s fuel' lens.sum = some (chunks.flatten, g₂) := by
  obtain ⟨start, -⟩ := at_setSeed g seed
  obtain ⟨g', n, taken, run, there, -, sizes, ordered⟩ := runCalls_at start calls enough
  refine ⟨g', n, taken, run, there, sizes, ordered.1,
    fun p listed => (ordered.2 p listed).2, ?_, ?_⟩
  · intro few
    have used := there.used
    have positive := there.positive
    exact drawn_nodup ordered (by unfold position; omega)
  · intro lens fuel' enough'
    obtain ⟨chunks, g₁, runs, bytes⟩ := runCalls_getU8s there lens enough'
    obtain ⟨g₂, -, once, -⟩ := getU8s_spec there fuel' lens.sum enough'
    exact ⟨chunks, g₁, g₂, runs, bytes ▸ once⟩

/-- Calls of every kind. `get_u8s` starts inside a block, and `get_uint` leaves bytes of one. -/
def mixedCalls : List Call :=
  [.getUint, .getUchar, .getU8s 40, .getU64, .getBit, .getU8s 0, .getBlock]

theorem setSeed_runCalls_mixed :
    ∃ g' n taken, runCalls 60 (setSeed ⟨0, [], [], ⟨Vector.replicate 11 0⟩, 0⟩ 7) mixedCalls =
        some (outputs 7 mixedCalls taken, g') ∧
      At 7 n g' ∧ taken.map List.length = [4, 1, 40, 8, 1, 0, 16] ∧
      taken.flatten.Pairwise (· < ·) ∧
      ∃ (chunks : List (List Byte)) (g₁ g₂ : PRNGMembers),
        runCalls 60 g' ([3, 0, 20].map Call.getU8s) = some (chunks.map Output.u8s, g₁) ∧
        g'.getU8s 60 23 = some (chunks.flatten, g₂) := by
  obtain ⟨g', n, taken, run, there, sizes, ordered, -, -, divided⟩ :=
    setSeed_runCalls ⟨0, [], [], ⟨Vector.replicate 11 0⟩, 0⟩ 7 mixedCalls 60 (by decide)
  exact ⟨g', n, taken, run, there, sizes, ordered, divided [3, 0, 20] 60 (by decide)⟩

end PRNGMembers

end BatchDualEx
