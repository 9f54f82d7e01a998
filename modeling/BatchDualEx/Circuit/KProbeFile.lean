import BatchDualEx.Circuit.KProbeBuild
import BatchDualEx.Circuit.KProbeDecode
import BatchDualEx.Common.BitVectorOps
import BatchDualEx.Lib.Memory

/- `KProbeMatrix::save` and `load`, and the file through which `loadOrBuild`
   keeps a matrix. A matrix is read back as it was saved, the padding of its rows included. -/
namespace BatchDualEx

open Bytes Result

def hexWord (word : BitVec 64) : List Char :=
  let digits := Nat.toDigits 16 word.toNat
  List.replicate (16 - digits.length) '0' ++ digits

/-- The files by their names, `none` where there is none. What is done with them succeeds. -/
abbrev Files := String → Option (List Byte)

namespace KProbeMembers

def savedH (M : KProbeMembers) : Nat := (M.mEncodingSize + (2 ^ 64 - M.mMtx.length)) % 2 ^ 64

def save (M : KProbeMembers) : List Byte :=
  littleEndian 8 M.mMtx.length ++ littleEndian 8 M.savedH ++ M.mMtx.flatMap BitVector.bytes

/-- The rows that stand in `input`. What is missing at its end stays zero. -/
def readRows (h : Nat) : Nat → List Byte → Except Fault (List BitVector)
  | 0, _ => .ok []
  | n + 1, input => do
    let row ← BitVector.empty.resize h
    let rows ← readRows h n (input.drop row.sizeBytes)
    return row.overwrite 0 (input.take row.sizeBytes) :: rows

/-- Without the first 16 bytes `n` and `h` are not initialised. A row takes 32 bytes. -/
def load (M : KProbeMembers) (input : List Byte) : Except Fault KProbeMembers := do
  let n := ofLittleEndian (input.take 8)
  let h := ofLittleEndian ((input.drop 8).take 8)
  if input.length < 16 then .error .undefined
  else if 2 ^ 63 ≤ 32 * n then .error (.thrown "vector::_M_default_append")
  else do
    let mMtx ← readRows h n (input.drop 16)
    return { M with mMtx, mEncodingSize := (h + n) % 2 ^ 64 }

def sign (M : KProbeMembers) : Except Fault KProbeMembers :=
  match M.mMtx with
  | [] => .error .undefined
  | row :: _ =>
    if 64 ≤ row.size then .ok { M with mSignature := ofLittleEndian (row.mData.take 8) }
    else if 16 ≤ row.size then .ok { M with mSignature := ofLittleEndian (row.mData.take 2) }
    else .error (.thrown "")

def filename (inputSize secParam : Nat) (prng : PRNG) : String :=
  let block := prng.getBlock.1
  "./kProbe_data_" ++ toString inputSize ++ "_" ++ toString secParam ++ "_" ++
    String.ofList (hexWord block.lo ++ hexWord block.hi)

/-- The files after the call, and its result. -/
noncomputable def loadOrBuild (buildIrred : Nat → Polynomial (ZMod 2)) (M : KProbeMembers)
    (files : Files) (inputSize secParam : Nat) (prng : PRNG) :
    Files × Except Fault (KProbeMembers × PRNG) :=
  let name := filename inputSize secParam prng
  let prng := prng.getBlock.2
  match files name with
  | some content => (files, do return (← (← M.load content).sign, prng))
  | none =>
    match M.build buildIrred inputSize secParam prng with
    | .error fault => (files, .error fault)
    | .ok (built, prng) =>
      (Function.update files name (some built.save), do return (← built.sign, prng))

section Rows

theorem stored_fits (row : BitVector) : (row.mNumBits + 7) / 8 ≤ row.bytes.length :=
  (BitVector.bytes_length row).ge

def stored (row : BitVector) : BitVector := ⟨row.bytes, row.mNumBits, stored_fits row⟩

theorem bits_stored (row : BitVector) : (stored row).bits = row.bits := by
  apply BitVector.bits_eq
  · rfl
  · intro i inside
    change i < row.mNumBits at inside
    apply BitVector.bit_bytes
    unfold BitVector.sizeBytes
    omega

theorem readRows_bytes {h : Nat} (small : h + 8 < 2 ^ 31) {rows : List BitVector}
    (width : ∀ row ∈ rows, row.mNumBits = h) :
    readRows h rows.length (rows.flatMap BitVector.bytes) = .ok (rows.map stored) := by
  induction rows with
  | nil => rfl
  | cons row rows ih =>
    have size : row.mNumBits = h := width row List.mem_cons_self
    have length : row.bytes.length = (h + 7) / 8 := by
      rw [BitVector.bytes_length, BitVector.sizeBytes, size]
    have rest := ih fun other later => width other (List.mem_cons_of_mem _ later)
    rw [List.length_cons, readRows, BitVector.resize_empty small, ok_bind, List.flatMap_cons]
    have used : (⟨List.replicate ((h + 7) / 8) 0, h, by simp⟩ : BitVector).sizeBytes =
        row.bytes.length := length.symm
    rw [used, List.drop_left, List.take_left, rest, ok_bind, List.map_cons]
    congr 2
    unfold BitVector.overwrite stored
    simp only [size]
    congr 1
    rw [Memory.memcpy_zeros length.le, length, Nat.sub_self, List.replicate_zero, List.append_nil]

theorem readRows_ok {h n : Nat} {input : List Byte} {rows : List BitVector}
    (run : readRows h n input = .ok rows) :
    rows.length = n ∧ ∀ row ∈ rows, row.mNumBits = h ∧ h + 8 < 2 ^ 31 := by
  induction n generalizing input rows with
  | zero =>
    cases run
    exact ⟨rfl, fun row listed => absurd listed List.not_mem_nil⟩
  | succ n ih =>
    rw [readRows] at run
    obtain ⟨fresh, first, run⟩ := bind_ok run
    obtain ⟨later, second, run⟩ := bind_ok run
    obtain ⟨small, rfl⟩ := resize_empty_ok first
    cases run
    obtain ⟨length, width⟩ := ih second
    refine ⟨by rw [List.length_cons, length], ?_⟩
    intro row listed
    rcases List.mem_cons.mp listed with rfl | listed
    · exact ⟨rfl, small⟩
    · exact width row listed

end Rows

section Files

variable {M B L old : KProbeMembers} {inputSize secParam : Nat} {prng rest : PRNG}
  {buildIrred : Nat → Polynomial (ZMod 2)}

/-- The rows have the width that `save` derives from the encoding size, `resize` accepts it, and
    there is room for so many rows. -/
structure Storable (M : KProbeMembers) : Prop where
  few : 32 * M.mMtx.length < 2 ^ 63
  width : ∀ row ∈ M.mMtx,
    row.mNumBits + M.mMtx.length = M.mEncodingSize ∧ row.mNumBits + 8 < 2 ^ 31

theorem load_save (M old : KProbeMembers) :
    old.load M.save =
      if 2 ^ 63 ≤ 32 * (M.mMtx.length % 256 ^ 8) then .error (.thrown "vector::_M_default_append")
      else do
        let mMtx ← readRows M.savedH (M.mMtx.length % 256 ^ 8) (M.mMtx.flatMap BitVector.bytes)
        return { old with
          mMtx, mEncodingSize := (M.savedH + M.mMtx.length % 256 ^ 8) % 2 ^ 64 } := by
  have word : M.savedH % 256 ^ 8 = M.savedH := Nat.mod_eq_of_lt (Nat.mod_lt _ (by decide))
  have first : M.save.take 8 = littleEndian 8 M.mMtx.length := by
    unfold save
    rw [List.append_assoc, List.take_left' (littleEndian_length 8 _)]
  have second : (M.save.drop 8).take 8 = littleEndian 8 M.savedH := by
    unfold save
    rw [List.append_assoc, List.drop_left' (littleEndian_length 8 _),
      List.take_left' (littleEndian_length 8 _)]
  have third : M.save.drop 16 = M.mMtx.flatMap BitVector.bytes := by
    unfold save
    rw [List.drop_left' (by simp)]
  have long : ¬M.save.length < 16 := by
    simp only [save, List.length_append, littleEndian_length]
    omega
  unfold load
  simp only [first, second, third, ofLittleEndian_littleEndian, word, if_neg long]

theorem Storable.load_save (storable : M.Storable) (some : M.mMtx ≠ []) (old : KProbeMembers) :
    old.load M.save =
      .ok { old with mMtx := M.mMtx.map stored, mEncodingSize := M.mEncodingSize } := by
  obtain ⟨row, listed⟩ := List.exists_mem_of_ne_nil _ some
  obtain ⟨size, small⟩ := storable.width row listed
  have few := storable.few
  have count : M.mMtx.length % 256 ^ 8 = M.mMtx.length := Nat.mod_eq_of_lt (by omega)
  have width : M.savedH = row.mNumBits := by
    unfold savedH
    omega
  have same : ∀ other ∈ M.mMtx, other.mNumBits = row.mNumBits := by
    intro other listed
    have := (storable.width other listed).1
    omega
  rw [KProbeMembers.load_save, count, if_neg (Nat.not_le.mpr few), width,
    readRows_bytes small same, ok_bind, size, Nat.mod_eq_of_lt (by omega)]
  rfl

theorem Storable.of_load {input : List Byte} (loaded : old.load input = .ok L) : L.Storable := by
  unfold load at loaded
  dsimp only at loaded
  split at loaded
  · cases loaded
  · split at loaded
    · cases loaded
    · rename_i few
      obtain ⟨rows, read, done⟩ := bind_ok loaded
      cases done
      obtain ⟨count, width⟩ := readRows_ok read
      rw [← count] at few ⊢
      refine ⟨Nat.not_le.mp few, ?_⟩
      intro row listed
      obtain ⟨wide, small⟩ := width row listed
      change row.mNumBits + rows.length = (_ + rows.length) % 2 ^ 64 ∧ _
      rw [Nat.mod_eq_of_lt (by omega)]
      omega

theorem Storable.of_matrix (storable : L.Storable) (same : L.matrix = M.matrix) : M.Storable := by
  obtain ⟨bits, size⟩ := KProbeMatrix.mk.inj same
  have lengths := congrArg List.length bits
  rw [List.length_map, List.length_map] at lengths
  constructor
  · rw [← lengths]
    exact storable.few
  · intro row listed
    have held : row.bits ∈ L.mMtx.map BitVector.bits := bits ▸ List.mem_map_of_mem listed
    obtain ⟨loaded, inFile, equal⟩ := List.mem_map.mp held
    have width := storable.width loaded inFile
    have sized : row.mNumBits = loaded.mNumBits := by
      rw [← BitVector.bits_length, ← equal, BitVector.bits_length]
    rw [sized, ← lengths, ← size]
    exact width

theorem matrix_stored (size : L.mEncodingSize = M.mEncodingSize)
    (rows : L.mMtx = M.mMtx.map stored) : L.matrix = M.matrix := by
  unfold matrix
  rw [size, rows, List.map_map]
  congr 1
  exact List.map_congr_left fun row _ => bits_stored row

theorem take_stored {row : BitVector} {k : Nat} (wide : 8 * k ≤ row.mNumBits) :
    (stored row).mData.take k = row.mData.take k := by
  unfold stored BitVector.bytes BitVector.sizeBytes
  rw [List.take_take, Nat.min_eq_left (by omega)]

def Agree : Except Fault (KProbeMembers × PRNG) → Except Fault (KProbeMembers × PRNG) → Prop
  | .ok (M, _), .ok (L, _) => L.matrix = M.matrix ∧ L.mSignature = M.mSignature
  | .error (.thrown _), .error (.thrown _) => True
  | _, _ => False

theorem sign_cons {row : BitVector} {rows : List BitVector} (held : M.mMtx = row :: rows) :
    M.sign =
      if 64 ≤ row.size then .ok { M with mSignature := ofLittleEndian (row.mData.take 8) }
      else if 16 ≤ row.size then .ok { M with mSignature := ofLittleEndian (row.mData.take 2) }
      else .error (.thrown "") := by
  obtain ⟨mMtx, mEncodingSize, mSignature⟩ := M
  cases held
  rfl

theorem sign_agree (size : L.mEncodingSize = M.mEncodingSize)
    (rows : L.mMtx = M.mMtx.map stored) (some : M.mMtx ≠ []) (prng prng' : PRNG) :
    Agree (do return (← M.sign, prng)) (do return (← L.sign, prng')) := by
  have same := matrix_stored size rows
  obtain ⟨row, others, held⟩ := List.exists_cons_of_ne_nil some
  have loaded : L.mMtx = stored row :: others.map stored := by rw [rows, held, List.map_cons]
  have width : (stored row).size = row.size := rfl
  rw [sign_cons held, sign_cons loaded, width]
  by_cases wide : 64 ≤ row.size
  · simp only [if_pos wide]
    refine ⟨same, ?_⟩
    simp only [take_stored (k := 8) wide]
  · simp only [if_neg wide]
    by_cases narrow : 16 ≤ row.size
    · simp only [if_pos narrow]
      refine ⟨same, ?_⟩
      simp only [take_stored (k := 2) narrow]
    · simp only [if_neg narrow]
      exact trivial

theorem storable_of_build (positive : inputSize ≠ 0)
    (run : M.build buildIrred inputSize secParam prng = .ok (B, rest)) :
    B.Storable ∧ B.mMtx ≠ [] := by
  obtain ⟨p, params, small, stored, count, width⟩ := build_stores positive run
  obtain ⟨few, _⟩ := (KProbeMatrix.buildParams_ok_iff (Nat.pos_of_ne_zero positive)).mp params
  obtain ⟨_, _, encoded⟩ := KProbeMatrix.buildParams_size params
  have size : B.mEncodingSize = p.mEncodingSize := congrArg KProbeMatrix.mEncodingSize stored
  refine ⟨⟨by omega, fun row listed => ?_⟩, List.ne_nil_of_length_pos (by omega)⟩
  have wide := width row listed
  omega

theorem build_ok_iff (M : KProbeMembers) (prng : PRNG) :
    (∃ B rest, M.build buildIrred inputSize secParam prng = .ok (B, rest)) ↔
      inputSize = 0 ∨ ∃ p, KProbeMatrix.buildParams inputSize secParam = .ok p ∧
        p.m + 8 < 2 ^ 31 := by
  by_cases none : inputSize = 0
  · exact ⟨fun _ => .inl none, fun _ => ⟨M, prng, if_pos none⟩⟩
  · rw [or_iff_right none]
    constructor
    · rintro ⟨B, rest, run⟩
      obtain ⟨p, params, small, _⟩ := build_stores none run
      exact ⟨p, params, small⟩
    · rintro ⟨p, params, small⟩
      exact build_total buildIrred M params small prng

/-- `load` restores what `save` wrote, into any object. -/
def Restored (B : KProbeMembers) : Prop := ∀ old : KProbeMembers,
  ∃ L, old.load B.save = .ok L ∧ L.matrix = B.matrix

/-- Every later call, on any object, agrees with a first one as long as the file is unchanged. -/
def FileAgrees (buildIrred : Nat → Polynomial (ZMod 2)) (M : KProbeMembers)
    (inputSize secParam : Nat) (prng : PRNG) (files : Files) : Prop :=
  let name := filename inputSize secParam prng
  let first := M.loadOrBuild buildIrred files inputSize secParam prng
  ∀ files' : Files, files' name = first.1 name → ∀ L : KProbeMembers,
    Agree first.2 (L.loadOrBuild buildIrred files' inputSize secParam prng).2

theorem fileAgrees_of_storable {files : Files}
    (built : M.build buildIrred inputSize secParam prng.getBlock.2 = .ok (B, rest))
    (storable : B.Storable) (some : B.mMtx ≠ [])
    (new : files (filename inputSize secParam prng) = none) :
    FileAgrees buildIrred M inputSize secParam prng files := by
  intro files' unchanged L
  unfold loadOrBuild at unchanged ⊢
  simp only [new, built, Function.update_self] at unchanged ⊢
  simp only [unchanged, storable.load_save some, ok_bind]
  apply sign_agree
  · rfl
  · rfl
  · exact some

theorem loadOrBuild_without_rows {files : Files} (empty : M.mMtx = [])
    (new : files (filename 0 secParam prng) = none) :
    (M.loadOrBuild buildIrred files 0 secParam prng).2 = .error .undefined := by
  have unchanged : M.build buildIrred 0 secParam prng.getBlock.2 = .ok (M, prng.getBlock.2) :=
    if_pos rfl
  unfold loadOrBuild sign
  simp only [new, unchanged, empty]
  rfl

theorem build_saves (condition : inputSize ≠ 0 ∨ M.mMtx ≠ [] ∧ M.Storable)
    (built : M.build buildIrred inputSize secParam prng = .ok (B, rest)) :
    B.mMtx ≠ [] ∧ B.Storable := by
  by_cases positive : inputSize = 0
  · have unchanged : M.build buildIrred inputSize secParam prng = .ok (M, prng) := if_pos positive
    cases unchanged.symm.trans built
    exact condition.resolve_left (not_not.mpr positive)
  · exact (storable_of_build positive built).symm

/-- The file restores what was saved, and every later call agrees with the first one, exactly for
    an input with bits or an object that holds a storable matrix with rows already. -/
theorem file_agrees_iff
    (built : M.build buildIrred inputSize secParam prng = .ok (B, rest)) :
    (B.Restored ∧ ∀ seeded files, files (filename inputSize secParam seeded) = none →
      FileAgrees buildIrred M inputSize secParam seeded files) ↔
      inputSize ≠ 0 ∨ M.mMtx ≠ [] ∧ M.Storable := by
  constructor
  · rintro ⟨restored, agree⟩
    by_cases positive : inputSize = 0
    · subst positive
      obtain ⟨L, loaded, same⟩ := restored M
      have unchanged : M.build buildIrred 0 secParam prng = .ok (M, prng) := if_pos rfl
      cases unchanged.symm.trans built
      refine .inr ⟨?_, (Storable.of_load loaded).of_matrix same⟩
      intro empty
      have first := agree prng (fun _ => none) rfl _ rfl M
      rw [loadOrBuild_without_rows empty rfl] at first
      exact first
    · exact .inl positive
  · intro condition
    obtain ⟨rows, storable⟩ := build_saves condition built
    constructor
    · intro old
      exact ⟨_, storable.load_save rows old, matrix_stored rfl rfl⟩
    · intro seeded files new
      have accepted := (build_ok_iff M prng).mp ⟨B, rest, built⟩
      obtain ⟨B', rest', built'⟩ := (build_ok_iff M seeded.getBlock.2).mpr accepted
      obtain ⟨rows', storable'⟩ := build_saves condition built'
      exact fileAgrees_of_storable built' storable' rows' new

/-- `BuildIrred_GF2X(5)`, for one input bit and security parameter 40. -/
noncomputable def trinomial (_ : Nat) : Polynomial (ZMod 2) := .X ^ 5 + .X ^ 2 + 1

theorem file_agrees_iff_one_forty : ∃ B rest,
    build trinomial ⟨[], 0, 0⟩ 1 40 (Stream'.const 7) = .ok (B, rest) ∧
    ((B.Restored ∧ ∀ seeded files, files (filename 1 40 seeded) = none →
      FileAgrees trinomial ⟨[], 0, 0⟩ 1 40 seeded files) ↔
      1 ≠ 0 ∨ ([] : List BitVector) ≠ [] ∧ Storable ⟨[], 0, 0⟩) := by
  obtain ⟨B, rest, built⟩ : ∃ B rest,
      build trinomial ⟨[], 0, 0⟩ 1 40 (Stream'.const 7) = .ok (B, rest) :=
    (build_ok_iff _ _).mpr (.inr ⟨_, KProbeMatrix.buildParams_one_forty, by decide⟩)
  exact ⟨B, rest, built, file_agrees_iff built⟩

/-- Without input bits `build` does nothing, and there is no row for the signature. -/
theorem no_inputs_undefined :
    build trinomial ⟨[], 0, 0⟩ 0 40 (Stream'.const 7) = .ok (⟨[], 0, 0⟩, Stream'.const 7) ∧
    ¬FileAgrees trinomial ⟨[], 0, 0⟩ 0 40 (Stream'.const 7) fun _ => none := by
  refine ⟨if_pos rfl, ?_⟩
  intro agrees
  have first := agrees _ rfl ⟨[], 0, 0⟩
  rw [loadOrBuild_without_rows rfl rfl] at first
  exact first

end Files

end KProbeMembers

end BatchDualEx
