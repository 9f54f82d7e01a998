import BatchDualEx.Lib.DualMode
import BatchDualEx.OT.BaseOTSender

/- What the messages of `Exec_OT` show to the other party. The common reference string has one of
   two modes: with one logarithm for both branches the keys hide the choices, with two logarithms
   every key but that of two points at infinity leaves one input of the sender hidden. -/
namespace BatchDualEx

open Bytes Result DualMode

namespace BaseOT

/-- The values that `strong_rand` returns, as residues of the order of the curve. -/
def exponents {q d : ℕ} (r : Fin d → ZMod q) : csprng :=
  fun k => if inside : k < d then (r ⟨k, inside⟩).val else 0

theorem exponents_get {q d k : ℕ} (r : Fin d → ZMod q) (inside : k < d) :
    (exponents r).get k = (r ⟨k, inside⟩).val := dif_pos inside

variable {P : Type} [AddCommGroup P] (M : Miracl P) (crs : CRS P) {q : ℕ}

def keyAt (keys : List P) (i : ℕ) : PK P := ⟨keys.getD (2 * i) 0, keys.getD (2 * i + 1) 0⟩

def side (m : P × P) (branch : Bool) : P := if branch then m.2 else m.1

def inputDraw (branch : Bool) : ℕ := if branch then 1 else 0
def cipherDraw (branch : Bool) : ℕ := if branch then 4 else 2

theorem side_transferAt (keys : List P) (RNG : csprng) (i : ℕ) (branch : Bool) :
    side (transferAt crs keys RNG i).1 branch =
    RNG.get (inputDraw branch + 6 * i) • crs.g false := by
  cases branch <;> rfl

def cipher (answer : List P) (branch : Bool) : P × P :=
  if branch then (answer.getD 2 0, answer.getD 3 0) else (answer.getD 0 0, answer.getD 1 0)

theorem cipher_transferAt (keys : List P) (RNG : csprng) (i : ℕ) (branch : Bool) :
    cipher (transferAt crs keys RNG i).2 branch =
      (RNG.get (cipherDraw branch + 6 * i) • crs.g branch +
          RNG.get (cipherDraw branch + 1 + 6 * i) • crs.h branch,
        RNG.get (cipherDraw branch + 6 * i) • (keyAt keys i).g +
          RNG.get (cipherDraw branch + 1 + 6 * i) • (keyAt keys i).h +
          side (transferAt crs keys RNG i).1 branch) := by
  cases branch <;> rfl

theorem ext_cipher {answer answer' : List P} (sized : answer.length = 4)
    (sized' : answer'.length = 4)
    (same : ∀ branch, cipher answer branch = cipher answer' branch) : answer = answer' := by
  have zero := Prod.ext_iff.mp (same false)
  have one := Prod.ext_iff.mp (same true)
  apply Lists.ext_getD 0 (sized.trans sized'.symm)
  intro w below
  rw [sized] at below
  interval_cases w
  · exact zero.1
  · exact zero.2
  · exact one.1
  · exact one.2

/-- The exponents with which a sender sends the points of `out` and has the inputs `m`. -/
def answers (q : ℕ) (inputs : BitVector) (G : PRNG) (incoming : List (List Byte)) (out : Logged P)
    (m : List (P × P)) : Set (Fin (6 * inputs.size) → ZMod q) :=
  {r | ∃ e, Exec_OT M crs inputs (exponents r) G ⟨incoming, []⟩ .Sender = .ok e ∧
    e.transfers.out = out ∧ e.transfers.Miracl_Sender_Inputs = m}

theorem mem_answers_iff {inputs : BitVector} {G : PRNG} {message sent : List Byte}
    {rest : List (List Byte)} {keys out : Logged P}
    (read : readKeys M inputs.size (.received message) = .ok keys)
    (sends : BtChannel.asyncSend out.strm.mData = .ok sent) (m : List (P × P))
    (r : Fin (6 * inputs.size) → ZMod q) :
    r ∈ answers M crs q inputs G (message :: rest) out m ↔
      (answered M crs inputs.size (exponents r) inputs.size keys).out = out ∧
        (answered M crs inputs.size (exponents r) inputs.size keys).Miracl_Sender_Inputs = m := by
  constructor
  · intro ⟨e, run, isOut, isInputs⟩
    obtain ⟨_, _, keys', _, waiting, read', transfers, -⟩ := exec_OT_sender M crs run
    cases waiting
    cases read.symm.trans read'
    rw [← transfers]
    exact ⟨isOut, isInputs⟩
  · intro ⟨isOut, isInputs⟩
    obtain ⟨e, run, transfers⟩ := exec_OT_sender_total M crs (exponents r) G rest read
      (isOut ▸ sends)
    exact ⟨e, run, transfers ▸ isOut, transfers ▸ isInputs⟩

/-- What `KeyGen` makes for the branch. -/
def Opens (pk : PK P) (branch : Bool) : Prop := Multiple (crs.g branch) (crs.h branch) pk.g pk.h

/-- Equal inputs on the branches that the keys open. -/
def AgreeOnOpen (keys : List P) (n : ℕ) (m m' : List (P × P)) : Prop :=
  m.length = n ∧ m'.length = n ∧ ∀ i < n, ∀ branch, Opens crs (keyAt keys i) branch →
    side (m.getD i (0, 0)) branch = side (m'.getD i (0, 0)) branch

/-- Changes of the exponents: `z` for the inputs, `s` and `t` for the ciphertexts. -/
def change (z s t : ℕ → Bool → ZMod q) (k : ℕ) : ZMod q :=
  if k % 6 = 0 then z (k / 6) false
  else if k % 6 = 1 then z (k / 6) true
  else if k % 6 = 2 then s (k / 6) false
  else if k % 6 = 3 then t (k / 6) false
  else if k % 6 = 4 then s (k / 6) true
  else t (k / 6) true

theorem change_draws (z s t : ℕ → Bool → ZMod q) (i : ℕ) (branch : Bool) :
    change z s t (inputDraw branch + 6 * i) = z i branch ∧
      change z s t (cipherDraw branch + 6 * i) = s i branch ∧
      change z s t (cipherDraw branch + 1 + 6 * i) = t i branch := by
  cases branch <;>
    simp [change, inputDraw, cipherDraw, Nat.add_mul_mod_self_left, Nat.add_mul_div_left]

theorem draws_inside {n i : ℕ} (below : i < n) (branch : Bool) :
    inputDraw branch + 6 * i < 6 * n ∧ cipherDraw branch + 6 * i < 6 * n ∧
      cipherDraw branch + 1 + 6 * i < 6 * n := by
  cases branch <;> simp only [inputDraw, cipherDraw] <;> grind

theorem exponents_add [NeZero q] (card : Nat.card P = q) {d : ℕ} (r : Fin d → ZMod q)
    (shift : ℕ → ZMod q) {k : ℕ} (inside : k < d) (p : P) :
    (exponents (r + fun j : Fin d => shift j)).get k • p =
      (exponents r).get k • p + (shift k).val • p := by
  rw [exponents_get _ inside, exponents_get _ inside, Pi.add_apply, val_add_nsmul card]

theorem exists_change [Fact q.Prime] (card : Nat.card P = q)
    (generators : ∀ branch, crs.g branch ≠ 0)
    (pk : PK P) (branch : Bool) {p : P} (closed : Opens crs pk branch → p = 0) :
    ∃ z s t : ZMod q, z.val • crs.g false = p ∧
      s.val • crs.g branch + t.val • crs.h branch = 0 ∧ s.val • pk.g + t.val • pk.h = -p := by
  by_cases opens : Opens crs pk branch
  · exact ⟨0, 0, 0, by simp [closed opens]⟩
  · obtain ⟨z, isP⟩ := exists_nsmul card (generators false) p
    obtain ⟨s, t, vanishes, masks⟩ := exists_mask card (generators branch) opens (-p)
    refine ⟨(z : ZMod q), s, t, ?_, vanishes, masks⟩
    rw [val_natCast_nsmul card, isP]

omit [AddCommGroup P] in
theorem ext_side {m m' : P × P} (same : ∀ branch, side m branch = side m' branch) : m = m' :=
  Prod.ext (same false) (same true)

theorem answered_inputs_eq_iff {n : ℕ} (RNG : csprng) (keys : Logged P) {m : List (P × P)}
    (sized : m.length = n) : (answered M crs n RNG n keys).Miracl_Sender_Inputs = m ↔
      ∀ i < n, ∀ branch, side (transferAt crs keys.points RNG i).1 branch =
        side (m.getD i (0, 0)) branch := by
  constructor
  · intro same i below branch
    rw [← same, answered_inputs_getD M crs n RNG keys below]
  · intro same
    apply Lists.ext_getD (0, 0) (by simp [answered, sized])
    intro i inside
    have below : i < n := by simpa [answered] using inside
    rw [answered_inputs_getD M crs n RNG keys below]
    exact ext_side (same i below)

/-- A change of the exponents that keeps the ciphertexts and turns the inputs `m` into `m'`. -/
theorem exists_answered_change [Fact q.Prime] (card : Nat.card P = q)
    (generators : ∀ branch, crs.g branch ≠ 0) {n : ℕ} (keys : Logged P) {m m' : List (P × P)}
    (agree : AgreeOnOpen crs keys.points n m m') :
    ∃ shift : Fin (6 * n) → ZMod q, ∀ r,
      (answered M crs n (exponents (r + shift)) n keys).out =
          (answered M crs n (exponents r) n keys).out ∧
        ((answered M crs n (exponents r) n keys).Miracl_Sender_Inputs = m ↔
          (answered M crs n (exponents (r + shift)) n keys).Miracl_Sender_Inputs = m') := by
  obtain ⟨sized, sized', agree⟩ := agree
  let differ (i : ℕ) (branch : Bool) : P :=
    if i < n then side (m'.getD i (0, 0)) branch - side (m.getD i (0, 0)) branch else 0
  have each (i : ℕ) (branch : Bool) := exists_change crs card generators
    (keyAt keys.points i) branch (p := differ i branch) fun opens => by
      by_cases below : i < n
      · simp only [differ, if_pos below, agree i below branch opens, sub_self]
      · simp only [differ, if_neg below]
  choose z s t moves vanishes masks using each
  refine ⟨fun j => change z s t j, fun r => ?_⟩
  have inputs (i : ℕ) (below : i < n) (branch : Bool) :
      side (transferAt crs keys.points (exponents (r + fun j : Fin (6 * n) => change z s t j)) i).1
        branch = side (transferAt crs keys.points (exponents r) i).1 branch + differ i branch := by
    rw [side_transferAt, side_transferAt, exponents_add card r _ (draws_inside below branch).1,
      (change_draws z s t i branch).1, moves]
  have ciphers (i : ℕ) (below : i < n) :
      (transferAt crs keys.points (exponents (r + fun j : Fin (6 * n) => change z s t j)) i).2 =
        (transferAt crs keys.points (exponents r) i).2 := by
    apply ext_cipher rfl rfl
    intro branch
    obtain ⟨-, atS, atT⟩ := draws_inside below branch
    obtain ⟨-, isS, isT⟩ := change_draws z s t i branch
    rw [cipher_transferAt, cipher_transferAt, inputs i below]
    simp only [exponents_add card r _ atS, exponents_add card r _ atT, isS, isT]
    apply Prod.ext
    · dsimp only
      rw [add_add_add_comm, vanishes, add_zero]
    · dsimp only
      rw [add_add_add_comm _ ((s i branch).val • _), masks]
      abel
  constructor
  · have points : ciphertextPoints crs keys.points
        (exponents (r + fun j : Fin (6 * n) => change z s t j)) n =
        ciphertextPoints crs keys.points (exponents r) n :=
      List.flatMap_congr fun i listed => ciphers i (List.mem_range.mp listed)
    rw [answered, answered, points]
  · rw [answered_inputs_eq_iff M crs _ keys sized, answered_inputs_eq_iff M crs _ keys sized']
    apply forall₂_congr
    intro i below
    apply forall_congr'
    intro branch
    rw [inputs i below branch]
    simp only [differ, if_pos below]
    rw [← eq_sub_iff_add_eq, sub_sub_cancel]

theorem decrypt_cipher {keys : List P} {i k : ℕ} {branch : Bool}
    (first : (keyAt keys i).g = k • crs.g branch) (second : (keyAt keys i).h = k • crs.h branch)
    (RNG : csprng) :
    Decrypt k (cipher (transferAt crs keys RNG i).2 branch).1
      (cipher (transferAt crs keys RNG i).2 branch).2 =
      side (transferAt crs keys RNG i).1 branch := by
  rw [cipher_transferAt]
  exact decrypt_encrypts first second ⟨_, _, rfl, rfl⟩

theorem transferAt_of_ciphertextPoints {keys : List P} {RNG RNG' : csprng} {n i : ℕ}
    (same : ciphertextPoints crs keys RNG n = ciphertextPoints crs keys RNG' n) (below : i < n) :
    (transferAt crs keys RNG i).2 = (transferAt crs keys RNG' i).2 := by
  have sized (RNG : csprng) (i : ℕ) : (transferAt crs keys RNG i).2.length = 4 := rfl
  apply Lists.ext_getD 0 ((sized RNG i).trans (sized RNG' i).symm)
  intro w inside
  have entry := Lists.getD_flatMap_range (sized RNG) below inside 0
  have entry' := Lists.getD_flatMap_range (sized RNG') below inside 0
  rw [← entry, ← entry']
  exact congrArg (·.getD (4 * i + w) 0) same

theorem agreeOnOpen_of_out {n : ℕ} {keys : Logged P} {RNG RNG' : csprng}
    (same : (answered M crs n RNG n keys).out = (answered M crs n RNG' n keys).out) :
    AgreeOnOpen crs keys.points n (answered M crs n RNG n keys).Miracl_Sender_Inputs
      (answered M crs n RNG' n keys).Miracl_Sender_Inputs := by
  have points : ciphertextPoints crs keys.points RNG n = ciphertextPoints crs keys.points RNG' n :=
    congrArg Logged.points same
  refine ⟨by simp [answered], by simp [answered], ?_⟩
  intro i below branch opens
  obtain ⟨k, first, second⟩ := opens
  rw [answered_inputs_getD M crs n RNG keys below, answered_inputs_getD M crs n RNG' keys below,
    ← decrypt_cipher crs first second RNG, ← decrypt_cipher crs first second RNG',
    transferAt_of_ciphertextPoints crs points below]

/-- One logarithm for both branches. -/
def Decryptable : Prop :=
  ∃ x : ℕ, crs.h false = x • crs.g false ∧ crs.h true = x • crs.g true

theorem closed_iff [Fact q.Prime] (card : Nat.card P = q) (generators : ∀ branch, crs.g branch ≠ 0)
    (messy : ¬ Decryptable crs) (pk : PK P) : (∃ branch, ¬ Opens crs pk branch) ↔ pk ≠ ⟨0, 0⟩ := by
  constructor
  · rintro ⟨branch, closed⟩ rfl
    exact closed (multiple_zero _ _)
  · intro some
    by_contra opened
    push Not at opened
    rcases pk with ⟨g, h⟩
    obtain ⟨rfl, rfl⟩ : g = 0 ∧ h = 0 := eq_zero_of_multiples card (generators false)
      (generators true) messy (opened false) (opened true)
    exact some rfl

/-- Of the messages of a run and the inputs of the sender: exactly the inputs that agree on the
    branches that the keys open go with the messages, each for as many exponents, and with two
    logarithms in the reference string every key but the pair of zeros leaves a branch closed. -/
theorem sender_privacy [Fact q.Prime] (card : Nat.card P = q)
    (generators : ∀ branch, crs.g branch ≠ 0) {inputs : BitVector} {G : PRNG}
    {incoming : List (List Byte)} {r : Fin (6 * inputs.size) → ZMod q} {e : Executed P}
    (run : Exec_OT M crs inputs (exponents r) G ⟨incoming, []⟩ .Sender = .ok e) :
    (∀ m, (answers M crs q inputs G incoming e.transfers.out m).Nonempty ↔
      AgreeOnOpen crs e.transfers.keys.points inputs.size e.transfers.Miracl_Sender_Inputs m) ∧
    (∀ m, AgreeOnOpen crs e.transfers.keys.points inputs.size e.transfers.Miracl_Sender_Inputs m →
      (answers M crs q inputs G incoming e.transfers.out m).ncard =
        (answers M crs q inputs G incoming e.transfers.out
          e.transfers.Miracl_Sender_Inputs).ncard) ∧
    (¬ Decryptable crs → ∀ i < inputs.size,
      (∃ branch, ¬ Opens crs (keyAt e.transfers.keys.points i) branch) ↔
        keyAt e.transfers.keys.points i ≠ ⟨0, 0⟩) := by
  obtain ⟨message, rest, keys, sent, rfl, read, transfers, sends⟩ := exec_OT_sender M crs run
  have isKeys : e.transfers.keys = keys := by
    rw [transfers]
    rfl
  have isOut : (answered M crs inputs.size (exponents r) inputs.size keys).out =
      e.transfers.out := by
    rw [transfers]
  have moved {m : List (P × P)}
      (agree : AgreeOnOpen crs keys.points inputs.size e.transfers.Miracl_Sender_Inputs m) :
      ∃ shift : Fin (6 * inputs.size) → ZMod q,
        answers M crs q inputs G (message :: rest) e.transfers.out
          e.transfers.Miracl_Sender_Inputs =
          Set.preimage (· + shift)
            (answers M crs q inputs G (message :: rest) e.transfers.out m) := by
    obtain ⟨shift, keeps⟩ := exists_answered_change M crs card generators keys agree
    refine ⟨shift, Set.ext fun r' => ?_⟩
    rw [Set.mem_preimage, mem_answers_iff M crs read sends, mem_answers_iff M crs read sends,
      (keeps r').1, (keeps r').2]
  have itself : r ∈ answers M crs q inputs G (message :: rest) e.transfers.out
      e.transfers.Miracl_Sender_Inputs := ⟨e, run, rfl, rfl⟩
  rw [isKeys]
  refine ⟨fun m => ⟨?_, ?_⟩, ?_, fun messy i _ => closed_iff crs card generators messy _⟩
  · rintro ⟨r', possible⟩
    obtain ⟨isOut', isInputs'⟩ := (mem_answers_iff M crs read sends m r').mp possible
    rw [← isInputs', transfers]
    exact agreeOnOpen_of_out M crs (isOut.trans isOut'.symm)
  · intro agree
    obtain ⟨shift, isPreimage⟩ := moved agree
    rw [isPreimage] at itself
    exact ⟨r + shift, itself⟩
  · intro m agree
    obtain ⟨shift, isPreimage⟩ := moved agree
    rw [isPreimage]
    apply Eq.symm
    apply Set.ncard_preimage_of_injective_subset_range (add_left_injective shift)
    intro r' _
    exact ⟨r' - shift, sub_add_cancel r' shift⟩

/-- A group of order 5 in place of the curve, by logarithms of one byte. -/
def fivePoints : Miracl (ZMod 5) where
  get p := (p.val, 0)
  ECn x _ := x
  toBinary z := [BitVec.ofNat 8 z]
  fromBinary bytes := (bytes.headD 0).toNat

/-- With the logarithm 2 on the first branch, and the point `x` on the second. -/
def fiveCRS (x : ℕ) : CRS (ZMod 5) where
  g branch := if branch then ((3 : ℕ) : ZMod 5) else 1
  h branch := if branch then (x : ZMod 5) else ((2 : ℕ) : ZMod 5)

theorem fiveCRS_generators (x : ℕ) : ∀ branch, (fiveCRS x).g branch ≠ 0 := by
  intro branch
  cases branch <;> simp [fiveCRS] <;> decide

def fiveKey : List (List Byte) :=
  [(fivePoints.pack (fivePoints.pack .empty 1) ((3 : ℕ) : ZMod 5)).mData]

theorem fiveCRS_messy : ¬ Decryptable (fiveCRS 4) := by
  rintro ⟨x, first, second⟩
  have first : (2 : ZMod 5) = x • 1 := first
  have second : (4 : ZMod 5) = x • 3 := second
  have scaled : x • (3 : ZMod 5) = 3 * x • 1 := by
    rw [nsmul_eq_mul, nsmul_eq_mul, mul_one, mul_comm]
  rw [scaled, ← first] at second
  revert second
  decide

def fiveSender : Except Stop (Executed (ZMod 5)) :=
  Exec_OT fivePoints (fiveCRS 4) (BitVector.empty.reset 1)
    (exponents fun j : Fin (6 * (BitVector.empty.reset 1).size) => (j : ZMod 5)) (Stream'.const 0)
    ⟨fiveKey, []⟩ .Sender

theorem sender_privacy_five : ∃ e : Executed (ZMod 5), fiveSender = .ok e ∧
    (∀ m, (answers fivePoints (fiveCRS 4) 5 (BitVector.empty.reset 1) (Stream'.const 0) fiveKey
        e.transfers.out m).Nonempty ↔
      AgreeOnOpen (fiveCRS 4) e.transfers.keys.points 1 e.transfers.Miracl_Sender_Inputs m) ∧
    ∃ branch, ¬ Opens (fiveCRS 4) (keyAt e.transfers.keys.points 0) branch := by
  have returns : fiveSender.toBool = true := by decide +kernel
  have read : fiveSender.toOption.map (·.transfers.keys.points) = some [1, 3] := by decide +kernel
  obtain ⟨e, run⟩ := ok_of_toBool returns
  rw [run] at read
  have points : e.transfers.keys.points = [1, 3] := Option.some.inj read
  have apart : (1 : ZMod 5) ≠ 0 := by decide
  have prime : Fact (Nat.Prime 5) := ⟨Nat.prime_five⟩
  obtain ⟨possible, -, closed⟩ := sender_privacy fivePoints (fiveCRS 4) (Nat.card_zmod 5)
    (fiveCRS_generators 3) run
  refine ⟨e, run, possible, (closed fiveCRS_messy 0 (by decide)).mpr ?_⟩
  rw [points]
  intro zero
  exact apart (congrArg PK.g zero)

/-- The exponents with which a receiver of the given choices sends the keys of `out`. -/
def keyDraws (q n : ℕ) (bits : BitVector) (out : Logged P) : Set (Fin n → ZMod q) :=
  {r | (makeKeys M crs bits n (exponents r)).out = out}

theorem makeKeys_out (bits : BitVector) (n : ℕ) (RNG : csprng) :
    (makeKeys M crs bits n RNG).out =
      ⟨⟨(keyPoints crs bits RNG n).flatMap M.packed, 0⟩, keyPoints crs bits RNG n⟩ := by
  have keyed := makeKeys_keyed M crs bits n RNG
  rw [← keyed.points, ← keyed.wrote]

theorem keyAt_keyPoints (bits : BitVector) (RNG : csprng) {n i : ℕ} (below : i < n) :
    keyAt (keyPoints crs bits RNG n) i = publicKey crs bits RNG i := by
  have sized (i : ℕ) : (keyPair (publicKey crs bits RNG i)).length = 2 := rfl
  have g := Lists.getD_flatMap_range (r := 0) sized below (by decide) 0
  have h := Lists.getD_flatMap_range (r := 1) sized below (by decide) 0
  rw [keyAt, keyPoints, h]
  exact congrArg (PK.mk · _) g

theorem makeKeys_out_eq_iff {bits bits' : BitVector} {n : ℕ} {RNG RNG' : csprng} :
    (makeKeys M crs bits n RNG).out = (makeKeys M crs bits' n RNG').out ↔
      ∀ i < n, publicKey crs bits RNG i = publicKey crs bits' RNG' i := by
  rw [makeKeys_out, makeKeys_out]
  constructor
  · intro same i below
    have points : keyPoints crs bits RNG n = keyPoints crs bits' RNG' n :=
      congrArg Logged.points same
    rw [← keyAt_keyPoints crs bits RNG below, points, keyAt_keyPoints crs bits' RNG' below]
  · intro same
    have points : keyPoints crs bits RNG n = keyPoints crs bits' RNG' n :=
      List.flatMap_congr fun i listed => by rw [same i (List.mem_range.mp listed)]
    rw [points]

theorem keyDraws_subsingleton [Fact q.Prime] (card : Nat.card P = q)
    (generators : ∀ branch, crs.g branch ≠ 0) (n : ℕ) (bits : BitVector) (out : Logged P) :
    (keyDraws M crs q n bits out).Subsingleton := by
  intro r sends r' sends'
  have same := (makeKeys_out_eq_iff M crs).mp (Eq.trans sends (Eq.symm sends'))
  funext i
  have key := congrArg PK.g (same i i.isLt)
  simp only [publicKey, exponents_get _ i.isLt] at key
  exact val_nsmul_inj card (generators _) key

/-- With one logarithm the keys of some choices are keys of all choices. -/
theorem keyDraws_nonempty [Fact q.Prime] (card : Nat.card P = q)
    (generators : ∀ branch, crs.g branch ≠ 0) (single : Decryptable crs) {n : ℕ} {bits : BitVector}
    {out : Logged P} (sent : (keyDraws M crs q n bits out).Nonempty) (bits' : BitVector) :
    (keyDraws M crs q n bits' out).Nonempty := by
  obtain ⟨x, first, second⟩ := single
  have logarithm (branch : Bool) : crs.h branch = x • crs.g branch := by
    cases branch
    · exact first
    · exact second
  obtain ⟨r, sends⟩ := sent
  choose k isKey using fun i : Fin n => exists_nsmul card (generators (bits'.get i))
    ((r i).val • crs.g (bits.get i))
  refine ⟨fun i => (k i : ZMod q), Eq.trans ?_ sends⟩
  rw [makeKeys_out_eq_iff]
  intro i below
  have g : (k ⟨i, below⟩ : ZMod q).val • crs.g (bits'.get i) =
      (r ⟨i, below⟩).val • crs.g (bits.get i) := by
    rw [val_natCast_nsmul card]
    exact (isKey ⟨i, below⟩).symm
  simp only [publicKey, exponents_get _ below, logarithm, g]
  rw [nsmul_left_comm, g, nsmul_left_comm]

/-- The keys of a receiver say nothing about its choices when the reference string has one
    logarithm, and with two they determine every choice whose key is not the pair of zeros. -/
theorem receiver_privacy [Fact q.Prime] (card : Nat.card P = q)
    (generators : ∀ branch, crs.g branch ≠ 0) (n : ℕ) (bits bits' : BitVector) (out : Logged P) :
    (Decryptable crs →
      (keyDraws M crs q n bits out).ncard = (keyDraws M crs q n bits' out).ncard) ∧
    (¬ Decryptable crs → (keyDraws M crs q n bits out).Nonempty →
      (keyDraws M crs q n bits' out).Nonempty →
      ∀ i < n, keyAt out.points i ≠ ⟨0, 0⟩ → bits.get i = bits'.get i) := by
  constructor
  · intro single
    have one := keyDraws_subsingleton M crs card generators n bits out
    have one' := keyDraws_subsingleton M crs card generators n bits' out
    rcases one.eq_empty_or_singleton with none | ⟨r, only⟩
    · rcases one'.eq_empty_or_singleton with none' | ⟨r', only'⟩
      · rw [none, none']
      · have sent := keyDraws_nonempty M crs card generators single
          (only' ▸ Set.singleton_nonempty r') bits
        rw [none] at sent
        exact absurd sent Set.not_nonempty_empty
    · obtain ⟨r', sends⟩ := keyDraws_nonempty M crs card generators single
        (only ▸ Set.singleton_nonempty r) bits'
      rw [only, one'.eq_singleton_of_mem sends, Set.ncard_singleton, Set.ncard_singleton]
  · rintro messy ⟨r, sends⟩ ⟨r', sends'⟩ i below some
    have same := (makeKeys_out_eq_iff M crs).mp (Eq.trans sends (Eq.symm sends')) i below
    have isOut : out.points = keyPoints crs bits (exponents r) n := by
      rw [← sends, makeKeys_out]
    rw [isOut, keyAt_keyPoints crs bits _ below] at some
    by_contra differ
    obtain ⟨branch, closed⟩ := (closed_iff crs card generators messy _).mpr some
    apply closed
    by_cases mine : bits.get i = branch
    · exact ⟨_, by rw [← mine]; rfl, by rw [← mine]; rfl⟩
    · have theirs : bits'.get i = branch := by
        revert mine differ
        cases bits.get i <;> cases bits'.get i <;> cases branch <;> simp
      rw [same]
      exact ⟨_, by rw [← theirs]; rfl, by rw [← theirs]; rfl⟩

def fiveKeys : Logged (ZMod 5) :=
  (makeKeys fivePoints (fiveCRS 1) (BitVector.empty.reset 2) 2
    (exponents fun j : Fin 2 => ((2 * (j + 1) : ℕ) : ZMod 5))).out

theorem receiver_privacy_five :
    (keyDraws fivePoints (fiveCRS 1) 5 2 (BitVector.empty.reset 2) fiveKeys).ncard =
      (keyDraws fivePoints (fiveCRS 1) 5 2 ⟨[3], 2, by decide⟩ fiveKeys).ncard := by
  have single : Decryptable (fiveCRS 1) := ⟨2, by decide, by decide⟩
  have prime : Fact (Nat.Prime 5) := ⟨Nat.prime_five⟩
  exact (receiver_privacy fivePoints (fiveCRS 1) (Nat.card_zmod 5) (fiveCRS_generators 2) 2 _ _ _).1
    single

end BaseOT

end BatchDualEx
