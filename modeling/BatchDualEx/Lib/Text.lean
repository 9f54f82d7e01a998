import Mathlib.Algebra.GroupWithZero.Nat
import Mathlib.Data.List.Basic

/- Formatted input from a stream of characters. White space before a number or a word is skipped, a
   number ends before the first character that is no digit, and a word before white space. -/
namespace Text

variable {α : Type}

def isSpace (c : Char) : Bool := c = ' ' || (9 ≤ c.toNat && c.toNat ≤ 13)

def skipSpace (s : List Char) : List Char := s.dropWhile isSpace

abbrev Reader (α : Type) := List Char → Option (α × List Char)

def sign : List Char → Bool × List Char
  | '-' :: s => (true, s)
  | '+' :: s => (false, s)
  | s => (false, s)

def readNumber : Reader (Bool × Nat) := fun s =>
  let signed := sign (skipSpace s)
  let digits := signed.2.takeWhile Char.isDigit
  if digits = [] then none
  else some ((signed.1, Nat.ofDigitChars 10 digits 0), signed.2.dropWhile Char.isDigit)

/-- A number of `w` bits without a sign. What is negative counts modulo `2 ^ w`. -/
def readUnsigned (w : Nat) : Reader Nat := fun s =>
  (readNumber s).bind fun (number, s) =>
    if 2 ^ w ≤ number.2 then none
    else some (if number.1 then (2 ^ w - number.2) % 2 ^ w else number.2, s)

def readWord : Reader (List Char) := fun s =>
  let s := skipSpace s
  let word := s.takeWhile fun c => !isSpace c
  if word = [] then none else some (word, s.dropWhile fun c => !isSpace c)

def readChar : Reader Char := fun s =>
  match skipSpace s with
  | [] => none
  | c :: s => some (c, s)

def many (read : Reader α) : Nat → Reader (List α)
  | 0, s => some ([], s)
  | n + 1, s => (read s).bind fun (a, s) => (many read n s).map fun (as, s) => (a :: as, s)

def decimal (n : Nat) : List Char := Nat.toDigits 10 n

/-- The text is read as `a` when white space follows it. -/
def Reads (read : Reader α) (text : List Char) (a : α) : Prop :=
  ∀ c rest, isSpace c → read (text ++ c :: rest) = some (a, c :: rest)

theorem skipSpace_cons {c : Char} (blank : isSpace c) (s : List Char) :
    skipSpace (c :: s) = skipSpace s :=
  List.dropWhile_cons_of_pos blank

theorem readNumber_cons {c : Char} (blank : isSpace c) (s : List Char) :
    readNumber (c :: s) = readNumber s := by
  unfold readNumber
  rw [skipSpace_cons blank]

theorem readWord_cons {c : Char} (blank : isSpace c) (s : List Char) :
    readWord (c :: s) = readWord s := by
  unfold readWord
  rw [skipSpace_cons blank]

theorem isSpace_of_isDigit {c : Char} (digit : c.isDigit) : isSpace c = false := by
  have code : 48 ≤ c.val ∧ c.val ≤ 57 := by simpa [Char.isDigit] using digit
  have bounds : 48 ≤ c.toNat ∧ c.toNat ≤ 57 :=
    ⟨UInt32.le_iff_toNat_le.mp code.1, UInt32.le_iff_toNat_le.mp code.2⟩
  have other : c ≠ ' ' := by
    rintro rfl
    exact absurd bounds (by decide)
  have above : ¬ c.toNat ≤ 13 := by omega
  simp [isSpace, other, above]

theorem isDigit_of_isSpace {c : Char} (blank : isSpace c) : c.isDigit = false := by
  cases digit : c.isDigit with
  | false => rfl
  | true =>
    rw [isSpace_of_isDigit digit] at blank
    cases blank

theorem sign_of_isDigit {c : Char} (digit : c.isDigit) (s : List Char) :
    sign (c :: s) = (false, c :: s) := by
  unfold sign
  split
  case h_1 s' same =>
    cases same
    exact absurd digit (by decide)
  case h_2 s' same =>
    cases same
    exact absurd digit (by decide)
  case h_3 => rfl

theorem isDigit_decimal {n : Nat} {c : Char} (digit : c ∈ decimal n) : c.isDigit :=
  Nat.isDigit_of_mem_toDigits (by decide) (by decide) digit

theorem decimal_ne_nil (n : Nat) : decimal n ≠ [] := Nat.toDigits_ne_nil

theorem readNumber_decimal (n : Nat) {c : Char} (ends : c.isDigit = false) (rest : List Char) :
    readNumber (decimal n ++ c :: rest) = some ((false, n), c :: rest) := by
  obtain ⟨first, more, split⟩ := List.exists_cons_of_ne_nil (decimal_ne_nil n)
  have digit : first.isDigit := isDigit_decimal (n := n) (split ▸ List.mem_cons_self)
  have skip : skipSpace (decimal n ++ c :: rest) = decimal n ++ c :: rest := by
    rw [split, List.cons_append]
    exact List.dropWhile_cons_of_neg (by simp [isSpace_of_isDigit digit])
  have unsigned : sign (decimal n ++ c :: rest) = (false, decimal n ++ c :: rest) := by
    rw [split, List.cons_append, sign_of_isDigit digit]
  have taken : (decimal n ++ c :: rest).takeWhile Char.isDigit = decimal n := by
    rw [List.takeWhile_append_of_pos fun c => isDigit_decimal,
      List.takeWhile_cons_of_neg (by simp [ends]), List.append_nil]
  have dropped : (decimal n ++ c :: rest).dropWhile Char.isDigit = c :: rest := by
    rw [List.dropWhile_append_of_pos fun c => isDigit_decimal,
      List.dropWhile_cons_of_neg (by simp [ends])]
  unfold readNumber
  simp only [skip, unsigned, taken, dropped]
  rw [if_neg (decimal_ne_nil n), decimal, Nat.ofDigitChars_ten_toDigits]

theorem readUnsigned_cons {c : Char} (blank : isSpace c) (w : Nat) (s : List Char) :
    readUnsigned w (c :: s) = readUnsigned w s := by
  unfold readUnsigned
  rw [readNumber_cons blank]

theorem reads_decimal {n w : Nat} (small : n < 2 ^ w) : Reads (readUnsigned w) (decimal n) n := by
  intro d rest blank
  unfold readUnsigned
  rw [readNumber_decimal n (isDigit_of_isSpace blank)]
  simp [Nat.not_le.mpr small]

theorem reads_unsigned {c : Char} (blank : isSpace c) {n w : Nat} (small : n < 2 ^ w) :
    Reads (readUnsigned w) (c :: decimal n) n := by
  intro d rest blank'
  rw [List.cons_append, readUnsigned_cons blank, reads_decimal small d rest blank']

theorem reads_word {c : Char} (blank : isSpace c) {word : List Char} (some : word ≠ [])
    (solid : ∀ c ∈ word, isSpace c = false) : Reads readWord (c :: word) word := by
  intro d rest blank'
  obtain ⟨first, more, split⟩ := List.exists_cons_of_ne_nil some
  have skip : skipSpace (word ++ d :: rest) = word ++ d :: rest := by
    rw [split, List.cons_append]
    exact List.dropWhile_cons_of_neg (by simp [solid first (split ▸ List.mem_cons_self)])
  have each : ∀ c ∈ word, (!isSpace c) = true := fun c listed => by rw [solid c listed]; rfl
  rw [List.cons_append, readWord_cons blank]
  unfold readWord
  simp only [skip]
  rw [List.takeWhile_append_of_pos each, List.dropWhile_append_of_pos each,
    List.takeWhile_cons_of_neg (by simp [blank']), List.dropWhile_cons_of_neg (by simp [blank']),
    List.append_nil, if_neg some]

theorem starts_blank {c : Char} (blank : isSpace c) (texts : List (List Char)) {d : Char}
    (blank' : isSpace d) (rest : List Char) :
    ∃ e rest', (texts.flatMap fun text => c :: text) ++ d :: rest = e :: rest' ∧ isSpace e := by
  cases texts with
  | nil => exact ⟨d, rest, rfl, blank'⟩
  | cons text texts => exact ⟨c, _, rfl, blank⟩

theorem many_cons {read : Reader α} {n : Nat} {a : α} {as : List α} {s s' t : List Char}
    (first : read s = some (a, s')) (others : many read n s' = some (as, t)) :
    many read (n + 1) s = some (a :: as, t) := by
  simp [many, first, others]

theorem reads_many {read : Reader α} {print : α → List Char} {c : Char} (blank : isSpace c)
    {as : List α} (each : ∀ a ∈ as, Reads read (c :: print a) a) :
    Reads (many read as.length) ((as.map print).flatMap fun text => c :: text) as := by
  intro d rest blank'
  induction as with
  | nil => rfl
  | cons a as ih =>
    obtain ⟨e, rest', follows, blank''⟩ := starts_blank blank (as.map print) blank' rest
    have first := each a List.mem_cons_self e rest' blank''
    have others := ih fun a' listed => each a' (List.mem_cons_of_mem a listed)
    rw [List.map_cons, List.flatMap_cons, List.append_assoc]
    exact many_cons (follows ▸ first) others

/-- White space before the first of them makes no difference to a reader that skips it. -/
theorem many_skip {read : Reader α} {c : Char} (skips : ∀ s, read (c :: s) = read s) (n : Nat)
    (s : List Char) : (many read n (c :: s)).map Prod.fst = (many read n s).map Prod.fst := by
  cases n with
  | zero => rfl
  | succ n => rw [many, many, skips]

theorem blank_after (c : Char) (texts : List (List Char)) (rest : List Char) :
    c :: (texts.flatMap (fun text => text ++ [c]) ++ rest) =
      (texts.flatMap fun text => c :: text) ++ c :: rest := by
  induction texts with
  | nil => rfl
  | cons text texts ih =>
    simp only [List.flatMap_cons, List.append_assoc, List.cons_append, List.nil_append]
    rw [ih]

end Text
