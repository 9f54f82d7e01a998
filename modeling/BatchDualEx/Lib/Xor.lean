import Mathlib.Data.List.Basic

/- Exclusive-or on words of any width. Choosing a word by a bit and summing a list of
   masked words are both linear, which is all that masking arguments use. -/
namespace WordXor

variable {w : Nat}

@[simp] theorem xor_cancel_left (a b : BitVec w) : a ^^^ (a ^^^ b) = b := by
  rw [← BitVec.xor_assoc, BitVec.xor_self, BitVec.zero_xor]

theorem xor_left_comm (a b c : BitVec w) : a ^^^ (b ^^^ c) = b ^^^ (a ^^^ c) := by
  rw [← BitVec.xor_assoc, BitVec.xor_comm a b, BitVec.xor_assoc]

@[simp] theorem xor_cancel_outer (a b : BitVec w) : a ^^^ (b ^^^ a) = b := by
  rw [BitVec.xor_comm b, xor_cancel_left]

def select (bit : Bool) (word : BitVec w) : BitVec w := if bit then word else 0#w

@[simp] theorem select_true (word : BitVec w) : select true word = word := rfl
@[simp] theorem select_false (word : BitVec w) : select false word = 0#w := rfl

theorem select_xor (p q : Bool) (word : BitVec w) :
    select (p ^^ q) word = select p word ^^^ select q word := by
  cases p <;> cases q <;> simp

theorem select_words (p : Bool) (a b : BitVec w) :
    select p (a ^^^ b) = select p a ^^^ select p b := by
  cases p <;> simp

theorem select_select (p q : Bool) (word : BitVec w) :
    select p (select q word) = select (p && q) word := by
  cases p <;> simp

variable {ι : Type}

/-- A masked sum of words is linear: words shifted by multiples of one offset give the sum of
    the words shifted by the sum of the multiples. -/
theorem foldl_select_shift (mask shift : ι → Bool) (word : ι → BitVec w) (offset : BitVec w)
    (is : List ι) (start : BitVec w) (first : Bool) :
    is.foldl (fun acc i => acc ^^^ select (mask i) (word i ^^^ select (shift i) offset))
        (start ^^^ select first offset) =
      is.foldl (fun acc i => acc ^^^ select (mask i) (word i)) start ^^^
        select (is.foldl (fun acc i => acc ^^ (mask i && shift i)) first) offset := by
  induction is generalizing start first with
  | nil => rfl
  | cons i is ih =>
    have step : start ^^^ select first offset ^^^
        select (mask i) (word i ^^^ select (shift i) offset) =
        (start ^^^ select (mask i) (word i)) ^^^
          select (first ^^ (mask i && shift i)) offset := by
      rw [select_words, select_select, select_xor]
      simp only [BitVec.xor_assoc, xor_left_comm]
    rw [List.foldl_cons, step, ih, List.foldl_cons, List.foldl_cons]

theorem foldl_bits_xor (mask left right : ι → Bool) (is : List ι) (first second : Bool) :
    is.foldl (fun acc i => acc ^^ (mask i && (left i ^^ right i))) (first ^^ second) =
      (is.foldl (fun acc i => acc ^^ (mask i && left i)) first ^^
        is.foldl (fun acc i => acc ^^ (mask i && right i)) second) := by
  induction is generalizing first second with
  | nil => rfl
  | cons i is ih =>
    have step : ((first ^^ second) ^^ (mask i && (left i ^^ right i))) =
        ((first ^^ (mask i && left i)) ^^ (second ^^ (mask i && right i))) := by
      cases first <;> cases second <;> cases mask i <;> cases left i <;> cases right i <;> rfl
    rw [List.foldl_cons, step, ih, List.foldl_cons, List.foldl_cons]

theorem foldl_xor_start (bit : ι → Bool) (is : List ι) (first : Bool) :
    is.foldl (fun acc i => acc ^^ bit i) first =
      (first ^^ is.foldl (fun acc i => acc ^^ bit i) false) := by
  induction is generalizing first with
  | nil => simp
  | cons i is ih =>
    rw [List.foldl_cons, List.foldl_cons, ih, ih (false ^^ bit i), Bool.false_xor, Bool.xor_assoc]

theorem foldl_words_start (word : ι → BitVec w) (is : List ι) (first : BitVec w) :
    is.foldl (fun acc i => acc ^^^ word i) first =
      first ^^^ is.foldl (fun acc i => acc ^^^ word i) 0#w := by
  induction is generalizing first with
  | nil => simp
  | cons i is ih =>
    rw [List.foldl_cons, List.foldl_cons, ih, ih (0#w ^^^ word i), BitVec.zero_xor,
      BitVec.xor_assoc]

def xorSum (n : Nat) (word : Nat → BitVec w) : BitVec w :=
  (List.range n).foldl (fun sum i => sum ^^^ word i) 0#w

@[simp] theorem xorSum_zero (word : Nat → BitVec w) : xorSum 0 word = 0#w := rfl

theorem xorSum_succ (n : Nat) (word : Nat → BitVec w) :
    xorSum (n + 1) word = xorSum n word ^^^ word n := by
  unfold xorSum
  rw [List.range_succ, List.foldl_append]
  rfl

theorem xorSum_congr {n : Nat} {word word' : Nat → BitVec w} (same : ∀ i < n, word i = word' i) :
    xorSum n word = xorSum n word' := by
  induction n with
  | zero => rfl
  | succ n ih =>
    rw [xorSum_succ, xorSum_succ, same n (Nat.lt_succ_self n),
      ih fun i below => same i (Nat.lt_succ_of_lt below)]

theorem xorSum_xor (n : Nat) (left right : Nat → BitVec w) :
    xorSum n (fun i => left i ^^^ right i) = xorSum n left ^^^ xorSum n right := by
  induction n with
  | zero => simp
  | succ n ih =>
    rw [xorSum_succ, xorSum_succ, xorSum_succ, ih]
    simp only [BitVec.xor_assoc, xor_left_comm]

theorem xorSum_append {v : Nat} (n : Nat) (hi : Nat → BitVec v) (lo : Nat → BitVec w) :
    (xorSum n fun i => hi i ++ lo i) = xorSum n hi ++ xorSum n lo := by
  induction n with
  | zero => exact (BitVec.zero_append_zero).symm
  | succ n ih => rw [xorSum_succ, xorSum_succ, xorSum_succ, ih, BitVec.xor_append]

theorem xorSum_eq_zero {n : Nat} {word : Nat → BitVec w} (zeros : ∀ i < n, word i = 0#w) :
    xorSum n word = 0#w := by
  induction n with
  | zero => rfl
  | succ n ih =>
    rw [xorSum_succ, zeros n (Nat.lt_succ_self n),
      ih fun i below => zeros i (Nat.lt_succ_of_lt below), BitVec.xor_zero]

end WordXor
