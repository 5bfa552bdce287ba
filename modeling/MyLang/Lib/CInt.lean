/-
C's `int`, 32 bits wide, with the arithmetic C defines on it.

A value is an integer in the range of the type, so there is no value out of range to
reason about.  An operation whose mathematical result does not fit, a division by zero and
a shift by a distance the type does not have are undefined in C and have no result here.
`word` is how a value is held in a register; every operation that has a result agrees with
the operation of the machine on words, which always has one.

A left shift is defined for values that are not negative and whose result fits; a right
shift of a negative value keeps the sign, as compilers for such machines define it.
Operations on bits are those on the words.
-/
import Mathlib.Data.BitVec

/-- A value of C's `int`. -/
structure CInt where
  val : Int
  inRange : -2 ^ 31 ≤ val ∧ val < 2 ^ 31
deriving DecidableEq

namespace CInt

/-- The value of an integer that fits. -/
def ofInt? (n : Int) : Option CInt :=
  if h : -2 ^ 31 ≤ n ∧ n < 2 ^ 31 then some ⟨n, h⟩ else none

/-- A value as a machine word. -/
def word (x : CInt) : BitVec 32 := BitVec.ofInt 32 x.val

/-- A machine word read as a value. -/
def ofWord (w : BitVec 32) : CInt :=
  ⟨w.toInt, by simpa using w.le_toInt, by simpa using (BitVec.toInt_lt (x := w))⟩

/-- A truth value as an `int`. -/
def ofBool (b : Bool) : CInt := if b then ⟨1, by decide⟩ else ⟨0, by decide⟩

variable {x y z : CInt}

theorem eq_of_ofInt? {n : Int} (h : ofInt? n = some z) : z.val = n := by
  unfold ofInt? at h
  split at h
  · rw [← Option.some.inj h]
  · simp at h

theorem toInt_word (x : CInt) : x.word.toInt = x.val := by
  have := x.inRange
  exact BitVec.toInt_ofInt_eq_self (by decide) (by simpa using this.1) (by simpa using this.2)

@[simp] theorem word_ofWord (w : BitVec 32) : (ofWord w).word = w := BitVec.ofInt_toInt

theorem word_of_ofInt? {n : Int} (h : ofInt? n = some z) : z.word = BitVec.ofInt 32 n := by
  rw [word, eq_of_ofInt? h]

theorem word_inj : x.word = y.word ↔ x.val = y.val := by
  rw [← BitVec.toInt_inj, toInt_word, toInt_word]

theorem word_eq_zero : x.word = 0 ↔ x.val = 0 := by
  rw [← BitVec.toInt_inj, toInt_word]
  rfl

@[simp] theorem word_ofBool (b : Bool) : (ofBool b).word = if b then 1 else 0 := by
  cases b <;> rfl

/-! ### Operations

Each has a result exactly where C gives it one.
-/

/-- `x + y`. -/
def add (x y : CInt) : Option CInt := ofInt? (x.val + y.val)

/-- `x - y`. -/
def sub (x y : CInt) : Option CInt := ofInt? (x.val - y.val)

/-- `x * y`. -/
def mul (x y : CInt) : Option CInt := ofInt? (x.val * y.val)

/-- `x / y`, rounded towards zero. -/
def div (x y : CInt) : Option CInt := if y.val = 0 then none else ofInt? (x.val.tdiv y.val)

/-- `x << y`, for an `x` that is not negative. -/
def shl (x y : CInt) : Option CInt :=
  if 0 ≤ x.val ∧ 0 ≤ y.val ∧ y.val < 32 then ofInt? (x.val * 2 ^ y.val.toNat) else none

/-- `x >> y`, with the sign kept. -/
def shr (x y : CInt) : Option CInt :=
  if 0 ≤ y.val ∧ y.val < 32 then ofInt? (x.val / 2 ^ y.val.toNat) else none

/-- An operation on the bits. -/
def bitwise (f : BitVec 32 → BitVec 32 → BitVec 32) (x y : CInt) : CInt := ofWord (f x.word y.word)

/-! ### The operations on words

One lemma for each: if the value has a result, the word has the same.
-/

theorem word_add (h : x.add y = some z) : z.word = x.word + y.word := by
  rw [word_of_ofInt? h, BitVec.ofInt_add]
  rfl

theorem word_sub (h : x.sub y = some z) : z.word = x.word - y.word := by
  rw [word_of_ofInt? h, Int.sub_eq_add_neg, BitVec.ofInt_add, BitVec.ofInt_neg,
    ← BitVec.sub_eq_add_neg]
  rfl

theorem word_mul (h : x.mul y = some z) : z.word = x.word * y.word := by
  rw [word_of_ofInt? h, BitVec.ofInt_mul]
  rfl

theorem div_ne_zero (h : x.div y = some z) : y.val ≠ 0 := by
  intro hy
  simp [div, hy] at h

theorem word_div (h : x.div y = some z) : z.word = x.word.sdiv y.word := by
  have hy := div_ne_zero h
  rw [div, if_neg hy] at h
  rw [← BitVec.toInt_inj, BitVec.toInt_sdiv, toInt_word, toInt_word, toInt_word, ← eq_of_ofInt? h,
    ← BitVec.toInt_ofInt]
  exact (toInt_word z).symm

/-- The distance of a shift is read off its five low bits. -/
private theorem distance (h0 : 0 ≤ y.val) (h32 : y.val < 32) :
    y.word.toNat % 32 = y.val.toNat := by
  have h := BitVec.toNat_ofInt (n := 32) y.val
  rw [word]
  omega

theorem word_shl (h : x.shl y = some z) : z.word = x.word <<< (y.word.toNat % 32) := by
  unfold shl at h
  split at h
  case isFalse => simp at h
  case isTrue hr =>
    rw [distance hr.2.1 hr.2.2, word_of_ofInt? h, BitVec.shiftLeft_eq_mul_twoPow, BitVec.ofInt_mul,
      word]
    congr 1
    rw [← BitVec.toNat_inj, BitVec.toNat_ofInt, BitVec.toNat_twoPow]
    norm_cast

theorem word_shr (h : x.shr y = some z) : z.word = x.word.sshiftRight (y.word.toNat % 32) := by
  unfold shr at h
  split at h
  case isFalse => simp at h
  case isTrue hr =>
    rw [distance hr.1 hr.2, ← BitVec.toInt_inj, toInt_word, BitVec.toInt_sshiftRight, toInt_word,
      eq_of_ofInt? h, Int.shiftRight_eq_div_pow]
    norm_cast

@[simp] theorem word_bitwise (f : BitVec 32 → BitVec 32 → BitVec 32) :
    (bitwise f x y).word = f x.word y.word := word_ofWord _

theorem slt_word : x.word.slt y.word = decide (x.val < y.val) := by
  rw [BitVec.slt_eq_decide, toInt_word, toInt_word]

theorem sle_word : x.word.sle y.word = decide (x.val ≤ y.val) := by
  rw [BitVec.sle_eq_decide, toInt_word, toInt_word]

end CInt
