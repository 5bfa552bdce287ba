/-
The value of an integer literal.

A literal goes through `int` arithmetic in the lexer, is printed with as many characters
as it has digits, and is read again by the parser, which does not ask whether that worked.
Below 2 ^ 31 each step undoes the one before.  From there on no `int` is the number that
is written, and whatever the parser ends with is taken for it.

The steps are `tokenize_digit`, which computes modulo `2 ^ 32`; `int_to_str`, whose buffer
has room for the digits of the literal and not for a sign; and `str2int`, which calls
`strtol` and refuses what is no `int`.  A refused literal is not an error: the variable it
should have gone to stays as it was, and the tree gets that.

So the converse direction needs nothing but that what the parser ends with is an `int`
(`str2int_le`), however it has come by it.
-/
import MyLang.Proofs.Munch
import MyLang.Proofs.ParseStep
import MyLang.Compiler

namespace MyLang

/-! ### `str2int`

`strtol` in base ten, on a text of digits.
-/

theorem digitsVal_toDigits (n : Nat) : digitsVal (Nat.toDigits 10 n) = n := by
  have h := @Nat.ofDigitChars_ten_toDigits n
  rwa [Nat.ofDigitChars_eq_foldl] at h

/-- `strtol` takes all of a string of digits. -/
theorem strtol_digits {ds : List Char} (hne : ds ≠ []) (h : ∀ c ∈ ds, c.isDigit = true) :
    strtol ds = ((digitsVal ds : Int), []) := by
  have htake : ds.takeWhile Char.isDigit = ds := List.takeWhile_eq_self_iff.mpr h
  have hdrop : ds.dropWhile Char.isDigit = [] := List.dropWhile_eq_nil_iff.mpr h
  have hempty : ds.isEmpty = false := by
    rw [List.isEmpty_eq_false_iff]
    exact hne
  unfold strtol
  split
  · -- a digit is no sign
    exact absurd (h '-' (by simp)) (by decide)
  · exact absurd (h '+' (by simp)) (by decide)
  · rw [htake, hdrop, hempty]
    rfl

theorem isSpace_of_isDigit {c : Char} (h : c.isDigit = true) : isSpace c = false := by
  have hne : ∀ d, d.isDigit = false → c ≠ d := by
    rintro d hd rfl
    rw [h] at hd
    exact absurd hd (by decide)
  simp only [isSpace, hne ' ' rfl, hne '\t' rfl, hne '\n' rfl, hne '\x0b' rfl, hne '\x0c' rfl,
    hne '\r' rfl, decide_false, Bool.or_self]

/-- A number that fits is read as it was printed. -/
theorem str2int_repr {n : Nat} (h : n < 2 ^ 31) : str2int (Nat.repr n) = .ok (n : Int) := by
  have hdigits : ∀ c ∈ Nat.toDigits 10 n, c.isDigit = true :=
    fun c hc => Nat.isDigit_of_mem_toDigits (by decide) (by decide) hc
  have hne : Nat.toDigits 10 n ≠ [] := Nat.toDigits_ne_nil
  have hread := strtol_digits hne hdigits
  rw [digitsVal_toDigits] at hread
  rw [str2int, Nat.toList_repr]
  cases heq : Nat.toDigits 10 n with
  | nil => exact absurd heq hne
  | cons c cs =>
      rw [heq] at hread hdigits
      have hmax : ¬ (n : Int) > intMax := by
        show ¬ (n : Int) > 2147483647
        omega
      have hmin : ¬ (n : Int) < intMin := by
        show ¬ (n : Int) < -2147483648
        omega
      simp only [isSpace_of_isDigit (hdigits c (by simp)), hread, hmax, hmin]
      rfl

/-- What `str2int` returns is an `int`. -/
theorem str2int_le {s : String} {n : Int} (h : str2int s = .ok n) : n ≤ intMax := by
  unfold str2int at h
  split at h
  · simp at h
  · rename_i c cs hs
    split at h
    · simp at h
    · dsimp only at h
      by_cases hmax : (strtol (c :: cs)).1 > intMax
      · rw [if_pos hmax] at h
        simp at h
      · rw [if_neg hmax] at h
        split at h
        · simp at h
        · split at h
          · simp at h
          · obtain rfl := Except.ok.inj h
            exact Int.not_lt.mp hmax

/-! ### The two ends of a literal

The token that the lexer makes of it, and the node that the parser makes of the token.
-/

theorem turn_digit {c : Char} {rest : List Char} (hd : c.isDigit = true) :
    turn (c :: rest) = .token .num
      (intToStr (numWord (c :: rest.takeWhile Char.isDigit))
        ((c :: rest.takeWhile Char.isDigit).length + 1))
      (dropNul (rest.dropWhile Char.isDigit)) := by
  have hc : c ≠ nul := by
    rintro rfl
    exact absurd hd (by decide)
  rw [turn, if_neg hc]
  unfold turnChar
  split
  case h_21 => rw [if_pos hd]
  all_goals exact absurd hd (by decide)

/-- The literal `parse_primary_expression` makes of a number. -/
def literal (uninit : Int) (value : String) : Int :=
  match str2int value with
  | .ok lit => lit
  | .error _ => uninit

theorem parsePrimaryExpression_num {uninit : Int} {parseExpression : Parser AstNode} {t : Token}
    {ts : TokenStream} (h : t.type = .num) :
    parsePrimaryExpression uninit parseExpression (t :: ts) =
      .ok (.intConst (literal uninit t.value), ts) := by
  unfold parsePrimaryExpression literal
  simp only [currentToken_bind, List.head?_cons, h, if_true, nextToken_bind, List.tail_cons]
  cases str2int t.value with
  | ok lit => rfl
  | error e => rfl

/-- A literal is the number that was written as long as an `int` can be. -/
theorem literal_eq_iff {uninit : Int} (hint : uninit ≤ intMax) {w : List Char}
    (hw : isNumber w = true) :
    literal uninit (intToStr (numWord w) (w.length + 1)) = digitsValue w ↔
      digitsValue w < 2 ^ 31 := by
  constructor
  · intro h
    have hle : literal uninit (intToStr (numWord w) (w.length + 1)) ≤ intMax := by
      unfold literal
      split
      · rename_i hlit
        exact str2int_le hlit
      · exact hint
    have hle : (digitsValue w : Int) ≤ 2147483647 := h ▸ hle
    omega
  · intro h
    rw [intToStr_numWord hw h, lexemeText, if_pos hw, literal, str2int_repr h]

/--
**A literal in the source has the value its digits denote exactly if that is below 2 ^ 31.**
From there on it becomes another number, without an error.
-/
theorem literal_value_iff {uninit : Nat → Token} {uninitLit : Int} (hint : uninitLit ≤ intMax)
    {parseExpression : Parser AstNode} {ts : TokenStream} {text rest : List Char} {c : Char}
    {s : LexState} (hv : View text s.lexer (c :: rest)) (hd : c.isDigit = true) :
    ∃ (s' : LexState) (token : Token) (lit : Int), tokenizeStep uninit s = .ok (some s') ∧
      s'.vector = s.vector ++ [token] ∧
      parsePrimaryExpression uninitLit parseExpression (token :: ts) = .ok (.intConst lit, ts) ∧
      (lit = digitsValue (c :: rest.takeWhile Char.isDigit) ↔
        digitsValue (c :: rest.takeWhile Char.isDigit) < 2 ^ 31) := by
  have hnum : isNumber (c :: rest.takeWhile Char.isDigit) = true := by
    rw [isNumber, List.all_cons, hd, takeWhile_all]
    rfl
  have hstep : Stepped uninit text s _ _ := tokenizeStep_stepped hv
  rw [turn_digit hd] at hstep
  generalize tokenizeStep uninit s = res at hstep
  cases hstep with
  | token hv' =>
      exact ⟨_, _, _, rfl, rfl, parsePrimaryExpression_num rfl, literal_eq_iff hint hnum⟩

/-- 2 ^ 31 - 1 -/
theorem literal_value_iff_max : ∃ (s' : LexState) (token : Token) (lit : Int),
    tokenizeStep (fun _ => tok .ident "") (LexState.initial "2147483647".toList) = .ok (some s') ∧
      s'.vector = [token] ∧
      parsePrimaryExpression 0 (parseExpression 0 0) [token] = .ok (.intConst lit, []) ∧
      (lit = digitsValue "2147483647".toList ↔ digitsValue "2147483647".toList < 2 ^ 31) :=
  literal_value_iff (by decide) (View.initial "2147483647".toList) rfl

/-- 2 ^ 31 wraps around, is printed without its last digit, and is accepted as that. -/
theorem literal_not_value : ∃ (s' : LexState) (token : Token),
    tokenizeStep (fun _ => tok .ident "") (LexState.initial "2147483648".toList) = .ok (some s') ∧
      s'.vector = [token] ∧
      parsePrimaryExpression 0 (parseExpression 0 0) [token] = .ok (.intConst (-214748364), []) ∧
      digitsValue "2147483648".toList = 2147483648 :=
  ⟨_, _, rfl, rfl, rfl, rfl⟩

end MyLang
