/-
The lexer takes the longest token.

The words that start with a given character are few or all of one kind, so that one
character of lookahead, or taking letters and digits as long as they come, finds the
longest.  A turn of the loop is then a step of `Lexes`, and the loop follows it to the end
of the text.

There are two exceptions, and both are conditions of the theorems here.  A number has to
fit (`DigitsFit`), since its text goes through an `int` on its way into the token; and an
operator that a second character may follow must not stand at the very end, since the loop
then puts back a character that it has not read.

`Lexes` knows nothing of the cases of the switch.  It says of a text that the longest of
all words of the language is taken, and so each case has to show that no longer word
starts with what it has taken (`longest_single`, `longest_pair`): of two characters there
are only the operators of `spellings`, and a word or a number goes on exactly as long as
letters and digits come.

A comment that is open at the end leaves a token that stands for none of the characters.
-/
import MyLang.Proofs.LexEnds

namespace MyLang

open LongestMatch

/-! ### Numbers

`digit` multiplies by ten in an `int`, and `int_to_str` writes what it has got.
-/

theorem digitsValue_append_singleton (w : List Char) (c : Char) :
    digitsValue (w ++ [c]) = digitsValue w * 10 + (c.toNat - '0'.toNat) := by
  rw [digitsValue, List.foldl_append]
  rfl

theorem numWord_eq (w : List Char) : numWord w = BitVec.ofNat 32 (digitsValue w) := by
  induction w using List.reverseRecOn with
  | nil => rfl
  | append_singleton w c ih =>
      rw [digitsValue_append_singleton, numWord, List.foldl_append]
      change numWord w * 10 + _ = _
      rw [ih, BitVec.ofNat_add, BitVec.ofNat_mul]
      rfl

theorem isDigit_toNat {c : Char} (h : c.isDigit = true) : c.toNat - '0'.toNat ≤ 9 := by
  simp only [Char.isDigit, Bool.and_eq_true, decide_eq_true_eq, UInt32.le_iff_toNat_le] at h
  have h9 : ('9'.val).toNat = 57 := rfl
  have h0 : '0'.toNat = 48 := rfl
  have hc : c.toNat = c.val.toNat := rfl
  omega

theorem digitsValue_lt {w : List Char} (h : ∀ c ∈ w, c.isDigit = true) :
    digitsValue w < 10 ^ w.length := by
  induction w using List.reverseRecOn with
  | nil => decide
  | append_singleton w c ih =>
      have hw := ih fun x hx => h x (by simp [hx])
      have hc := isDigit_toNat (h c (by simp))
      rw [digitsValue_append_singleton, List.length_append, List.length_singleton, Nat.pow_succ]
      omega

/-- The text of a number is its value in decimal, as long as the value fits. -/
theorem intToStr_numWord {w : List Char} (h : isNumber w = true) (hfit : digitsValue w < 2 ^ 31) :
    intToStr (numWord w) (w.length + 1) = lexemeText w := by
  have hnum := h
  rw [isNumber, Bool.and_eq_true, decide_eq_true_eq, List.all_eq_true] at hnum
  have hpos : 0 < w.length := List.length_pos_iff.mpr hnum.1
  have hlen := (Nat.length_repr_le_iff hpos).mpr (digitsValue_lt hnum.2)
  have hnat : (numWord w).toNat = digitsValue w := by
    rw [numWord_eq, BitVec.toNat_ofNat, Nat.mod_eq_of_lt (by omega)]
  have hint : (numWord w).toInt = (digitsValue w : Int) := by
    rw [BitVec.toInt_eq_toNat_of_lt (by omega), hnat]
  have hrepr : toString (digitsValue w : Int) = Nat.repr (digitsValue w) := rfl
  rw [intToStr, hint, lexemeText, if_pos h, Nat.add_sub_cancel, hrepr, List.take_of_length_le,
    String.ofList_toList]
  exact hlen

/-! ### The words of the language

What a word can be is told by its first character.
-/

theorem isIdentStart_of_isDigit {c : Char} (h : c.isDigit = true) : isIdentStart c = false := by
  simp only [Char.isDigit, Bool.and_eq_true, decide_eq_true_eq, UInt32.le_iff_toNat_le] at h
  have h9 : ('9'.val).toNat = 57 := rfl
  have hA : ('A'.val).toNat = 65 := rfl
  have ha : ('a'.val).toNat = 97 := rfl
  have hne : c ≠ '_' := by
    rintro rfl
    exact absurd h.2 (by decide)
  have hupper : c.isUpper = false := by
    change decide ('A'.val ≤ c.val ∧ c.val ≤ 'Z'.val) = false
    rw [decide_eq_false_iff_not, UInt32.le_iff_toNat_le]
    omega
  have hlower : c.isLower = false := by
    change (decide ('a'.val ≤ c.val) && decide (c.val ≤ 'z'.val)) = false
    rw [Bool.and_eq_false_iff, decide_eq_false_iff_not, UInt32.le_iff_toNat_le]
    omega
  simp only [isIdentStart, hupper, hlower, Bool.or_eq_false_iff, decide_eq_false_iff_not, true_and]
  exact hne

/-- Operators start with neither a digit nor a letter. -/
theorem spellings_head : ∀ w ∈ spellings.map Prod.fst, ∀ c ∈ w.head?,
    c.isDigit = false ∧ isIdentStart c = false := by
  have hall : (spellings.map Prod.fst).all
      (fun w => w.head?.all fun c => !c.isDigit && !isIdentStart c) = true := by rfl
  intro w hw c hc
  have h := List.all_eq_true.mp hall w hw
  rw [Option.mem_def.mp hc] at h
  simpa using h

/-- What a token consists of. -/
theorem isLexeme_cases {w : List Char} (h : IsLexeme w) :
    isNumber w = true ∨ isWord w = true ∨ w ∈ spellings.map Prod.fst := by
  rw [IsLexeme, lexemeType] at h
  by_cases hnum : isNumber w = true
  · exact Or.inl hnum
  by_cases hword : isWord w = true
  · exact Or.inr (Or.inl hword)
  rw [if_neg hnum, if_neg hword, Option.isSome_iff_exists] at h
  obtain ⟨ty, hty⟩ := h
  obtain ⟨l1, l2, heq, -⟩ := List.lookup_eq_some_iff.mp hty
  exact Or.inr (Or.inr (List.mem_map.mpr ⟨(w, ty), by simp [heq], rfl⟩))

section Words

variable {c : Char} {v rest : List Char}

/-- A token that starts with neither a digit nor a letter is an operator. -/
theorem spelled (h : IsLexeme (c :: v)) (hd : c.isDigit = false) (hi : isIdentStart c = false) :
    c :: v ∈ spellings.map Prod.fst := by
  rcases isLexeme_cases h with h | h | h
  · simp [isNumber, hd] at h
  · simp [isWord, hi] at h
  · exact h

theorem digits_of_isLexeme (hd : c.isDigit = true) (h : IsLexeme (c :: v)) :
    ∀ x ∈ v, x.isDigit = true := by
  rcases isLexeme_cases h with h | h | h
  · rw [isNumber, Bool.and_eq_true, List.all_eq_true] at h
    exact fun x hx => h.2 x (List.mem_cons_of_mem _ hx)
  · simp [isWord, isIdentStart_of_isDigit hd] at h
  · exact absurd hd (by simp [(spellings_head _ h c rfl).1])

theorem identChars_of_isLexeme (hi : isIdentStart c = true) (h : IsLexeme (c :: v)) :
    ∀ x ∈ v, isIdentChar x = true := by
  rcases isLexeme_cases h with h | h | h
  · rw [isNumber, Bool.and_eq_true, List.all_eq_true] at h
    have hd := h.2 c (List.mem_cons_self ..)
    exact absurd hi (by simp [isIdentStart_of_isDigit hd])
  · rw [isWord, Bool.and_eq_true, List.all_eq_true] at h
    exact h.2
  · exact absurd hi (by simp [(spellings_head _ h c rfl).2])

/-- An operator of two characters that no longer one starts with. -/
theorem longest_pair {d : Char} (hw : IsLexeme [c, d]) (h : ∀ v, IsLexeme (c :: v) → v.length ≤ 1) :
    Longest IsLexeme [c, d] rest := by
  refine Longest.of_not hw fun v hv _ hcv => ?_
  have hlen := h (d :: v) hcv
  have hpos := List.length_pos_iff.mpr hv
  rw [List.length_cons] at hlen
  omega

/-- An operator of one character, if what follows does not make it a longer one. -/
theorem longest_single (hw : IsLexeme [c]) (h : ∀ v, IsLexeme (c :: v) → v.length ≤ 1)
    (hnext : ∀ d, rest.head? = some d → ¬ IsLexeme [c, d]) : Longest IsLexeme [c] rest := by
  refine Longest.of_not hw fun v hv hpre hcv => ?_
  have hlen := h v hcv
  cases v with
  | nil => exact hv rfl
  | cons d v =>
      rw [List.length_cons] at hlen
      obtain rfl : v = [] := List.length_eq_zero_iff.mp (by omega)
      refine hnext d ?_ hcv
      obtain ⟨t, rfl⟩ := hpre
      rfl

end Words

/-- No operator has more than two characters. -/
theorem spellings_length : ∀ w ∈ spellings.map Prod.fst, w.tail.length ≤ 1 := by decide

theorem length_le_of_isLexeme {c : Char} {v : List Char} (hd : c.isDigit = false)
    (hi : isIdentStart c = false) (h : IsLexeme (c :: v)) : v.length ≤ 1 :=
  spellings_length _ (spelled h hd hi)

/-! ### A turn

One lemma for each kind of case of the switch: an operator that stands alone, one that may
be the first half of another, a number, a word, a comment, a division.
-/

/-- What a turn means for the tokens of a text. -/
inductive TurnLexes (text : List Char) : Turn → Prop
  | done (h : text = []) : TurnLexes text .done
  | stop {c rest} (h : text = c :: rest) (hc : isTextChar c = false) : TurnLexes text (.stop c)
  | blank {c rest} (h : text = c :: rest) (hc : c = ' ' ∨ c = '\t') : TurnLexes text (.blank rest)
  | newline {rest} (h : text = '\n' :: rest) : TurnLexes text (.newline rest)
  | comment {body rest} (hbody : '\n' ∉ body) (h : text = '/' :: '/' :: (body ++ '\n' :: rest)) :
      TurnLexes text (.newline rest)
  | lastComment {body} (hbody : '\n' ∉ body) (h : text = '/' :: '/' :: body) :
    TurnLexes text (.unset [])
  | token {w rest ty} (hw : Longest IsLexeme w rest) (hty : lexemeType w = some ty)
      (hcomment : ¬ ['/', '/'] <+: w ++ rest) (h : text = w ++ rest) :
      TurnLexes text (.token ty (lexemeText w) rest)

section Turns

variable {c : Char} {rest : List Char}

/-- A character that is an operator, whatever follows. -/
theorem turnLexes_one {ty : TokenType} (hty : lexemeType [c] = some ty) (hslash : c ≠ '/')
    (h : ∀ v, IsLexeme (c :: v) → v = []) : TurnLexes (c :: rest)
      (.token ty (lexemeText [c]) rest) := by
  have hw : IsLexeme [c] := by rw [IsLexeme, hty]; rfl
  refine TurnLexes.token (w := [c]) (Longest.of_not hw fun v hv _ hcv => hv (h v hcv)) hty ?_ rfl
  rw [List.singleton_append, List.cons_prefix_cons]
  exact fun h => hslash h.1.symm

/-- An operator of two characters. -/
theorem turnLexes_pair {d : Char} {ty : TokenType} (hd : c.isDigit = false)
    (hi : isIdentStart c = false) (hslash : c ≠ '/') (hty : lexemeType [c, d] = some ty) :
    TurnLexes (c :: d :: rest) (.token ty (lexemeText [c, d]) rest) := by
  have hw : IsLexeme [c, d] := by rw [IsLexeme, hty]; rfl
  refine TurnLexes.token (w := [c, d])
    (longest_pair hw fun v => length_le_of_isLexeme hd hi) hty ?_ rfl
  rw [List.cons_append, List.cons_prefix_cons]
  exact fun h => hslash h.1.symm

/-- An operator of one character, not completed by what follows; it is not the last one. -/
theorem turnLexes_unread {ty : TokenType} (hd : c.isDigit = false) (hi : isIdentStart c = false)
    (hty : lexemeType [c] = some ty) (hne : rest ≠ [])
    (hnext : ∀ d, rest.head? = some d → ¬ IsLexeme [c, d])
    (hcomment : ¬ ['/', '/'] <+: c :: rest) :
    TurnLexes (c :: rest) (.token ty (lexemeText [c]) (unread c rest)) := by
  have hw : IsLexeme [c] := by rw [IsLexeme, hty]; rfl
  rw [unread, if_neg hne]
  exact TurnLexes.token (w := [c])
    (longest_single hw (fun v => length_le_of_isLexeme hd hi) hnext) hty
    hcomment rfl

theorem not_two_slashes (hslash : c ≠ '/') : ¬ ['/', '/'] <+: c :: rest := by
  rw [List.cons_prefix_cons]
  exact fun h => hslash h.1.symm

theorem turnLexes_two {second : Char} {ty2 ty1 : TokenType} (hd : c.isDigit = false)
    (hi : isIdentStart c = false) (hslash : c ≠ '/') (hty2 : lexemeType [c, second] = some ty2)
    (hty1 : lexemeType [c] = some ty1) (honly : ∀ d, IsLexeme [c, d] → d = second)
    (hne : rest ≠ []) :
    TurnLexes (c :: rest)
      (turnTwo c rest second ty2 (lexemeText [c, second]) ty1 (lexemeText [c])) := by
  rw [turnTwo]
  by_cases h2 : rest.head? = some second
  · rw [if_pos h2]
    obtain ⟨rest, rfl⟩ := List.head?_eq_some_iff.mp h2
    exact turnLexes_pair hd hi hslash hty2
  · rw [if_neg h2]
    refine turnLexes_unread hd hi hty1 hne (fun d hrest hcd => h2 ?_) (not_two_slashes hslash)
    rw [hrest, honly d hcd]

/-- An operator that one of two characters may complete. -/
theorem turnLexes_three {tyTwice tyEq ty1 : TokenType} (hd : c.isDigit = false)
    (hi : isIdentStart c = false) (hslash : c ≠ '/') (htwice : lexemeType [c, c] = some tyTwice)
    (heq : lexemeType [c, '='] = some tyEq) (hty1 : lexemeType [c] = some ty1)
    (honly : ∀ d, IsLexeme [c, d] → d = c ∨ d = '=') (hne : rest ≠ []) :
    TurnLexes (c :: rest)
      (turnThree c rest tyTwice (lexemeText [c, c]) tyEq (lexemeText [c, '=']) ty1
      (lexemeText [c])) := by
  rw [turnThree]
  by_cases h2 : rest.head? = some c
  · rw [if_pos h2]
    obtain ⟨rest, rfl⟩ := List.head?_eq_some_iff.mp h2
    exact turnLexes_pair hd hi hslash htwice
  rw [if_neg h2]
  by_cases h3 : rest.head? = some '='
  · rw [if_pos h3]
    obtain ⟨rest, rfl⟩ := List.head?_eq_some_iff.mp h3
    exact turnLexes_pair hd hi hslash heq
  · rw [if_neg h3]
    refine turnLexes_unread hd hi hty1 hne (fun d hrest hcd => ?_) (not_two_slashes hslash)
    rcases honly d hcd with rfl | rfl
    · exact h2 hrest
    · exact h3 hrest

theorem dropNul_of_not_mem {l : List Char} (h : nul ∉ l) : dropNul l = l := by
  cases l with
  | nil => rfl
  | cons c l =>
      rw [dropNul, if_neg]
      rintro rfl
      exact h (List.mem_cons_self ..)

/-- What `takeWhile` takes is what there is. -/
theorem takeWhile_all (p : Char → Bool) (l : List Char) : (l.takeWhile p).all p = true := by
  rw [List.all_eq_true]
  exact fun x hx => List.mem_takeWhile_imp hx

/-- A number is as long as its digits go. -/
theorem turnLexes_number (hd : c.isDigit = true) (hnul : nul ∉ rest)
    (hval : digitsValue (c :: rest.takeWhile Char.isDigit) < 2 ^ 31) :
    TurnLexes (c :: rest) (.token .num
      (intToStr (numWord (c :: rest.takeWhile Char.isDigit))
        ((c :: rest.takeWhile Char.isDigit).length + 1))
      (dropNul (rest.dropWhile Char.isDigit))) := by
  have hnum : isNumber (c :: rest.takeWhile Char.isDigit) = true := by
    rw [isNumber, List.all_cons, hd, takeWhile_all]
    rfl
  have hty : lexemeType (c :: rest.takeWhile Char.isDigit) = some .num := if_pos hnum
  have hsplit : c :: rest = (c :: rest.takeWhile Char.isDigit) ++ rest.dropWhile Char.isDigit := by
    rw [List.cons_append, List.takeWhile_append_dropWhile]
  have hlong : Longest IsLexeme (c :: rest.takeWhile Char.isDigit) (rest.dropWhile Char.isDigit) :=
    longest_takeWhile (by rw [IsLexeme, hty]; rfl) fun v => digits_of_isLexeme hd
  rw [intToStr_numWord hnum hval,
    dropNul_of_not_mem fun h => hnul ((List.dropWhile_sublist _).subset h)]
  refine TurnLexes.token hlong hty ?_ hsplit
  rw [← hsplit]
  refine not_two_slashes ?_
  rintro rfl
  exact absurd hd (by decide)

/-- The type of a word is the one the language has for it. -/
theorem wordType_eq (ident : String) : wordType ident = (keywords.lookup ident).getD .ident := by
  by_cases hmem : ident ∈ keywords.map Prod.fst
  · -- one keyword after the other
    simp only [keywords, List.map_cons, List.map_nil, List.mem_cons, List.not_mem_nil, or_false]
      at hmem
    rcases hmem with rfl | rfl | rfl | rfl | rfl | rfl | rfl | rfl <;> rfl
  · have hnone : keywords.lookup ident = none := by
      rw [List.lookup_eq_none_iff]
      intro p hp
      rw [bne_iff_ne]
      rintro rfl
      exact hmem (List.mem_map_of_mem hp)
    simp only [keywords, List.map_cons, List.map_nil, List.mem_cons, List.not_mem_nil, or_false,
      not_or] at hmem
    simp only [wordType, hmem, if_false, hnone]
    rfl

/-- A word is as long as its letters and digits go. -/
theorem turnLexes_word (hd : c.isDigit = false) (hi : isIdentStart c = true) (hnul : nul ∉ rest) :
    TurnLexes (c :: rest) (.token (wordType (String.ofList (c :: rest.takeWhile isIdentChar)))
      (String.ofList (c :: rest.takeWhile isIdentChar))
      (dropNul (rest.dropWhile isIdentChar))) := by
  have hnum : ¬ isNumber (c :: rest.takeWhile isIdentChar) = true := by simp [isNumber, hd]
  have hword : isWord (c :: rest.takeWhile isIdentChar) = true := by
    rw [isWord, hi, takeWhile_all]
    rfl
  have hty : lexemeType (c :: rest.takeWhile isIdentChar)
      = some (wordType (String.ofList (c :: rest.takeWhile isIdentChar))) := by
    rw [lexemeType, if_neg hnum, if_pos hword, wordType_eq]
  have hsplit : c :: rest = (c :: rest.takeWhile isIdentChar) ++ rest.dropWhile isIdentChar := by
    rw [List.cons_append, List.takeWhile_append_dropWhile]
  have hlong : Longest IsLexeme (c :: rest.takeWhile isIdentChar) (rest.dropWhile isIdentChar) :=
    longest_takeWhile (by rw [IsLexeme, hty]; rfl) fun v => identChars_of_isLexeme hi
  have htext : lexemeText (c :: rest.takeWhile isIdentChar)
      = String.ofList (c :: rest.takeWhile isIdentChar) := if_neg hnum
  rw [dropNul_of_not_mem fun h => hnul ((List.dropWhile_sublist _).subset h), ← htext]
  refine TurnLexes.token hlong (by rw [htext]; exact hty) ?_ hsplit
  rw [← hsplit]
  refine not_two_slashes ?_
  rintro rfl
  exact absurd hi (by decide)

/-- A comment goes as far as its newline, or to the end. -/
theorem turnLexes_comment (hnul : nul ∉ rest) :
    TurnLexes ('/' :: '/' :: rest) (turnComment rest) := by
  have hbody : '\n' ∉ rest.takeWhile inComment := fun h => by
    have := List.mem_takeWhile_imp h
    simp [inComment] at this
  have hsplit := List.takeWhile_append_dropWhile (p := inComment) (l := rest)
  rw [turnComment]
  cases hl : rest.dropWhile inComment with
  | nil =>
      rw [hl, List.append_nil] at hsplit
      exact TurnLexes.lastComment (hsplit ▸ hbody) rfl
  | cons d rest' =>
      rw [hl] at hsplit
      have hd : d ≠ nul := by
        rintro rfl
        exact hnul (hsplit ▸ by simp)
      have hstop := List.head?_dropWhile_not inComment rest
      rw [hl] at hstop
      obtain rfl : d = '\n' := by simpa [inComment, hd] using hstop
      dsimp only
      rw [if_neg hd]
      exact TurnLexes.comment hbody (by rw [hsplit])

/-- A slash is a comment or a division. -/
theorem turnLexes_slash (hnul : nul ∉ rest) (hne : rest ≠ []) :
    TurnLexes ('/' :: rest)
      (if rest.head? = some '/' then turnComment rest.tail
        else .token .div "/" (unread '/' rest)) := by
  by_cases h2 : rest.head? = some '/'
  · rw [if_pos h2]
    obtain ⟨rest, rfl⟩ := List.head?_eq_some_iff.mp h2
    exact turnLexes_comment fun h => hnul (List.mem_cons_of_mem _ h)
  · rw [if_neg h2]
    refine turnLexes_unread (c := '/') rfl rfl rfl hne (fun d _ hcd => ?_) ?_
    · have := spelled hcd rfl rfl
      simp [spellings] at this
    · rintro ⟨t, ht⟩
      rw [List.cons_append, List.cons.injEq] at ht
      exact h2 (by rw [← ht.2]; rfl)

/--
A turn is a step of the longest match if the number it may start with fits and no operator
is pending.
-/
theorem turn_lexes_of {text : List Char} (hnul : nul ∉ text)
    (hfit : ∀ c rest, text = c :: rest → c.isDigit = true →
      digitsValue (c :: rest.takeWhile Char.isDigit) < 2 ^ 31)
    (hpend : ∀ c rest, text = c :: rest → LexMode.behind c = some (.op c) → rest ≠ []) :
    TurnLexes text (turn text) := by
  cases text with
  | nil => exact TurnLexes.done rfl
  | cons c rest =>
      have hc : c ≠ nul := fun h => hnul (h ▸ List.mem_cons_self ..)
      have hnul' : nul ∉ rest := fun h => hnul (List.mem_cons_of_mem _ h)
      have hne := hpend c rest rfl
      rw [turn, if_neg hc]
      have hturn := charTurn c
      generalize turnChar c = f at hturn ⊢
      -- one case for each case of the switch
      cases hturn with
      | slash => exact turnLexes_slash hnul' (hne rfl)
      | newline => exact TurnLexes.newline rfl
      | tab => exact TurnLexes.blank rfl (Or.inr rfl)
      | space => exact TurnLexes.blank rfl (Or.inl rfl)
      | and | or | assign | not =>
        refine turnLexes_two rfl rfl (by decide) rfl rfl (fun d hd => ?_) (hne rfl)
        have := spelled hd rfl rfl
        simpa [spellings] using this
      | lt | gt =>
        refine turnLexes_three rfl rfl (by decide) rfl rfl rfl (fun d hd => ?_) (hne rfl)
        have := spelled hd rfl rfl
        simpa [spellings] using this
      | add | sub | mult | semicolon | lparen | rparen | lbrace | rbrace | xor | comma =>
        refine turnLexes_one rfl (by decide) fun v hv => ?_
        have := spelled hv rfl rfl
        simpa [spellings] using this
      | other h =>
        obtain ⟨hop, hother⟩ := not_special h
        beta_reduce
        by_cases hd : c.isDigit = true
        · rw [if_pos hd]
          exact turnLexes_number hd hnul' (hfit c rest rfl hd)
        rw [if_neg hd]
        have hd := Bool.eq_false_of_not_eq_true hd
        by_cases hi : isIdentStart c = true
        · rw [if_pos hi]
          exact turnLexes_word hd hi hnul'
        · rw [if_neg hi]
          refine TurnLexes.stop rfl ?_
          rw [Bool.or_eq_false_iff] at hother
          have hi := Bool.eq_false_of_not_eq_true hi
          simp only [isIdentStart, Bool.or_eq_false_iff] at hi
          simp [isTextChar, isIdentChar, hop, hother.1, hother.2, hd, hi.1.1, hi.1.2, hi.2]

/-- **A turn is a step of the longest match**, unless an operator is pending at the end. -/
theorem turn_lexes {text : List Char} (hnul : nul ∉ text) (hfit : DigitsFit text)
    (hp : endsPending text = false) : TurnLexes text (turn text) := by
  refine turn_lexes_of hnul (fun c rest heq hd => hfit _ ?_ ?_) fun c rest heq hbehind hrest => ?_
  · rw [isNumber, List.all_cons, hd, takeWhile_all]
    rfl
  · have hsplit : c :: rest = (c :: rest.takeWhile Char.isDigit)
        ++ rest.dropWhile Char.isDigit := by
      rw [List.cons_append, List.takeWhile_append_dropWhile]
    rw [heq]
    exact hsplit ▸ (List.prefix_append _ _).isInfix
  · -- a pending operator would have nothing behind it
    rw [heq, hrest, endsPending, endsIn_behind hbehind] at hp
    exact absurd hp (by simp [endsIn, LexMode.isOp])

end Turns

/-! ### What stands outside comments

A character that no token can have is unexpected where it stands outside a comment.
-/

section Outside

variable {c : Char} {rest w body : List Char}

theorem outsideComments_cons (hc : c ≠ '/') :
    outsideComments false (c :: rest) = c :: outsideComments false rest := by
  rw [outsideComments]
  exact fun _ h => absurd h hc

theorem outsideComments_slash (h : ¬ ['/', '/'] <+: '/' :: rest) :
    outsideComments false ('/' :: rest) = '/' :: outsideComments false rest := by
  rw [outsideComments]
  rintro rest' - rfl
  exact h ⟨rest', rfl⟩

theorem outsideComments_append (h : '/' ∉ w) :
    outsideComments false (w ++ rest) = w ++ outsideComments false rest := by
  induction w with
  | nil => rfl
  | cons c w ih =>
      have hc : c ≠ '/' := fun heq => h (heq ▸ List.mem_cons_self ..)
      rw [List.cons_append, outsideComments_cons hc, ih fun hw => h (List.mem_cons_of_mem _ hw),
        List.cons_append]

theorem outsideComments_body (h : '\n' ∉ body) :
    outsideComments true (body ++ '\n' :: rest) = '\n' :: outsideComments false rest := by
  induction body with
  | nil => rfl
  | cons c body ih =>
      have hc : c ≠ '\n' := fun heq => h (heq ▸ List.mem_cons_self ..)
      rw [List.cons_append, outsideComments, if_neg hc, ih fun hb => h (List.mem_cons_of_mem _ hb)]

theorem outsideComments_lastBody (h : '\n' ∉ body) : outsideComments true body = [] := by
  induction body with
  | nil => rfl
  | cons c body ih =>
      have hc : c ≠ '\n' := fun heq => h (heq ▸ List.mem_cons_self ..)
      rw [outsideComments, if_neg hc, ih fun hb => h (List.mem_cons_of_mem _ hb)]

end Outside

theorem isTextChar_of_isIdentChar {c : Char} (h : isIdentChar c = true) : isTextChar c = true := by
  rw [isTextChar, h]
  rfl

theorem spellings_text : ∀ w ∈ spellings.map Prod.fst,
    (w = ['/'] ∨ '/' ∉ w) ∧ ∀ c ∈ w, isTextChar c = true := by
  have hall : (spellings.map Prod.fst).all
      (fun w => (w == ['/'] || !w.contains '/') && w.all isTextChar) = true := by rfl
  intro w hw
  have h := List.all_eq_true.mp hall w hw
  simpa using h

/-- A token consists of characters of the language, and only division of a slash. -/
theorem isLexeme_text {w : List Char} (h : IsLexeme w) :
    (w = ['/'] ∨ '/' ∉ w) ∧ ∀ c ∈ w, isTextChar c = true := by
  rcases isLexeme_cases h with h | h | h
  · rw [isNumber, Bool.and_eq_true, List.all_eq_true] at h
    refine ⟨Or.inr fun hs => absurd (h.2 _ hs) (by decide),
      fun c hc => isTextChar_of_isIdentChar ?_⟩
    rw [isIdentChar, h.2 c hc, Bool.or_true, Bool.true_or]
  · have hall : ∀ c ∈ w, isIdentChar c = true := by
      cases w with
      | nil => simp [isWord] at h
      | cons c w =>
          rw [isWord, Bool.and_eq_true, List.all_eq_true] at h
          intro x hx
          rcases List.mem_cons.mp hx with rfl | hx
          · have hi := h.1
            simp only [isIdentStart, isIdentChar, Bool.or_eq_true] at hi ⊢
            grind
          · exact h.2 x hx
    exact ⟨Or.inr fun hs => absurd (hall _ hs) (by decide),
      fun c hc => isTextChar_of_isIdentChar (hall c hc)⟩
  · exact spellings_text w h

/-- Whether something is unexpected in a text shows at a turn, or in what it leaves. -/
def UnexpectedBy (text : List Char) : Turn → Prop
  | .done | .unset _ => ¬ HasUnexpected text
  | .stop _ => HasUnexpected text
  | .blank rest | .newline rest | .token _ _ rest => HasUnexpected text ↔ HasUnexpected rest

/-- A turn of the longest match passes over nothing that is unexpected. -/
theorem TurnLexes.unexpectedBy {text : List Char} {tn : Turn} (h : TurnLexes text tn) :
    UnexpectedBy text tn := by
  cases h with
  | done h =>
      subst h
      simp [UnexpectedBy, HasUnexpected, outsideComments]
  | @stop c rest h hc =>
      subst h
      have hslash : c ≠ '/' := by
        rintro rfl
        exact absurd hc (by decide)
      refine ⟨c, ?_, hc⟩
      rw [outsideComments_cons hslash]
      exact List.mem_cons_self ..
  | @blank c rest h hc =>
      subst h
      have hslash : c ≠ '/' := by
        rintro rfl
        exact absurd hc (by decide)
      have htext : isTextChar c = true := by
        rcases hc with rfl | rfl <;> rfl
      rw [UnexpectedBy, HasUnexpected, outsideComments_cons hslash]
      simp [HasUnexpected, htext]
  | @newline rest h =>
      subst h
      have htext : isTextChar '\n' = true := rfl
      rw [UnexpectedBy, HasUnexpected, outsideComments_cons (by decide)]
      simp [HasUnexpected, htext]
  | @comment body rest hbody h =>
      subst h
      have htext : isTextChar '\n' = true := rfl
      rw [UnexpectedBy, HasUnexpected, outsideComments, outsideComments_body hbody]
      simp [HasUnexpected, htext]
  | @lastComment body hbody h =>
      subst h
      rw [UnexpectedBy, HasUnexpected, outsideComments, outsideComments_lastBody hbody]
      simp
  | @token w rest ty hw hty hcomment h =>
      subst h
      obtain ⟨hslash, htext⟩ := isLexeme_text hw.word
      have happend : outsideComments false (w ++ rest) = w ++ outsideComments false rest := by
        rcases hslash with rfl | hslash
        · exact outsideComments_slash hcomment
        · exact outsideComments_append hslash
      rw [UnexpectedBy, HasUnexpected, happend]
      constructor
      · rintro ⟨c, hc, hbad⟩
        rcases List.mem_append.mp hc with hc | hc
        · exact absurd (htext c hc) (by simp [hbad])
        · exact ⟨c, hc, hbad⟩
      · rintro ⟨c, hc, hbad⟩
        exact ⟨c, List.mem_append_right _ hc, hbad⟩

/-! ### The loop

The loop takes the turns from left to right.  It stops with an error at the first
character that is unexpected, which a turn leaves for a later one if it does not take it
itself.
-/

/-- A turn leaves an end of the text. -/
theorem TurnLexes.suffix {text rest : List Char} {tn : Turn} (h : TurnLexes text tn)
    (hrest : tn.rest = some rest) : rest <:+ text := by
  cases h with
  | done | stop => simp [Turn.rest] at hrest
  | @blank c rest' h hc =>
      obtain rfl := Option.some.inj hrest
      exact ⟨[c], h.symm⟩
  | @newline rest' h =>
      obtain rfl := Option.some.inj hrest
      exact ⟨['\n'], h.symm⟩
  | @comment body rest' hbody h =>
      obtain rfl := Option.some.inj hrest
      exact ⟨'/' :: '/' :: (body ++ ['\n']), by simp [h]⟩
  | @lastComment body hbody h =>
      obtain rfl := Option.some.inj hrest
      exact List.nil_suffix
  | @token w rest' ty hw hty hcomment h =>
      obtain rfl := Option.some.inj hrest
      exact ⟨w, h.symm⟩

/-- Whether a text ends in a comment shows at a turn, or in what it leaves. -/
def CommentBy (text : List Char) : Turn → Prop
  | .done => endsInComment text = false
  | .stop _ => True
  | .unset _ => endsInComment text = true
  | .blank rest | .newline rest | .token _ _ rest => endsInComment text = endsInComment rest

/-- Whether a text ends in a comment shows at each of its turns. -/
theorem TurnLexes.commentBy {text : List Char} (h : TurnLexes text (turn text)) (hnul : nul ∉ text)
    (hp : endsPending text = false) : CommentBy text (turn text) := by
  have hadv := turn_advances LexMode.isComment rfl rfl rfl text
  have hpend := turn_pending text
  cases htn : turn text with
  | done =>
      rw [htn] at hadv
      exact hadv
  | stop => exact trivial
  | unset rest =>
      rw [htn] at h
      cases h with
      | @lastComment body hbody heq =>
          subst heq
          have hall : body.dropWhile inComment = [] := by
            rw [List.dropWhile_eq_nil_iff]
            intro x hx
            have hn : x ≠ nul := by
              rintro rfl
              exact hnul (by simp [hx])
            have hl : x ≠ '\n' := by
              rintro rfl
              exact hbody hx
            simp [inComment, hn, hl]
          have hend := endsIn_comment (q := LexMode.isComment) body
          rw [hall] at hend
          exact hend
  | blank rest | newline rest | token ty value rest =>
      rw [htn] at hadv hpend
      have hlt := hpend.2 hp
      rcases hadv with ⟨-, heq⟩ | ⟨rfl, -⟩
      · exact heq
      · exact absurd hlt (lt_irrefl _)

/-- The token that a comment at the end of the input is taken for. -/
def commentToken (uninit : Nat → Token) (n : Nat) (line : Int) (text : List Char) : List Token :=
  if endsInComment text then [{ uninit n with pos := 1, line }] else []

/-- What the loop makes of a text: it stops, or pushes the tokens of the text. -/
structure LoopLexes (uninit : Nat → Token) (s : LexState) (text : List Char)
    (res : Option (Except LexError (List Token))) : Prop where
  stops : HasUnexpected text → ∃ c, res = some (.error (.unexpectedChar c))
  returns : ¬ HasUnexpected text → ∃ ts line, Lexes s.line text (ts.map Token.lexeme) ∧
    res = some
      (.ok (s.vector ++ (ts ++ commentToken uninit (s.vector.length + ts.length) line text)))

section Loop

variable {uninit : Nat → Token} {text rest : List Char} {s s' : LexState}
  {res : Option (Except LexError (List Token))}

/-- A turn that pushes no token. -/
theorem LoopLexes.skip (h : LoopLexes uninit s' rest res) (hvec : s'.vector = s.vector)
    (hbad : HasUnexpected text ↔ HasUnexpected rest)
    (hcom : endsInComment text = endsInComment rest)
    (hlex : ∀ ls, Lexes s'.line rest ls → Lexes s.line text ls) : LoopLexes uninit s text res := by
  refine ⟨fun hb => h.stops (hbad.mp hb), fun hb => ?_⟩
  obtain ⟨ts, line, hl, hres⟩ := h.returns fun hb' => hb (hbad.mpr hb')
  refine ⟨ts, line, hlex _ hl, ?_⟩
  rw [hres, hvec, commentToken, commentToken, hcom]

/-- A turn that pushes a token. -/
theorem LoopLexes.push {t : Token} (h : LoopLexes uninit s' rest res)
    (hvec : s'.vector = s.vector ++ [t]) (hbad : HasUnexpected text ↔ HasUnexpected rest)
    (hcom : endsInComment text = endsInComment rest)
    (hlex : ∀ ls, Lexes s'.line rest ls → Lexes s.line text (t.lexeme :: ls)) :
    LoopLexes uninit s text res := by
  refine ⟨fun hb => h.stops (hbad.mp hb), fun hb => ?_⟩
  obtain ⟨ts, line, hl, hres⟩ := h.returns fun hb' => hb (hbad.mpr hb')
  refine ⟨t :: ts, line, hlex _ hl, ?_⟩
  have hlen : s'.vector.length + ts.length = s.vector.length + (t :: ts).length := by
    rw [hvec, List.length_append, List.length_singleton, List.length_cons]
    omega
  rw [hres, hlen, hvec, commentToken, commentToken, hcom, List.append_assoc]
  rfl

theorem DigitsFit.suffix (h : DigitsFit text) (hs : rest <:+ text) : DigitsFit rest :=
  fun w hw hin => h w hw (hin.trans hs.isInfix)

theorem tokenizeLoop_nil {whole : List Char} (hv : View whole s.lexer []) {fuel : Nat}
    (hfuel : 0 < fuel) : tokenizeLoop uninit fuel s = some (.ok s.vector) := by
  obtain ⟨n, rfl⟩ := Nat.exists_eq_succ_of_ne_zero (Nat.ne_of_gt hfuel)
  have hstep : tokenizeStep uninit s = .ok none := by
    rw [tokenizeStep, hv.next_nil]
    rfl
  rw [tokenizeLoop, hstep]

/-- **The loop makes of a text the tokens it has.** -/
theorem tokenizeLoop_lexes {whole : List Char} (hnul : nul ∉ text) (hfit : DigitsFit text)
    (hp : endsPending text = false) (hv : View whole s.lexer text) {fuel : Nat}
    (hfuel : text.length < fuel) : LoopLexes uninit s text (tokenizeLoop uninit fuel s) := by
  -- one turn for each unit of fuel, and the text left gets shorter with each
  induction fuel generalizing s text with
  | zero => omega
  | succ fuel ih =>
      have hlex := turn_lexes hnul hfit hp
      have hcom := hlex.commentBy hnul hp
      have hbad := hlex.unexpectedBy
      have hpend := turn_pending text
      have hstep : Stepped uninit _ s (turn text) (tokenizeStep uninit s) := tokenizeStep_stepped hv
      have hsuf : ∀ rest, (turn text).rest = some rest → rest <:+ text := fun rest => hlex.suffix
      -- the rest of the loop, from what the turn leaves
      have hnext : ∀ {s' : LexState} {rest : List Char}, (turn text).rest = some rest →
          View whole s'.lexer rest → LoopLexes uninit s' rest (tokenizeLoop uninit fuel s') := by
        intro s' rest hrest hv'
        rw [hrest] at hpend
        have hs := hsuf rest hrest
        have hlt := hpend.2 hp
        exact ih (fun h => hnul (hs.subset h)) (hfit.suffix hs) (hpend.1.trans hp) hv' (by omega)
      rw [tokenizeLoop]
      generalize turn text = tn at hlex hcom hbad hstep hnext
      generalize tokenizeStep uninit s = res at hstep
      cases hstep with
      | done =>
          refine ⟨fun h => absurd h hbad, fun _ => ⟨[], 0, ?_, ?_⟩⟩
          · cases hlex with
            | done h => exact h ▸ Lexes.nil
          · have : endsInComment text = false := hcom
            simp [commentToken, this]
      | stop => exact ⟨fun _ => ⟨_, rfl⟩, fun h => absurd hbad h⟩
      | blank hv' =>
          refine (hnext rfl hv').skip rfl hbad hcom fun ls hls => ?_
          cases hlex with
          | blank h hc => exact h ▸ Lexes.blank hc hls
      | newline hv' =>
          refine (hnext rfl hv').skip rfl hbad hcom fun ls hls => ?_
          cases hlex with
          | newline h => exact h ▸ Lexes.newline hls
          | comment hbody h => exact h ▸ Lexes.comment hbody (Lexes.newline hls)
      | token hv' =>
          refine (hnext rfl hv').push rfl hbad hcom fun ls hls => ?_
          cases hlex with
          | token hw hty hcomment h => exact h ▸ Lexes.token hw hty hcomment hls
      | unset hv' =>
          cases hlex with
          | @lastComment body hbody h =>
              have hcom : endsInComment text = true := hcom
              have hlen : 0 < fuel := by
                rw [h, List.length_cons] at hfuel
                omega
              refine ⟨fun h => absurd h hbad, fun _ => ⟨[], s.line + 1, h ▸ Lexes.lastComment hbody,
                ?_⟩⟩
              dsimp only
              rw [tokenizeLoop_nil hv' hlen, commentToken, if_pos hcom]
              rfl

end Loop

end MyLang
