/-
What one more character at the end of a text does to its tokens.

The turns before the last one do not see it.  The last one may be a number or a word that
goes on with it, or a comment that it ends; behind everything else it is a text of its
own.  A comment that ends with the text is pushed as a token, with whatever the memory of
the token held, and a newline behind it takes that token away again.

`TurnSnoc` has these cases, for a single turn and whatever the character is.  Two more are
there for texts that the loop does not get through: a character that stops it, and an
operator at the end that one more character may complete, where the loop goes round for
ever.

The digits at the end of a text may belong to a number or to a name, and only the
beginning of the word tells which; `lastNumber` finds this out from the text.  It is
needed because one more digit need not show in the token of a number, while the token of a
name always changes.
-/
import Mathlib.Data.List.DropRight
import MyLang.Proofs.Lexes
import MyLang.Proofs.Literals

namespace MyLang

/-- The type and the text of a token. -/
def Token.spelling (t : Token) : TokenType × String := (t.type, t.value)

/-- The text that `tokenize_digit` gives the token of a number. -/
def numText (w : List Char) : String := intToStr (numWord w) (w.length + 1)

/-- The digits at the end of a text, unless they belong to a name. -/
def lastNumber (text : List Char) : List Char :=
  if (text.rdropWhile Char.isDigit).getLast?.any isIdentChar then []
    else text.rtakeWhile Char.isDigit

section LastNumber

variable {text rest w : List Char}

theorem isIdentChar_of_isDigit {c : Char} (h : c.isDigit = true) : isIdentChar c = true := by
  simp [isIdentChar, h]

/-- A number goes back to where a turn starts, if no name goes on there. -/
theorem lastNumber_append (hne : rest ≠ [])
    (h : w.getLast?.any isIdentChar = true → rest.head?.any Char.isDigit = false) :
    lastNumber (w ++ rest) = lastNumber rest := by
  unfold lastNumber List.rtakeWhile List.rdropWhile
  rw [List.reverse_append, List.takeWhile_append, List.dropWhile_append]
  by_cases hall : ∀ d ∈ rest, d.isDigit = true
  · have hdrop : rest.reverse.dropWhile Char.isDigit = [] := by
      rw [List.dropWhile_eq_nil_iff]
      exact fun d hd => hall d (List.mem_reverse.mp hd)
    have htake : rest.reverse.takeWhile Char.isDigit = rest.reverse := by
      rw [List.takeWhile_eq_self_iff]
      exact fun d hd => hall d (List.mem_reverse.mp hd)
    -- the digits start where the turn does
    have hlast : w.getLast?.any isIdentChar = false := by
      by_contra hw
      obtain ⟨d, rest', rfl⟩ := List.exists_cons_of_ne_nil hne
      have hd := h (Bool.eq_true_of_not_eq_false hw)
      rw [List.head?_cons, Option.any_some, hall d List.mem_cons_self] at hd
      exact absurd hd (by decide)
    rw [hdrop, htake]
    cases w using List.reverseRecOn with
    | nil => simp
    | append_singleton w e _ =>
        rw [List.getLast?_concat, Option.any_some] at hlast
        have he : e.isDigit = false := by
          by_contra he
          rw [isIdentChar_of_isDigit (Bool.eq_true_of_not_eq_false he)] at hlast
          exact absurd hlast (by decide)
        simp [he, hlast]
  · have hdrop : rest.reverse.dropWhile Char.isDigit ≠ [] := by
      rw [Ne, List.dropWhile_eq_nil_iff]
      exact fun hd => hall fun d hmem => hd d (List.mem_reverse.mpr hmem)
    have htake : (rest.reverse.takeWhile Char.isDigit).length ≠ rest.reverse.length := by
      intro hlen
      have hself := (List.takeWhile_prefix (l := rest.reverse) Char.isDigit).eq_of_length hlen
      rw [List.takeWhile_eq_self_iff] at hself
      exact hall fun d hmem => hself d (List.mem_reverse.mpr hmem)
    have hempty : (rest.reverse.dropWhile Char.isDigit).isEmpty = false :=
      List.isEmpty_eq_false_iff.mpr hdrop
    rw [if_neg htake, hempty, if_neg Bool.false_ne_true, List.reverse_append, List.getLast?_append]
    cases hr : (rest.reverse.dropWhile Char.isDigit).reverse.getLast? with
    | none =>
        rw [List.getLast?_eq_none_iff, List.reverse_eq_nil_iff] at hr
        exact absurd hr hdrop
    | some d => simp

/-- A text that does not end in a digit ends in no number. -/
theorem lastNumber_of_last (h : text.getLast?.any isIdentChar = false) : lastNumber text = [] := by
  cases text using List.reverseRecOn with
  | nil => rfl
  | append_singleton text e _ =>
      rw [List.getLast?_concat, Option.any_some] at h
      have he : ¬ e.isDigit = true := by
        intro he
        rw [isIdentChar_of_isDigit he] at h
        exact absurd h (by decide)
      rw [lastNumber, List.rtakeWhile_concat_neg _ _ _ he, ite_self]

/-- A text of digits is a number. -/
theorem lastNumber_digits (h : ∀ d ∈ text, d.isDigit = true) : lastNumber text = text := by
  rw [lastNumber, List.rdropWhile_eq_nil_iff.mpr h, List.rtakeWhile_eq_self_iff.mpr h]
  rfl

/-- The digits at the end of a name belong to it. -/
theorem lastNumber_word {c : Char} (hc : c.isDigit = false)
    (h : ∀ d ∈ c :: rest, isIdentChar d = true) : lastNumber (c :: rest) = [] := by
  have hne : (c :: rest).rdropWhile Char.isDigit ≠ [] := by
    rw [Ne, List.rdropWhile_eq_nil_iff]
    intro hall
    rw [hall c List.mem_cons_self] at hc
    exact absurd hc (by decide)
  rw [lastNumber, List.getLast?_eq_some_getLast hne, Option.any_some, if_pos]
  exact h _ ((List.rdropWhile_prefix _ _).subset (List.getLast_mem hne))

end LastNumber

/-! ### One turn

For each kind of turn, what it is with one more character behind.
-/

/-- What a turn adds to `n` tokens. -/
def Turn.pushes (uninit : Nat → Token) (n : Nat) : Turn → List (TokenType × String)
  | .done | .stop _ | .blank _ | .newline _ => []
  | .token ty value _ => [(ty, value)]
  | .unset _ => [(uninit n).spelling]

/-- The turn of a text, and that of the text with one more character. -/
inductive TurnSnoc (x : Char) (text : List Char) : Turn → Turn → Prop
  | stop {c tn'} : TurnSnoc x text (.stop c) tn'
  /-- An operator that could go on. -/
  | pending {tn tn'} (h : tn.rest = some text) : TurnSnoc x text tn tn'
  /-- The last turn is a later one. -/
  | on {tn tn' rest} (hrest : tn.rest = some rest) (hrest' : tn'.rest = some (rest ++ [x]))
    (hne : rest ≠ [])
      (hsuf : rest <:+ text) (hunset : ∀ r, tn ≠ .unset r)
      (hpush : ∀ uninit n, tn'.pushes uninit n = tn.pushes uninit n)
      (hnum : lastNumber text = lastNumber rest) : TurnSnoc x text tn tn'
  /-- Behind the last turn starts another one. -/
  | fresh {tn tn'} (hrest : tn.rest = some []) (hrest' : tn'.rest = some [x])
    (hunset : ∀ r, tn ≠ .unset r)
      (hpush : ∀ uninit n, tn'.pushes uninit n = tn.pushes uninit n)
      (hnum : lastNumber text = [] ∨ x.isDigit = false) : TurnSnoc x text tn tn'
  | number (hx : x.isDigit = true) (hnum : lastNumber text = text) (hne : text ≠ []) :
      TurnSnoc x text (.token .num (numText text) []) (.token .num (numText (text ++ [x])) [])
  | word {ty ty' value value'} (hx : isIdentChar x = true) (hnum : lastNumber text = [])
    (hne : value ≠ value') :
      TurnSnoc x text (.token ty value []) (.token ty' value' [])
  | comment (hc : endsInComment text = true) :
      TurnSnoc x text (.unset []) (if x = '\n' then .newline [] else .unset [])

section Snoc

variable {x c : Char} {text rest w : List Char}

/-- A turn that ends in the same place whatever follows, and in no word. -/
theorem turnSnoc_fixed {f : List Char → Turn} (hrest : ∀ r, (f r).rest = some r)
    (hunset : ∀ r r', f r ≠ .unset r')
    (hpush : ∀ r r' uninit n, (f r).pushes uninit n = (f r').pushes uninit n)
    (hw : w.getLast?.any isIdentChar = false) :
    TurnSnoc x (w ++ rest) (f rest) (f (rest ++ [x])) := by
  by_cases hne : rest = []
  · rw [hne]
    refine TurnSnoc.fresh (hrest []) (hrest [x]) (hunset []) (hpush [x] []) (Or.inl ?_)
    rw [List.append_nil]
    exact lastNumber_of_last hw
  · refine TurnSnoc.on (hrest rest) (hrest _) hne (List.suffix_append _ _) (hunset rest)
      (hpush _ rest) (lastNumber_append hne ?_)
    intro h
    rw [hw] at h
    exact absurd h (by decide)

theorem turnSnoc_newline (hw : w.getLast?.any isIdentChar = false) :
    TurnSnoc x (w ++ rest) (.newline rest) (.newline (rest ++ [x])) :=
  turnSnoc_fixed (f := .newline) (fun _ => rfl) (fun _ _ => by simp) (fun _ _ _ _ => rfl) hw

theorem turnSnoc_blank (hw : w.getLast?.any isIdentChar = false) :
    TurnSnoc x (w ++ rest) (.blank rest) (.blank (rest ++ [x])) :=
  turnSnoc_fixed (f := .blank) (fun _ => rfl) (fun _ _ => by simp) (fun _ _ _ _ => rfl) hw

theorem turnSnoc_token {ty : TokenType} {value : String} (hw : w.getLast?.any isIdentChar = false) :
    TurnSnoc x (w ++ rest) (.token ty value rest) (.token ty value (rest ++ [x])) :=
  turnSnoc_fixed (f := .token ty value) (fun _ => rfl) (fun _ _ => by simp) (fun _ _ _ _ => rfl) hw

/-- An operator that what follows does not complete. -/
theorem turnSnoc_unread {ty : TokenType} {value : String} {tn' : Turn} (hc : isIdentChar c = false)
    (h : rest ≠ [] → tn' = .token ty value (unread c (rest ++ [x]))) :
    TurnSnoc x (c :: rest) (.token ty value (unread c rest)) tn' := by
  by_cases hne : rest = []
  · rw [hne]
    exact TurnSnoc.pending rfl
  · rw [h hne, unread, unread, if_neg hne, if_neg (by simp)]
    exact turnSnoc_token (w := [c]) (by simpa using hc)

theorem head?_snoc (hne : rest ≠ []) : (rest ++ [x]).head? = rest.head? := by
  obtain ⟨d, rest, rfl⟩ := List.exists_cons_of_ne_nil hne
  rfl

theorem turnSnoc_two {second : Char} {ty2 ty1 : TokenType} {text2 text1 : String}
    (hc : isIdentChar c = false) (hsecond : isIdentChar second = false) :
    TurnSnoc x (c :: rest) (turnTwo c rest second ty2 text2 ty1 text1)
      (turnTwo c (rest ++ [x]) second ty2 text2 ty1 text1) := by
  by_cases h2 : rest.head? = some second
  · obtain ⟨rest, rfl⟩ := List.head?_eq_some_iff.mp h2
    rw [turnTwo, turnTwo, head?_snoc (by simp), if_pos h2, if_pos h2]
    exact turnSnoc_token (w := [c, second]) (by simpa using hsecond)
  · rw [turnTwo, if_neg h2]
    refine turnSnoc_unread hc fun hne => ?_
    rw [turnTwo, head?_snoc hne, if_neg h2]

theorem turnSnoc_three {tyTwice tyEq ty1 : TokenType} {textTwice textEq text1 : String}
    (hc : isIdentChar c = false) :
    TurnSnoc x (c :: rest) (turnThree c rest tyTwice textTwice tyEq textEq ty1 text1)
      (turnThree c (rest ++ [x]) tyTwice textTwice tyEq textEq ty1 text1) := by
  by_cases h2 : rest.head? = some c
  · obtain ⟨rest, rfl⟩ := List.head?_eq_some_iff.mp h2
    rw [turnThree, turnThree, head?_snoc (by simp), if_pos h2, if_pos h2]
    exact turnSnoc_token (w := [c, c]) (by simpa using hc)
  by_cases h3 : rest.head? = some '='
  · obtain ⟨rest, rfl⟩ := List.head?_eq_some_iff.mp h3
    rw [turnThree, turnThree, head?_snoc (by simp), if_neg h2, if_neg h2, if_pos h3, if_pos h3]
    exact turnSnoc_token (w := [c, '=']) rfl
  · rw [turnThree, if_neg h2, if_neg h3]
    refine turnSnoc_unread hc fun hne => ?_
    rw [turnThree, head?_snoc hne, if_neg h2, if_neg h3]

/-- A comment ends with its line. -/
theorem turnSnoc_comment (hnul : nul ∉ rest) (hx : x ≠ nul) :
    TurnSnoc x ('/' :: '/' :: rest) (turnComment rest) (turnComment (rest ++ [x])) := by
  have hsplit := List.takeWhile_append_dropWhile (p := inComment) (l := rest)
  cases hl : rest.dropWhile inComment with
  | nil =>
      have hend : endsInComment ('/' :: '/' :: rest) = true := by
        have h : endsInComment ('/' :: '/' :: rest) = endsIn LexMode.isComment .comment rest := rfl
        rw [h, endsIn_comment, hl]
        rfl
      have hturn : turnComment (rest ++ [x]) = if x = '\n' then .newline [] else .unset [] := by
        rw [turnComment, List.dropWhile_append, hl, List.isEmpty_nil, if_pos rfl]
        by_cases hnl : x = '\n'
        · rw [if_pos hnl, hnl]
          rfl
        · rw [if_neg hnl, List.dropWhile_cons_of_pos (by simp [inComment, hx, hnl])]
          rfl
      rw [turnComment, hl, hturn]
      exact TurnSnoc.comment hend
  | cons d rest' =>
      have hd : d ≠ nul := by
        rintro rfl
        exact hnul ((List.dropWhile_suffix inComment).subset (hl ▸ List.mem_cons_self))
      have hnl : d = '\n' := by
        have hstop := List.head?_dropWhile_not inComment rest
        rw [hl] at hstop
        simpa [inComment, hd] using hstop
      have hw : ('/' :: '/' :: (rest.takeWhile inComment ++ [d])).getLast?.any isIdentChar
          = false := by
        rw [← List.cons_append, ← List.cons_append, List.getLast?_concat, hnl]
        rfl
      have htext : '/' :: '/' :: rest = '/' :: '/' :: (rest.takeWhile inComment ++ [d])
          ++ rest' := by
        rw [hl] at hsplit
        simp [hsplit]
      have hturn : turnComment (rest ++ [x]) = .newline (rest' ++ [x]) := by
        rw [turnComment, List.dropWhile_append, hl, List.isEmpty_cons, if_neg Bool.false_ne_true]
        exact if_neg hd
      rw [htext, hturn, turnComment, hl]
      dsimp only
      rw [if_neg hd]
      exact turnSnoc_newline hw

/-- What is left behind a word, and whether one more character belongs to it. -/
theorem takeWhile_snoc (p : Char → Bool) (rest : List Char) (x : Char) :
    (∃ d rest', rest.dropWhile p = d :: rest' ∧ p d = false ∧
      (rest ++ [x]).takeWhile p = rest.takeWhile p ∧ (rest ++ [x]).dropWhile p = d :: rest'
        ++ [x]) ∨
    ((∀ d ∈ rest, p d = true) ∧ rest.takeWhile p = rest ∧ rest.dropWhile p = [] ∧
      (p x = true ∧ (rest ++ [x]).takeWhile p = rest ++ [x] ∧ (rest ++ [x]).dropWhile p = [] ∨
        p x = false ∧ (rest ++ [x]).takeWhile p = rest ∧ (rest ++ [x]).dropWhile p = [x])) := by
  induction rest with
  | nil =>
      by_cases hx : p x = true
      · simp [hx]
      · simp [hx]
  | cons c rest ih =>
      by_cases hc : p c = true
      · rw [List.cons_append, List.takeWhile_cons_of_pos hc, List.dropWhile_cons_of_pos hc,
          List.takeWhile_cons_of_pos hc, List.dropWhile_cons_of_pos hc, List.forall_mem_cons]
        simpa [hc] using ih
      · left
        rw [List.cons_append, List.takeWhile_cons_of_neg hc, List.dropWhile_cons_of_neg hc,
          List.takeWhile_cons_of_neg hc, List.dropWhile_cons_of_neg hc]
        exact ⟨c, rest, rfl, Bool.eq_false_of_not_eq_true hc, rfl, rfl⟩

/-- A word that ends before the text does. -/
theorem turnSnoc_on_word {p : Char → Bool} {ty : TokenType} {value : String} {d : Char}
    {rest' : List Char} (hp : ∀ e, e.isDigit = true → p e = true)
    (hdrop : rest.dropWhile p = d :: rest') (hd : p d = false) :
    TurnSnoc x (c :: rest) (.token ty value (d :: rest'))
      (.token ty value (d :: rest' ++ [x])) := by
  have hsuf : d :: rest' <:+ c :: rest := by
    rw [← hdrop]
    exact (List.dropWhile_suffix p).trans (List.suffix_cons c rest)
  refine TurnSnoc.on rfl rfl (List.cons_ne_nil _ _) hsuf (fun _ => by simp) (fun _ _ => rfl) ?_
  have hsplit := List.takeWhile_append_dropWhile (p := p) (l := rest)
  rw [← hsplit, hdrop, ← List.cons_append]
  refine lastNumber_append (List.cons_ne_nil _ _) fun _ => ?_
  rw [List.head?_cons, Option.any_some]
  by_contra h
  rw [hp d (Bool.eq_true_of_not_eq_false h)] at hd
  exact absurd hd (by decide)

/-- A number goes on with a digit, and ends before anything else. -/
theorem turnSnoc_number (hd : c.isDigit = true) (hnul : nul ∉ rest) (hx : x ≠ nul) :
    TurnSnoc x (c :: rest) (turn (c :: rest)) (turn (c :: rest ++ [x])) := by
  have hnul' : nul ∉ rest ++ [x] := by
    rw [List.mem_append, List.mem_singleton]
    rintro (h | h)
    · exact hnul h
    · exact hx h.symm
  rw [List.cons_append, turn_digit hd, turn_digit hd,
    dropNul_of_not_mem fun h => hnul ((List.dropWhile_suffix _).subset h),
    dropNul_of_not_mem fun h => hnul' ((List.dropWhile_suffix _).subset h)]
  rcases takeWhile_snoc Char.isDigit rest x with ⟨d, rest', hdrop, hd', htake', hdrop'⟩ |
      ⟨hall, htake, hdrop, ⟨hx, htake', hdrop'⟩ | ⟨hx, htake', hdrop'⟩⟩
  · rw [htake', hdrop', hdrop]
    exact turnSnoc_on_word (fun _ h => h) hdrop hd'
  · rw [htake', hdrop', htake, hdrop]
    exact TurnSnoc.number hx (lastNumber_digits (List.forall_mem_cons.mpr ⟨hd, hall⟩))
      (List.cons_ne_nil _ _)
  · rw [htake', hdrop', htake, hdrop]
    exact TurnSnoc.fresh rfl rfl (fun _ => by simp) (fun _ _ => rfl) (Or.inr hx)

theorem turn_word (hd : c.isDigit = false) (hi : isIdentStart c = true) :
    turn (c :: rest) = .token (wordType (String.ofList (c :: rest.takeWhile isIdentChar)))
      (String.ofList (c :: rest.takeWhile isIdentChar)) (dropNul (rest.dropWhile isIdentChar)) := by
  have hc : c ≠ nul := by
    rintro rfl
    exact absurd hi (by decide)
  rw [turn, if_neg hc]
  have hturn := charTurn c
  generalize turnChar c = f at hturn ⊢
  cases hturn with
  | other h => exact (if_neg (by rw [hd]; decide)).trans (if_pos hi)
  | _ => exact absurd hi (by decide)

/-- A word goes on with a letter or a digit, and ends before anything else. -/
theorem turnSnoc_word (hd : c.isDigit = false) (hi : isIdentStart c = true) (hnul : nul ∉ rest)
    (hx : x ≠ nul) : TurnSnoc x (c :: rest) (turn (c :: rest)) (turn (c :: rest ++ [x])) := by
  have hnul' : nul ∉ rest ++ [x] := by
    rw [List.mem_append, List.mem_singleton]
    rintro (h | h)
    · exact hnul h
    · exact hx h.symm
  have hc : isIdentChar c = true := by
    simp only [isIdentStart, Bool.or_eq_true] at hi
    rcases hi with (h | h) | h <;> simp [isIdentChar, h]
  rw [List.cons_append, turn_word hd hi, turn_word hd hi,
    dropNul_of_not_mem fun h => hnul ((List.dropWhile_suffix _).subset h),
    dropNul_of_not_mem fun h => hnul' ((List.dropWhile_suffix _).subset h)]
  rcases takeWhile_snoc isIdentChar rest x with ⟨d, rest', hdrop, hd', htake', hdrop'⟩ |
      ⟨hall, htake, hdrop, ⟨hx, htake', hdrop'⟩ | ⟨hx, htake', hdrop'⟩⟩
  · rw [htake', hdrop', hdrop]
    exact turnSnoc_on_word (fun _ h => isIdentChar_of_isDigit h) hdrop hd'
  · rw [htake', hdrop', htake, hdrop]
    refine TurnSnoc.word hx (lastNumber_word hd (List.forall_mem_cons.mpr ⟨hc, hall⟩)) fun h => ?_
    have hlen := congrArg List.length (String.ofList_injective h)
    simp at hlen
  · rw [htake', hdrop', htake, hdrop]
    refine TurnSnoc.fresh rfl rfl (fun _ => by simp) (fun _ _ => rfl) (Or.inr ?_)
    by_contra h
    rw [isIdentChar_of_isDigit (Bool.eq_true_of_not_eq_false h)] at hx
    exact absurd hx (by decide)

/-- **Only the last turn sees one more character.** -/
theorem turn_snoc (hne : text ≠ []) (hnul : nul ∉ text) (hx : x ≠ nul) :
    TurnSnoc x text (turn text) (turn (text ++ [x])) := by
  obtain ⟨c, rest, rfl⟩ := List.exists_cons_of_ne_nil hne
  have hc : c ≠ nul := fun h => hnul (h ▸ List.mem_cons_self)
  have hnul' : nul ∉ rest := fun h => hnul (List.mem_cons_of_mem _ h)
  by_cases hd : c.isDigit = true
  · exact turnSnoc_number hd hnul' hx
  have hd := Bool.eq_false_of_not_eq_true hd
  by_cases hi : isIdentStart c = true
  · exact turnSnoc_word hd hi hnul' hx
  rw [List.cons_append, turn, turn, if_neg hc, if_neg hc]
  have hturn := charTurn c
  generalize turnChar c = f at hturn ⊢
  cases hturn with
  | slash =>
    beta_reduce
    by_cases h2 : rest.head? = some '/'
    · obtain ⟨rest, rfl⟩ := List.head?_eq_some_iff.mp h2
      rw [head?_snoc (by simp), if_pos h2]
      exact turnSnoc_comment (fun h => hnul' (List.mem_cons_of_mem _ h)) hx
    · rw [if_neg h2]
      refine turnSnoc_unread rfl fun hne => ?_
      rw [head?_snoc hne, if_neg h2]
  | newline => exact turnSnoc_newline (w := [_]) rfl
  | tab | space => exact turnSnoc_blank (w := [_]) rfl
  | and | or | assign | not => exact turnSnoc_two rfl rfl
  | lt | gt => exact turnSnoc_three rfl
  | add | sub | mult | semicolon | lparen | rparen | lbrace | rbrace | xor | comma =>
    exact turnSnoc_token (w := [_]) rfl
  | other h =>
    beta_reduce
    rw [if_neg (by rw [hd]; decide), if_neg hi]
    exact TurnSnoc.stop

end Snoc

end MyLang
