/-
One turn of the lexer as a function of the text that is left.

The lexer moves a cursor forwards and backwards over its input.  `View` says what is left
behind the cursor; putting a character back that was read leads to the view before.  At
the end of the input nothing is read, and `back` still takes one character back: that is
where the text left behind an operator is not what follows it but the operator itself.

`turn` says all of this without a cursor: by the characters in front it gives what the
turn does and what is left.  `tokenizeStep_stepped` is the only theorem about the code of
the loop; what `Proofs/Munch.lean`, `Proofs/Newline.lean`, `Proofs/Positions.lean` and
`Proofs/LexEnds.lean` prove is about `turn`.

A `NUL` in the text ends words, comments and the loop, since the C code takes it for the
end of the input; one that ends a word is passed over.  In the theorems about whole inputs
there is none.
-/
import MyLang.Lex

namespace MyLang

/-! ### What is left

`remaining` counts the characters between the cursor and the end, so that reading one is a
step along the text.
-/

/-- The lexer reads `text`, and `rest` is what is left of it. -/
structure View (text : List Char) (lexer : Lexer) (rest : List Char) : Prop where
  input : lexer.input.take text.length = text
  length : lexer.length.toNat = text.length
  curr : ∃ before, text = before ++ rest ∧ lexer.curr = before.length

/-- The lexer with the cursor one character further. -/
def Lexer.forward (lexer : Lexer) : Lexer := { lexer with curr := lexer.curr + 1 }

@[simp] theorem back_forward (lexer : Lexer) : back lexer.forward = lexer := by
  simp [back, Lexer.forward]

namespace View

variable {text rest : List Char} {lexer : Lexer} {c : Char}

theorem next_nil (h : View text lexer []) : next lexer = (nul, lexer) := by
  obtain ⟨before, rfl, hcurr⟩ := h.curr
  have hlen := h.length
  rw [List.append_nil] at hlen
  rw [next, if_pos (by omega)]

theorem next_cons (h : View text lexer (c :: rest)) : next lexer = (c, lexer.forward) := by
  obtain ⟨before, rfl, hcurr⟩ := h.curr
  have hlen := h.length
  rw [List.length_append, List.length_cons] at hlen
  have hget : lexer.input[before.length]? = some c := by
    have := congrArg (·[before.length]?) h.input
    simpa [List.getElem?_take] using this
  rw [next, if_neg (by omega), hcurr, Int.toNat_natCast, List.getD_eq_getElem?_getD, hget, ← hcurr]
  rfl

theorem forward (h : View text lexer (c :: rest)) : View text lexer.forward rest := by
  obtain ⟨before, heq, hcurr⟩ := h.curr
  refine ⟨h.input, h.length, before ++ [c], by simp [heq], ?_⟩
  rw [Lexer.forward, hcurr, List.length_append, List.length_singleton]
  rfl

theorem remaining (h : View text lexer rest) : lexer.remaining = rest.length := by
  obtain ⟨before, rfl, hcurr⟩ := h.curr
  have hlen := h.length
  rw [List.length_append] at hlen
  rw [Lexer.remaining]
  omega

end View

/-- The lexer starts with the whole text in view, as far as its length has been kept. -/
theorem View.initial (input : List Char) :
    View (input.take (LexState.initial input).lexer.length.toNat) (LexState.initial input).lexer
      (input.take (LexState.initial input).lexer.length.toNat) := by
  have hle : (LexState.initial input).lexer.length.toNat ≤ input.length := by
    simp only [LexState.initial, BitVec.toInt_eq_toNat_cond, BitVec.toNat_ofNat]
    split <;> omega
  refine ⟨?_, ?_, [], rfl, rfl⟩
  · rw [List.length_take, Nat.min_eq_left hle]
    rfl
  · rw [List.length_take, Nat.min_eq_left hle]

section While

variable {α : Type} {text rest : List Char} {lexer : Lexer} {c : Char} {p q : Char → Bool}

/-- What `whileChar` leaves: it took the characters in front with `p`, up to a terminator. -/
structure Took (text : List Char) (q : Char → Bool) (f : α → Char → α) (acc : α) (l : List Char)
    (res : α × Char × Lexer) : Prop where
  acc_eq : res.1 = (l.takeWhile q).foldl f acc
  char : res.2.1 = (l.dropWhile q).headD nul
  view : View text res.2.2 (l.dropWhile q).tail
  back : l.dropWhile q ≠ [] → View text (back res.2.2) (l.dropWhile q)

/-- The loop that takes characters takes those in front. -/
theorem whileChar_took (hq : ∀ x, q x = (decide (x ≠ nul) && p x)) (f : α → Char → α) {n : Nat}
    (acc : α) (h : View text lexer (c :: rest)) (hn : rest.length < n) :
    Took text q f acc (c :: rest) (whileChar p f n acc c lexer.forward) := by
  induction n generalizing rest lexer c acc with
  | zero => omega
  | succ n ih =>
      rw [whileChar, ← hq]
      by_cases hc : q c = true
      · rw [if_pos hc]
        cases rest with
        | nil =>
            rw [h.forward.next_nil]
            have hnul : q nul = false := by simp [hq]
            have hend : whileChar p f n (f acc c) nul lexer.forward
                = (f acc c, nul, lexer.forward) := by
              cases n with
              | zero => rfl
              | succ n => rw [whileChar, ← hq, if_neg (by simp [hnul])]
            have htake : [c].takeWhile q = [c] := List.takeWhile_cons_of_pos hc
            have hdrop : [c].dropWhile q = [] := List.dropWhile_cons_of_pos hc
            simp only [hend]
            exact ⟨by rw [htake]; rfl, by rw [hdrop]; rfl, by rw [hdrop]; exact h.forward,
              fun hne => absurd hdrop hne⟩
        | cons d rest =>
            rw [h.forward.next_cons]
            have hd := ih (f acc c) h.forward (by simpa using hn)
            exact ⟨by rw [hd.acc_eq, List.takeWhile_cons_of_pos hc, List.foldl_cons],
              by rw [hd.char, List.dropWhile_cons_of_pos hc],
              by rw [List.dropWhile_cons_of_pos hc]; exact hd.view,
              by rw [List.dropWhile_cons_of_pos hc]; exact hd.back⟩
      · rw [if_neg hc]
        have hdrop : (c :: rest).dropWhile q = c :: rest := List.dropWhile_cons_of_neg hc
        exact ⟨by rw [List.takeWhile_cons_of_neg hc]; rfl, by rw [hdrop]; rfl,
          by rw [hdrop]; exact h.forward, fun _ => by rw [hdrop, back_forward]; exact h⟩

/-- A text behind a terminator that is in front of it. -/
def dropNul : List Char → List Char
  | c :: rest => if c = nul then rest else c :: rest
  | [] => []

/-- What is left behind a word: a terminator that ends it is gone. -/
theorem Took.putBack {f : α → Char → α} {acc : α} {l : List Char} {res : α × Char × Lexer}
    (h : Took text q f acc l res) : View text (putBack res.2.1 res.2.2)
      (dropNul (l.dropWhile q)) := by
  have hchar := h.char
  have hview := h.view
  have hback := h.back
  cases hl : l.dropWhile q with
  | nil =>
      rw [hl] at hchar hview
      rw [MyLang.putBack, hchar, if_neg (by simp)]
      exact hview
  | cons d rest =>
      rw [hl] at hchar hview hback
      rw [MyLang.putBack, dropNul, hchar, List.headD_cons]
      by_cases hd : d = nul
      · rw [if_neg (by simp [hd]), if_pos hd]
        exact hview
      · rw [if_pos (by simp [hd]), if_neg hd]
        exact hback (by simp)

end While

/-! ### One turn

The cases are those of the `switch`, with a function for each kind of them.
-/

/-- What a turn of the loop does, by what is left in front of it. -/
inductive Turn where
  | done
  | stop (c : Char)
  | blank (rest : List Char)
  | newline (rest : List Char)
  | token (ty : TokenType) (value : String) (rest : List Char)
  /-- A comment that is not ended by a newline. -/
  | unset (rest : List Char)

/-- What is left behind an operator `c` of one character: at the end of the input, `c` again. -/
def unread (c : Char) (rest : List Char) : List Char := if rest = [] then [c] else rest

/-- What does not end a comment. -/
def inComment (c : Char) : Bool := c ≠ nul && c ≠ '\n'

/-- A comment and what ends it. -/
def turnComment (rest : List Char) : Turn :=
  match rest.dropWhile inComment with
  | [] => .unset []
  | c :: rest => if c = nul then .unset rest else .newline rest

/-- An operator of one character, or of two with the right second one. -/
def turnTwo (c : Char) (rest : List Char) (second : Char) (ty2 : TokenType) (text2 : String)
    (ty1 : TokenType) (text1 : String) : Turn :=
  if rest.head? = some second then .token ty2 text2 rest.tail else .token ty1 text1 (unread c rest)

/-- An operator of one character, or of two of them, or of it and `=`. -/
def turnThree (c : Char) (rest : List Char) (tyTwice : TokenType) (textTwice : String)
    (tyEq : TokenType) (textEq : String) (ty1 : TokenType) (text1 : String) : Turn :=
  if rest.head? = some c then .token tyTwice textTwice rest.tail
  else if rest.head? = some '=' then .token tyEq textEq rest.tail
  else .token ty1 text1 (unread c rest)

/-- A number as `tokenize_digit` computes it. -/
def numWord (w : List Char) : BitVec 32 :=
  w.foldl (fun n c => n * 10 + BitVec.ofNat 32 (c.toNat - '0'.toNat)) 0

/-- The turn that starts with `c`, if `rest` is left behind it. -/
def turnChar (c : Char) (rest : List Char) : Turn :=
  match c with
  | '+' => .token .add "+" rest
  | '-' => .token .sub "-" rest
  | '*' => .token .mult "*" rest
  | '/' => if rest.head? = some '/' then turnComment rest.tail else .token .div "/" (unread c rest)
  | ';' => .token .semicolon ";" rest
  | '(' => .token .lparen "(" rest
  | ')' => .token .rparen ")" rest
  | '\x7b' => .token .lbrace "\x7b" rest
  | '\x7d' => .token .rbrace "\x7d" rest
  | '^' => .token .xor "^" rest
  | '&' => turnTwo c rest '&' .logAnd "&&" .and "&"
  | '|' => turnTwo c rest '|' .logOr "||" .or "|"
  | '=' => turnTwo c rest '=' .equal "==" .assign "="
  | '!' => turnTwo c rest '=' .notEqual "!=" .not "!"
  | '<' => turnThree c rest .lshift "<<" .ltEq "<=" .lt "<"
  | '>' => turnThree c rest .rshift ">>" .gtEq ">=" .gt ">"
  | ',' => .token .comma "," rest
  | '\n' => .newline rest
  | '\t' => .blank rest
  | ' ' => .blank rest
  | c =>
      if c.isDigit then
        let w := c :: rest.takeWhile Char.isDigit
        .token .num (intToStr (numWord w) (w.length + 1)) (dropNul (rest.dropWhile Char.isDigit))
      else if isIdentStart c then
        let w := String.ofList (c :: rest.takeWhile isIdentChar)
        .token (wordType w) w (dropNul (rest.dropWhile isIdentChar))
      else
        .stop c

/-- The turn of a text. -/
def turn : List Char → Turn
  | [] => .done
  | c :: rest => if c = nul then .done else turnChar c rest

/-- The characters with a case of their own. -/
def specialChars : List Char :=
  ['+', '-', '*', '/', ';', '(', ')', '\x7b', '\x7d', '^', '&', '|', '=', '!', '<', '>', ',', '\n',
    '\t', ' ']

/-- The turns that start with a character, as functions of what is left behind it. -/
inductive CharTurn : Char → (List Char → Turn) → Prop
  | add : CharTurn '+' (.token .add "+")
  | sub : CharTurn '-' (.token .sub "-")
  | mult : CharTurn '*' (.token .mult "*")
  | slash : CharTurn '/' fun rest =>
      if rest.head? = some '/' then turnComment rest.tail else .token .div "/" (unread '/' rest)
  | semicolon : CharTurn ';' (.token .semicolon ";")
  | lparen : CharTurn '(' (.token .lparen "(")
  | rparen : CharTurn ')' (.token .rparen ")")
  | lbrace : CharTurn '\x7b' (.token .lbrace "\x7b")
  | rbrace : CharTurn '\x7d' (.token .rbrace "\x7d")
  | xor : CharTurn '^' (.token .xor "^")
  | and : CharTurn '&' fun rest => turnTwo '&' rest '&' .logAnd "&&" .and "&"
  | or : CharTurn '|' fun rest => turnTwo '|' rest '|' .logOr "||" .or "|"
  | assign : CharTurn '=' fun rest => turnTwo '=' rest '=' .equal "==" .assign "="
  | not : CharTurn '!' fun rest => turnTwo '!' rest '=' .notEqual "!=" .not "!"
  | lt : CharTurn '<' fun rest => turnThree '<' rest .lshift "<<" .ltEq "<=" .lt "<"
  | gt : CharTurn '>' fun rest => turnThree '>' rest .rshift ">>" .gtEq ">=" .gt ">"
  | comma : CharTurn ',' (.token .comma ",")
  | newline : CharTurn '\n' .newline
  | tab : CharTurn '\t' .blank
  | space : CharTurn ' ' .blank
  | other {c} (h : c ∉ specialChars) : CharTurn c fun rest =>
      if c.isDigit then
        .token .num (intToStr (numWord (c :: rest.takeWhile Char.isDigit))
          ((c :: rest.takeWhile Char.isDigit).length + 1)) (dropNul (rest.dropWhile Char.isDigit))
      else if isIdentStart c then
        .token (wordType (String.ofList (c :: rest.takeWhile isIdentChar)))
          (String.ofList (c :: rest.takeWhile isIdentChar)) (dropNul (rest.dropWhile isIdentChar))
      else
        .stop c

/-- The turns are those of the list of special characters, or of a word or number. -/
theorem charTurn (c : Char) : CharTurn c (turnChar c) := by
  by_cases h : c ∈ specialChars
  · simp only [specialChars, List.mem_cons, List.not_mem_nil, or_false] at h
    rcases h
      with rfl | rfl | rfl | rfl | rfl | rfl | rfl | rfl | rfl | rfl | rfl | rfl | rfl | rfl | rfl |
        rfl |
      rfl | rfl | rfl | rfl
    exacts [.add, .sub, .mult, .slash, .semicolon, .lparen, .rparen, .lbrace, .rbrace, .xor, .and,
      .or, .assign, .not, .lt, .gt, .comma, .newline, .tab, .space]
  · convert CharTurn.other h using 1
    funext rest
    unfold turnChar
    split
    case h_21 => rfl
    all_goals exact absurd (by decide) h

/-- The next step of `tokenize` in terms of a turn. -/
inductive Stepped (uninit : Nat → Token) (text : List Char) (s : LexState) :
    Turn → Except LexError (Option LexState) → Prop
  | done : Stepped uninit text s .done (.ok none)
  | stop {c} : Stepped uninit text s (.stop c) (.error (.unexpectedChar c))
  | blank {lexer rest} (hv : View text lexer rest) :
      Stepped uninit text s (.blank rest) (.ok (some { s with lexer, pos := s.pos + 1 }))
  | newline {lexer rest} (hv : View text lexer rest) :
      Stepped uninit text s (.newline rest)
        (.ok (some { s with lexer, pos := 1 + 1, line := s.line + 1 }))
  | token {lexer ty value rest} (hv : View text lexer rest) :
      Stepped uninit text s (.token ty value rest) (.ok (some { s with
        lexer
        vector := s.vector ++ [{ type := ty, value, pos := s.pos, line := s.line }]
        pos := s.pos + 1 }))
  | unset {lexer rest} (hv : View text lexer rest) :
      Stepped uninit text s (.unset rest) (.ok (some { s with
        lexer
        vector := s.vector ++ [{ uninit s.vector.length with pos := 1, line := s.line + 1 }]
        pos := 1 + 1
        line := s.line + 1 }))

/-- The end of `tokenizeStep`, behind the `switch`. -/
def finishStep (r : Char × Token × LexState) : Option LexState :=
  let (c, t, s) := r
  let t := { t with pos := s.pos, line := s.line }
  let s := { s with pos := s.pos + 1 }
  if c ≠ ' ' && c ≠ '\n' && c ≠ '\t' then some { s with vector := s.vector ++ [t] } else some s

section Step

variable {uninit : Nat → Token} {text rest : List Char} {s : LexState} {c : Char} {t : Token}

/-- The state in which the `switch` looks at a character. -/
def LexState.read (s : LexState) : LexState := { s with lexer := s.lexer.forward }

theorem tokenizeStep_cons (hv : View text s.lexer (c :: rest)) (hc : c ≠ nul) :
    tokenizeStep uninit s = (switchChar c (uninit s.vector.length) s.read).map finishStep := by
  rw [tokenizeStep, hv.next_cons]
  simp only [if_neg hc, LexState.read]
  cases switchChar c (uninit s.vector.length) { s with lexer := s.lexer.forward } with
  | error e => rfl
  | ok r =>
      obtain ⟨c', t, s'⟩ := r
      simp only [bind, Except.bind, Except.map, finishStep]
      split <;> rfl

/-- What looking one character ahead gives. -/
structure Peek (text : List Char) (c : Char) (rest : List Char) (peek : Char) (lexer : Lexer) :
    Prop where
  eq : ∀ d, d ≠ nul → (peek = d ↔ rest.head? = some d)
  taken : ∀ d, rest.head? = some d → View text lexer rest.tail
  back : View text (back lexer) (unread c rest)

/-- A character is read and put back. -/
theorem View.peek {lexer : Lexer} (hv : View text lexer (c :: rest)) :
    Peek text c rest (next lexer.forward).1 (next lexer.forward).2 := by
  cases rest with
  | nil =>
      rw [hv.forward.next_nil]
      refine ⟨fun d hd => ?_, fun d hd => ?_, ?_⟩
      · simpa using hd.symm
      · simp at hd
      · rw [back_forward]
        exact hv
  | cons e rest =>
      rw [hv.forward.next_cons]
      refine ⟨fun d hd => ?_, fun d hd => hv.forward.forward, ?_⟩
      · simp
      · rw [back_forward]
        exact hv.forward

/-- A character that starts a token is none of those that separate tokens. -/
def NoBlank (c : Char) : Prop := (decide (c ≠ ' ') && decide (c ≠ '\n') && decide (c ≠ '\t')) = true

theorem finishStep_token (hc : NoBlank c) (s : LexState) :
    finishStep (c, t, s) =
      some { s with vector := s.vector ++ [{ t with pos := s.pos, line := s.line }], pos := s.pos
        + 1 } := by
  rw [finishStep]
  exact if_pos hc

theorem oneChar_stepped (hv : View text s.lexer (c :: rest)) (hc : NoBlank c) (ty : TokenType)
    (value : String) :
    Stepped uninit text s (.token ty value rest)
      ((oneChar c t s.read ty value).map finishStep) := by
  rw [oneChar, Except.map, finishStep_token hc]
  exact Stepped.token hv.forward

/-- A case that looks ahead for one character. -/
theorem twoChars_stepped (hv : View text s.lexer (c :: rest)) (hc : NoBlank c) {second : Char}
    (hsecond : second ≠ nul) (ty2 : TokenType) (text2 : String) (ty1 : TokenType) (text1 : String) :
    Stepped uninit text s (turnTwo c rest second ty2 text2 ty1 text1)
      ((twoChars c t s.read second ty2 text2 ty1 text1).map finishStep) := by
  have hpeek := hv.peek
  rw [twoChars, turnTwo, LexState.read]
  generalize next s.lexer.forward = ahead at hpeek ⊢
  obtain ⟨peek, lexer⟩ := ahead
  by_cases h2 : rest.head? = some second
  · rw [if_pos h2]
    dsimp only
    rw [if_pos ((hpeek.eq second hsecond).mpr h2), Except.map, finishStep_token hc]
    exact Stepped.token (hpeek.taken second h2)
  · rw [if_neg h2]
    dsimp only
    rw [if_neg (fun h => h2 ((hpeek.eq second hsecond).mp h)), Except.map, finishStep_token hc]
    exact Stepped.token hpeek.back

/-- A case that looks ahead for the same character or for `=`. -/
theorem twiceOrEq_stepped (hv : View text s.lexer (c :: rest)) (hc : NoBlank c) (hnul : c ≠ nul)
    (tyTwice : TokenType) (textTwice : String) (tyEq : TokenType) (textEq : String)
    (ty1 : TokenType) (text1 : String) :
    Stepped uninit text s (turnThree c rest tyTwice textTwice tyEq textEq ty1 text1)
      ((twiceOrEq c t s.read tyTwice textTwice tyEq textEq ty1 text1).map finishStep) := by
  have hpeek := hv.peek
  rw [twiceOrEq, turnThree, LexState.read]
  generalize next s.lexer.forward = ahead at hpeek ⊢
  obtain ⟨peek, lexer⟩ := ahead
  by_cases h2 : rest.head? = some c
  · rw [if_pos h2]
    dsimp only
    rw [if_pos ((hpeek.eq c hnul).mpr h2), Except.map, finishStep_token hc]
    exact Stepped.token (hpeek.taken c h2)
  · rw [if_neg h2]
    dsimp only
    rw [if_neg (fun h => h2 ((hpeek.eq c hnul).mp h))]
    by_cases h3 : rest.head? = some '='
    · rw [if_pos h3, if_pos ((hpeek.eq '=' (by decide)).mpr h3), Except.map, finishStep_token hc]
      exact Stepped.token (hpeek.taken '=' h3)
    · rw [if_neg h3, if_neg (fun h => h3 ((hpeek.eq '=' (by decide)).mp h)), Except.map,
        finishStep_token hc]
      exact Stepped.token hpeek.back

theorem foldl_numWord (w : List Char) (n : BitVec 32) (size : Nat) :
    w.foldl (fun acc c => (acc.1 * 10 + BitVec.ofNat 32 (c.toNat - '0'.toNat), acc.2 + 1))
      (n, size) =
      (w.foldl (fun n c => n * 10 + BitVec.ofNat 32 (c.toNat - '0'.toNat)) n, size + w.length) := by
  induction w generalizing n size with
  | nil => rfl
  | cons c w ih =>
      rw [List.foldl_cons, ih, List.foldl_cons, List.length_cons]
      congr 1
      omega

theorem foldl_append_singleton (w v : List Char) : w.foldl (fun v c => v ++ [c]) v = v ++ w := by
  induction w generalizing v with
  | nil => simp
  | cons c w ih => simp [ih]

/-- A terminator belongs to no word. -/
theorem ne_nul_of {p : Char → Bool} (hp : p nul = false) (x : Char) :
    p x = (decide (x ≠ nul) && p x) := by
  by_cases hx : x = nul
  · simp [hx, hp]
  · simp [hx]

/-- What `tokenize_digit` leaves in view, and the token it makes. -/
theorem tokenizeDigit_view {lexer : Lexer} (hv : View text lexer (c :: rest))
    (hd : c.isDigit = true) : ∃ lexer', tokenizeDigit c t lexer.forward =
        ({ t with
            type := .num
            value := intToStr (numWord (c :: rest.takeWhile Char.isDigit))
              ((c :: rest.takeWhile Char.isDigit).length + 1) }, lexer') ∧
      View text lexer' (dropNul (rest.dropWhile Char.isDigit)) := by
  have hrem := hv.forward.remaining
  have htook := whileChar_took (n := lexer.forward.remaining + 1)
    (ne_nul_of (p := Char.isDigit) rfl)
    (fun acc c => (acc.1 * 10 + BitVec.ofNat 32 (c.toNat - '0'.toNat), acc.2 + 1))
      ((0 : BitVec 32), 1)
    hv (by omega)
  have hput := htook.putBack
  have hacc := htook.acc_eq
  rw [foldl_numWord, List.takeWhile_cons_of_pos hd] at hacc
  rw [List.dropWhile_cons_of_pos hd] at hput
  refine ⟨_, ?_, hput⟩
  rw [tokenizeDigit]
  generalize whileChar _ _ _ _ _ _ = res at hacc
  obtain ⟨⟨digit, size⟩, c', lexer'⟩ := res
  obtain ⟨rfl, rfl⟩ := Prod.mk.inj hacc
  rw [numWord, Nat.add_comm 1]

/-- What `tokenize_ident` leaves in view, and the token it makes. -/
theorem tokenizeIdent_view {lexer : Lexer} (hv : View text lexer (c :: rest))
    (hd : isIdentChar c = true) :
    ∃ lexer', tokenizeIdent c t lexer.forward =
        ({ t with
            type := wordType (String.ofList (c :: rest.takeWhile isIdentChar))
            value := String.ofList (c :: rest.takeWhile isIdentChar) }, lexer') ∧
      View text lexer' (dropNul (rest.dropWhile isIdentChar)) := by
  have hrem := hv.forward.remaining
  have htook := whileChar_took (n := lexer.forward.remaining + 1) (ne_nul_of (p := isIdentChar) rfl)
    (fun ident c => ident ++ [c]) ([] : List Char) hv (by omega)
  have hput := htook.putBack
  have hacc := htook.acc_eq
  rw [foldl_append_singleton, List.takeWhile_cons_of_pos hd, List.nil_append] at hacc
  rw [List.dropWhile_cons_of_pos hd] at hput
  refine ⟨_, ?_, hput⟩
  rw [tokenizeIdent]
  generalize whileChar _ _ _ _ _ _ = res at hacc
  obtain ⟨ident, c', lexer'⟩ := res
  obtain rfl := hacc
  rfl

/-- The end of a comment: its newline is no token, but anything else is taken for one. -/
theorem comment_stepped {lexer : Lexer} (hv : View text lexer rest) :
    Stepped uninit text s (turnComment rest) (.ok (finishStep
      ((whileChar (fun c => c ≠ '\n') (fun (_ : Unit) _ => ()) ((next lexer).2.remaining + 1) ()
          (next lexer).1 (next lexer).2).2.1, uninit s.vector.length,
        { s with
          lexer := (whileChar (fun c => c ≠ '\n') (fun (_ : Unit) _ => ())
            ((next lexer).2.remaining + 1) () (next lexer).1 (next lexer).2).2.2
          line := s.line + 1
          pos := 1 }))) := by
  cases rest with
  | nil =>
      rw [hv.next_nil, whileChar, if_neg (by simp), finishStep_token (show NoBlank nul from rfl)]
      exact Stepped.unset hv
  | cons c rest =>
      rw [hv.next_cons]
      have hrem := hv.forward.remaining
      have htook := whileChar_took (n := lexer.forward.remaining + 1) (q := inComment)
        (fun _ => rfl) (fun (_ : Unit) _ => ()) () hv (by omega) (p := fun c => decide (c ≠ '\n'))
      dsimp only
      generalize whileChar _ _ _ _ _ _ = res at htook
      obtain ⟨_, c', lexer'⟩ := res
      have hchar : c' = _ := htook.char
      have hview : View text lexer' _ := htook.view
      rw [turnComment]
      cases hl : (c :: rest).dropWhile inComment with
      | nil =>
          rw [hl] at hchar hview
          obtain rfl : c' = nul := hchar
          dsimp only
          rw [finishStep_token (show NoBlank nul from rfl)]
          exact Stepped.unset hview
      | cons d rest' =>
          rw [hl] at hchar hview
          obtain rfl : c' = d := hchar
          dsimp only
          by_cases hd : c' = nul
          · rw [if_pos hd, hd, finishStep_token (show NoBlank nul from rfl)]
            exact Stepped.unset hview
          · -- the comment stopped at a character that is not the terminator
            have hstop := List.head?_dropWhile_not inComment (c :: rest)
            rw [hl] at hstop
            obtain rfl : c' = '\n' := by simpa [inComment, hd] using hstop
            rw [if_neg hd]
            exact Stepped.newline hview

/-- The case of the slash. -/
theorem slash_stepped (hv : View text s.lexer ('/' :: rest)) :
    Stepped uninit text s
      (if rest.head? = some '/' then turnComment rest.tail else .token .div "/" (unread '/' rest))
      ((slash '/' (uninit s.vector.length) s.read).map finishStep) := by
  have hpeek := hv.peek
  rw [slash, LexState.read]
  generalize next s.lexer.forward = ahead at hpeek ⊢
  obtain ⟨peek, lexer⟩ := ahead
  by_cases h2 : rest.head? = some '/'
  · rw [if_pos h2]
    dsimp only
    rw [if_pos ((hpeek.eq '/' (by decide)).mpr h2)]
    exact comment_stepped (hpeek.taken '/' h2)
  · rw [if_neg h2]
    dsimp only
    rw [if_neg (fun h => h2 ((hpeek.eq '/' (by decide)).mp h)), Except.map,
      finishStep_token (show NoBlank '/' from rfl)]
    exact Stepped.token hpeek.back

/-- **A step of `tokenize` is the turn of what is left.** -/
theorem tokenizeStep_stepped (hv : View text s.lexer rest) :
    Stepped uninit text s (turn rest) (tokenizeStep uninit s) := by
  cases rest with
  | nil =>
      rw [turn, tokenizeStep, hv.next_nil]
      exact Stepped.done
  | cons c rest =>
      by_cases hc : c = nul
      · rw [turn, if_pos hc, tokenizeStep, hv.next_cons]
        simp only [if_pos hc]
        exact Stepped.done
      rw [turn, if_neg hc, tokenizeStep_cons hv hc]
      have hturn := charTurn c
      generalize turnChar c = f at hturn ⊢
      -- one case for each case of the `switch`
      cases hturn with
      | slash => exact slash_stepped hv
      | newline => exact Stepped.newline hv.forward
      | tab | space => exact Stepped.blank hv.forward
      | and | or | assign | not => exact twoChars_stepped hv rfl (by decide) _ _ _ _
      | lt | gt => exact twiceOrEq_stepped hv rfl (by decide) _ _ _ _ _ _
      | add | sub | mult | semicolon | lparen | rparen | lbrace | rbrace | xor | comma =>
        exact oneChar_stepped hv rfl _ _
      | other hspecial =>
        have hblank : NoBlank c := by
          simp only [NoBlank, Bool.and_eq_true, decide_eq_true_eq]
          refine ⟨⟨?_, ?_⟩, ?_⟩
          all_goals
            rintro rfl
            exact hspecial (by decide)
        have hswitch : switchChar c (uninit s.vector.length) s.read = (
            if c.isDigit then
              .ok (c, (tokenizeDigit c (uninit s.vector.length) s.read.lexer).1,
                { s.read with lexer := (tokenizeDigit c (uninit s.vector.length) s.read.lexer).2 })
            else if isIdentStart c then
              .ok (c, (tokenizeIdent c (uninit s.vector.length) s.read.lexer).1,
                { s.read with lexer := (tokenizeIdent c (uninit s.vector.length) s.read.lexer).2 })
            else
              .error (.unexpectedChar c)) := by
          unfold switchChar
          split <;> first | exact absurd (by decide) hspecial | rfl
        rw [hswitch, LexState.read]
        beta_reduce
        by_cases hd : c.isDigit = true
        · obtain ⟨lexer, heq, hv'⟩ := tokenizeDigit_view (t := uninit s.vector.length) hv hd
          rw [if_pos hd, if_pos hd, heq]
          dsimp only
          rw [Except.map, finishStep_token hblank]
          exact Stepped.token hv'
        rw [if_neg hd, if_neg hd]
        by_cases hi : isIdentStart c = true
        · have hic : isIdentChar c = true := by
            simp only [isIdentStart, isIdentChar, Bool.or_eq_true] at hi ⊢
            grind
          obtain ⟨lexer, heq, hv'⟩ := tokenizeIdent_view (t := uninit s.vector.length) hv hic
          rw [if_pos hi, if_pos hi, heq]
          dsimp only
          rw [Except.map, finishStep_token hblank]
          exact Stepped.token hv'
        · rw [if_neg hi, if_neg hi]
          exact Stepped.stop

theorem stepped_of_turn {tn : Turn} (hv : View text s.lexer rest) (hturn : turn rest = tn) :
    Stepped uninit text s tn (tokenizeStep uninit s) := by
  rw [← hturn]
  exact tokenizeStep_stepped hv

end Step

end MyLang
