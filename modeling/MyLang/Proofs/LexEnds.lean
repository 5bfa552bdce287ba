/-
Where the lexer does not end.

Every turn of the loop goes on with less of the text, but for one: an operator that could
be the first half of a longer one, at the very end.  There `next` has nothing to read and
does not advance, `back` goes back all the same, and the operator is read again, and
again.

`Advances` says of a turn that it leaves less, or that such an operator is all that is
left of the text.  Whether a text ends so is found out from its beginning, by the
automaton `endsIn`: a character may stand in a comment, where an operator is none, or it
may be the second half of another operator.  A turn does not change what the text ends in,
so that it can be said of the whole input before the first turn.

The lexer reads its input up to a length that is an `int`, and it is the part it reads
that must not end so.  The state behind a step is looked at through `View`, so the cursor
is mentioned nowhere here.
-/
import MyLang.Proofs.LexTurn
import MyLang.Lexing

namespace MyLang

/-- What a turn leaves, unless it is the last one. -/
def Turn.rest : Turn → Option (List Char)
  | .done | .stop _ => none
  | .blank rest | .newline rest | .unset rest | .token _ _ rest => some rest

section Ends

/- What may be open at the end: an operator or a comment. -/
variable {q : LexMode → Bool}

/--
A turn goes on with less of the text, which ends as before.  At the end of the text there
are two exceptions: a comment ends with it, and a pending operator is all that is left.
-/
def Advances (q : LexMode → Bool) (text : List Char) : Turn → Prop
  | .done | .stop _ => endsIn q .start text = false
  | .unset rest =>
      rest.length < text.length ∧ (endsIn q .start text = endsIn q .start rest ∨
        rest = [] ∧ endsIn q .start text = q .comment)
  | .blank rest | .newline rest | .token _ _ rest =>
      (rest.length < text.length ∧ endsIn q .start text = endsIn q .start rest) ∨
        (rest = text ∧ ∃ c, endsIn q .start text = q (.op c))

variable {text rest : List Char} {c : Char}

theorem endsIn_cons {mode mode' : LexMode} (h : mode.read c = some mode') :
    endsIn q mode (c :: rest) = endsIn q mode' rest := by
  rw [endsIn, h]

theorem endsIn_cons_none {mode : LexMode} (h : mode.read c = none) :
    endsIn q mode (c :: rest) = false := by
  rw [endsIn, h]

/-- What reads a character like the start does, reads all the rest like it. -/
theorem endsIn_congr {mode : LexMode} (h : mode.read c = LexMode.start.read c) :
    endsIn q mode (c :: rest) = endsIn q .start (c :: rest) := by
  rw [endsIn, endsIn, h]

theorem endsIn_behind {mode : LexMode} (h : LexMode.behind c = some mode) :
    endsIn q .start (c :: rest) = endsIn q mode rest := endsIn_cons h

theorem advances_one {ty : TokenType} {value : String} (hc : LexMode.behind c = some .start) :
    Advances q (c :: rest) (.token ty value rest) :=
  Or.inl ⟨by simp, endsIn_behind hc⟩

/-- An operator and what follows it, if the two do not belong together. -/
theorem advances_unread {ty : TokenType} {value : String} (hc : LexMode.behind c = some (.op c))
    (h : ∀ d rest', rest = d :: rest' → completes c d = false) :
    Advances q (c :: rest) (.token ty value (unread c rest)) := by
  cases rest with
  | nil => exact Or.inr ⟨rfl, c, endsIn_behind hc⟩
  | cons d rest =>
      refine Or.inl ⟨by simp [unread], ?_⟩
      have hd := h d rest rfl
      rw [endsIn_behind hc, unread, if_neg (by simp)]
      exact endsIn_congr (by simp [LexMode.read, hd])

/-- An operator that one character may complete. -/
theorem advances_two {second : Char} {ty2 ty1 : TokenType} {text2 text1 : String}
    (hc : LexMode.behind c = some (.op c)) (hslash : c ≠ '/')
    (h : ∀ d, completes c d = decide (d = second)) :
    Advances q (c :: rest) (turnTwo c rest second ty2 text2 ty1 text1) := by
  rw [turnTwo]
  by_cases h2 : rest.head? = some second
  · rw [if_pos h2]
    obtain ⟨rest, rfl⟩ := List.head?_eq_some_iff.mp h2
    refine Or.inl ⟨by simp only [List.tail_cons, List.length_cons]; omega, ?_⟩
    rw [endsIn_behind hc]
    exact endsIn_cons (by simp [LexMode.read, h, hslash])
  · rw [if_neg h2]
    refine advances_unread hc fun d rest' hrest => ?_
    rw [h, decide_eq_false_iff_not]
    rintro rfl
    exact h2 (by rw [hrest]; rfl)

/-- An operator that one of two characters may complete. -/
theorem advances_three {tyTwice tyEq ty1 : TokenType} {textTwice textEq text1 : String}
    (hc : LexMode.behind c = some (.op c)) (hslash : c ≠ '/')
    (h : ∀ d, completes c d = (decide (d = c) || decide (d = '='))) :
    Advances q (c :: rest) (turnThree c rest tyTwice textTwice tyEq textEq ty1 text1) := by
  rw [turnThree]
  by_cases h2 : rest.head? = some c
  · rw [if_pos h2]
    obtain ⟨rest, rfl⟩ := List.head?_eq_some_iff.mp h2
    refine Or.inl ⟨by simp only [List.tail_cons, List.length_cons]; omega, ?_⟩
    rw [endsIn_behind hc]
    exact endsIn_cons (by simp [LexMode.read, h, hslash])
  rw [if_neg h2]
  by_cases h3 : rest.head? = some '='
  · rw [if_pos h3]
    obtain ⟨rest, rfl⟩ := List.head?_eq_some_iff.mp h3
    refine Or.inl ⟨by simp only [List.tail_cons, List.length_cons]; omega, ?_⟩
    rw [endsIn_behind hc]
    exact endsIn_cons (by simp [LexMode.read, h, hslash])
  · rw [if_neg h3]
    refine advances_unread hc fun d rest' hrest => ?_
    rw [h, Bool.or_eq_false_iff, decide_eq_false_iff_not, decide_eq_false_iff_not]
    refine ⟨?_, ?_⟩
    · rintro rfl
      exact h2 (by rw [hrest]; rfl)
    · rintro rfl
      exact h3 (by rw [hrest]; rfl)

/-- Words and numbers go on as long as they can; a terminator that ends one is skipped. -/
theorem endsIn_word {mode : LexMode} {p : Char → Bool} (hend : q mode = q .start)
    (hread : ∀ c, mode.read c =
      if p c then some mode else if c = nul then some .start else LexMode.behind c)
    (rest : List Char) :
    endsIn q mode rest = endsIn q .start (dropNul (rest.dropWhile p)) := by
  induction rest with
  | nil => exact hend
  | cons c rest ih =>
      by_cases hc : p c = true
      · rw [endsIn_cons ((hread c).trans (if_pos hc)), List.dropWhile_cons_of_pos hc, ih]
      rw [List.dropWhile_cons_of_neg hc, dropNul]
      have hc' := (hread c).trans (if_neg hc)
      by_cases hn : c = nul
      · rw [if_pos hn, endsIn_cons (hc'.trans (if_pos hn))]
      · rw [if_neg hn]
        exact endsIn_congr (hc'.trans (if_neg hn))

theorem dropNul_length (l : List Char) : (dropNul l).length ≤ l.length := by
  cases l with
  | nil => exact le_refl _
  | cons c l =>
      rw [dropNul]
      split <;> simp

theorem advances_word {mode : LexMode} {p : Char → Bool} {ty : TokenType} {value : String}
    (hc : LexMode.behind c = some mode) (hend : q mode = q .start)
    (hread : ∀ c, mode.read c =
      if p c then some mode else if c = nul then some .start else LexMode.behind c) :
    Advances q (c :: rest) (.token ty value (dropNul (rest.dropWhile p))) := by
  refine Or.inl ⟨?_, ?_⟩
  · have h1 := dropNul_length (rest.dropWhile p)
    have h2 := (List.dropWhile_suffix (l := rest) p).length_le
    rw [List.length_cons]
    omega
  · rw [endsIn_behind hc, endsIn_word hend hread]

/-- Behind a comment reading starts again. -/
theorem endsIn_comment (rest : List Char) :
    endsIn q .comment rest = match rest.dropWhile inComment with
      | [] => q .comment
      | _ :: rest => endsIn q .start rest := by
  induction rest with
  | nil => rfl
  | cons c rest ih =>
      by_cases hc : inComment c = true
      · rw [List.dropWhile_cons_of_pos hc, ← ih]
        simp only [inComment, Bool.and_eq_true, decide_eq_true_eq] at hc
        exact endsIn_cons (by simp [LexMode.read, hc.1, hc.2])
      · rw [List.dropWhile_cons_of_neg hc]
        refine endsIn_cons ?_
        rw [inComment, Bool.and_eq_true, decide_eq_true_eq, decide_eq_true_eq] at hc
        have hor : (decide (c = nul) || decide (c = '\n')) = true := by
          simp only [Bool.or_eq_true, decide_eq_true_eq]
          grind
        exact if_pos hor

/-- A slash is a comment or a division. -/
theorem advances_slash :
    Advances q ('/' :: rest)
      (if rest.head? = some '/' then turnComment rest.tail
        else .token .div "/" (unread '/' rest)) := by
  by_cases h2 : rest.head? = some '/'
  · rw [if_pos h2]
    obtain ⟨rest, rfl⟩ := List.head?_eq_some_iff.mp h2
    have hlen := (List.dropWhile_suffix (l := rest) inComment).length_le
    have hpend : endsIn q .start ('/' :: '/' :: rest) = endsIn q .comment rest := rfl
    rw [endsIn_comment] at hpend
    rw [List.tail_cons, turnComment]
    cases hl : rest.dropWhile inComment with
    | nil =>
        rw [hl] at hpend
        exact ⟨by simp, Or.inr ⟨rfl, hpend⟩⟩
    | cons d rest' =>
        rw [hl] at hpend hlen
        rw [List.length_cons] at hlen
        have hlt : rest'.length < ('/' :: '/' :: rest).length := by
          rw [List.length_cons, List.length_cons]
          omega
        dsimp only
        split
        · exact ⟨hlt, Or.inl hpend⟩
        · exact Or.inl ⟨hlt, hpend⟩
  · rw [if_neg h2]
    refine advances_unread rfl fun d rest' hrest => ?_
    simp only [completes, decide_eq_false_iff_not]
    rintro rfl
    exact h2 (by rw [hrest]; rfl)

theorem not_special (h : c ∉ specialChars) : isPrefixOp c = false ∧
    (isPunct c || isBlank c) = false := by
  simp only [isPrefixOp, isPunct, isBlank, Bool.or_eq_false_iff, decide_eq_false_iff_not]
  refine ⟨fun hc => h ?_, fun hc => h ?_, fun hc => h ?_⟩
  all_goals
    revert hc
    simp only [specialChars, List.mem_cons, List.not_mem_nil, or_false]
    grind

/-- Every turn goes on with less, or leaves a pending operator. -/
theorem turn_advances (q : LexMode → Bool) (hnum : q .number = q .start)
    (hword : q .word = q .start) (hstart : q .start = false) (text : List Char) :
    Advances q text (turn text) := by
  cases text with
  | nil => exact hstart
  | cons c rest =>
      rw [turn]
      by_cases hc : c = nul
      · rw [if_pos hc, hc]
        rfl
      rw [if_neg hc]
      have hturn := charTurn c
      generalize turnChar c = f at hturn ⊢
      cases hturn with
      | slash => exact advances_slash
      | newline | tab | space => exact Or.inl ⟨by simp, endsIn_behind rfl⟩
      | and | or | assign | not => exact advances_two rfl (by decide) fun _ => rfl
      | lt | gt => exact advances_three rfl (by decide) fun _ => rfl
      | add | sub | mult | semicolon | lparen | rparen | lbrace | rbrace | xor | comma =>
          exact advances_one rfl
      | other h =>
        obtain ⟨hop, hrest⟩ := not_special h
        have hbehind : LexMode.behind c =
            if c.isDigit then some .number else if isIdentStart c then some .word else none := by
          rw [LexMode.behind, hop, hrest]
          rfl
        beta_reduce
        by_cases hd : c.isDigit = true
        · rw [if_pos hd] at hbehind
          rw [if_pos hd]
          exact advances_word hbehind hnum fun _ => rfl
        rw [if_neg hd] at hbehind
        rw [if_neg hd]
        by_cases hi : isIdentStart c = true
        · rw [if_pos hi] at hbehind
          rw [if_pos hi]
          exact advances_word hbehind hword fun _ => rfl
        · rw [if_neg hi] at hbehind
          rw [if_neg hi]
          exact endsIn_cons_none hbehind

end Ends

/-! ### The loop

With a pending operator the loop comes back to the same text each time, and with more fuel
it only goes round more often.
-/

section Loop

variable {uninit : Nat → Token} {text rest : List Char} {s : LexState}

/-- The state of a step is that of a turn, and what is left is in view. -/
theorem Stepped.next {tn : Turn} {res : Except LexError (Option LexState)}
    (h : Stepped uninit text s tn res) {rest : List Char} (hrest : tn.rest = some rest) :
    ∃ s', res = .ok (some s') ∧ View text s'.lexer rest := by
  cases h with
  | done | stop => simp [Turn.rest] at hrest
  | blank hv | newline hv | token hv | unset hv =>
      obtain rfl := Option.some.inj hrest
      exact ⟨_, rfl, hv⟩

theorem Stepped.last {tn : Turn} {res : Except LexError (Option LexState)}
    (h : Stepped uninit text s tn res) (hrest : tn.rest = none) :
    res = .ok none ∨ ∃ e, res = .error e := by
  cases h with
  | done => exact Or.inl rfl
  | stop => exact Or.inr ⟨_, rfl⟩
  | _ => simp [Turn.rest] at hrest

/-- A pending operator stays pending; without one, less and less is left. -/
theorem turn_pending (text : List Char) :
    match (turn text).rest with
    | none => endsPending text = false
    | some rest => endsPending rest = endsPending text ∧
      (endsPending text = false → rest.length < text.length) := by
  have hadv := turn_advances LexMode.isOp rfl rfl rfl text
  cases htn : turn text with
  | done | stop =>
      rw [htn] at hadv
      exact hadv
  | unset rest =>
      rw [htn] at hadv
      refine ⟨?_, fun _ => hadv.1⟩
      rcases hadv.2 with h | ⟨rfl, h⟩
      · exact h.symm
      · exact h.symm
  | blank rest | newline rest | token ty value rest =>
      rw [htn] at hadv
      rcases hadv with ⟨hlt, h⟩ | ⟨heq, c, h⟩
      · exact ⟨h.symm, fun _ => hlt⟩
      · rw [heq]
        exact ⟨rfl, fun hf => absurd (h.symm.trans hf) (by simp [LexMode.isOp])⟩

/-- A loop that has a pending operator in view at the end goes on for ever. -/
theorem tokenizeLoop_pending (hp : endsPending rest = true) (hv : View text s.lexer rest)
    (fuel : Nat) : tokenizeLoop uninit fuel s = none := by
  induction fuel generalizing s rest with
  | zero => rfl
  | succ fuel ih =>
      have hturn := turn_pending rest
      have hstep : Stepped uninit _ s (turn rest) (tokenizeStep uninit s) := tokenizeStep_stepped hv
      rw [tokenizeLoop]
      cases hrest : (turn rest).rest with
      | none =>
          rw [hrest] at hturn
          exact absurd (hp.symm.trans hturn) (by simp)
      | some rest' =>
          rw [hrest] at hturn
          obtain ⟨s', heq, hv'⟩ := hstep.next hrest
          rw [heq]
          exact ih (hturn.1.trans hp) hv'

/-- Without one, every turn but the last leaves less. -/
theorem tokenizeLoop_ends (hp : endsPending rest = false) (hv : View text s.lexer rest)
    {fuel : Nat} (hfuel : rest.length < fuel) : ∃ r, tokenizeLoop uninit fuel s = some r := by
  induction fuel generalizing s rest with
  | zero => omega
  | succ fuel ih =>
      have hturn := turn_pending rest
      have hstep : Stepped uninit _ s (turn rest) (tokenizeStep uninit s) := tokenizeStep_stepped hv
      rw [tokenizeLoop]
      cases hrest : (turn rest).rest with
      | none =>
          rcases hstep.last hrest with heq | ⟨e, heq⟩
          · exact ⟨_, by rw [heq]⟩
          · exact ⟨_, by rw [heq]⟩
      | some rest' =>
          rw [hrest] at hturn
          obtain ⟨s', heq, hv'⟩ := hstep.next hrest
          have hlt := hturn.2 hp
          rw [heq]
          exact ih (hturn.1.trans hp) hv' (by omega)

end Loop

/-- The part of the input that the lexer takes for all of it: its length goes through an `int`. -/
def lexed (input : List Char) : List Char := input.take (BitVec.ofNat 32 input.length).toInt.toNat

/-- **The lexer ends exactly if what it reads does not end with a pending operator.** -/
theorem tokenize_ends_iff (uninit : Nat → Token) (input : List Char) :
    (∃ fuel r, tokenize uninit fuel input = some r) ↔ endsPending (lexed input) = false := by
  have hv : View (lexed input) (LexState.initial input).lexer (lexed input) := View.initial input
  constructor
  · rintro ⟨fuel, r, h⟩
    by_contra hp
    rw [tokenize, tokenizeLoop_pending (Bool.eq_true_of_not_eq_false hp) hv] at h
    exact absurd h (by simp)
  · intro hp
    obtain ⟨r, hr⟩ := @tokenizeLoop_ends uninit _ _ _ hp hv _ (Nat.lt_succ_self _)
    exact ⟨_, r, hr⟩

/-- `=` as the last byte is read again and again. -/
theorem assign_not_tokenize_ends :
    ¬ ∃ fuel r, tokenize (fun _ => { type := .ident, value := "" }) fuel ['='] = some r := by
  have hv : View (lexed ['=']) (LexState.initial ['=']).lexer (lexed ['=']) := View.initial ['=']
  rintro ⟨fuel, r, h⟩
  rw [tokenize, tokenizeLoop_pending (by decide) hv] at h
  exact absurd h (by simp)

end MyLang
