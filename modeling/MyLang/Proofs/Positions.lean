/-
The positions of tokens, line by line.

`Places` says which tokens the loop adds from some line and position on.  A newline ends
every turn, so the turns of a line are the same whatever comes behind it: the tokens of a
line are those of the line alone, moved by the difference of the positions the two start
from.  For all lines but the first that is 1.

A turn is what `turn` makes of the text that is left (`Proofs/LexTurn.lean`), and only
there is the code of `tokenize` looked at.  `turn_line` is the one fact about the
characters: the turn of a line that ends in a newline is the same function of what comes
behind, for every case of the switch.  From it `Places.split` cuts a run at the first
newline, and `Places.lines` says for every line by how much its tokens are moved.

A comment takes its newline with it, and one that is open at the end of the text leaves a
token that is said to stand on the line behind the last.  These two are why the last line
is treated apart (`Places.last`, `Places.comment`).
-/
import MyLang.Proofs.Lexes
import MyLang.Proofs.Newline
import MyLang.Positions

namespace MyLang

/-! ### Runs

A run that returns is a derivation of `Places`, and the other way round.  The memory of
fresh tokens comes in only through `unset`, the turn of a comment that is open at the end.
-/

/-- The tokens that a text adds to `n` others, from a line and a position on. -/
inductive Places (uninit : Nat → Token) : Nat → Int → Int → List Char → List Token → Prop
  | done {n line pos text} (hturn : turn text = .done) : Places uninit n line pos text []
  | blank {n line pos text rest ts} (hturn : turn text = .blank rest)
    (h : Places uninit n line (pos + 1) rest ts) :
      Places uninit n line pos text ts
  | newline {n line pos text rest ts} (hturn : turn text = .newline rest)
      (h : Places uninit n (line + 1) (1 + 1) rest ts) : Places uninit n line pos text ts
  | token {n line pos text ty value rest ts} (hturn : turn text = .token ty value rest)
      (h : Places uninit (n + 1) line (pos + 1) rest ts) :
      Places uninit n line pos text ({ type := ty, value, pos, line } :: ts)
  | unset {n line pos text rest ts} (hturn : turn text = .unset rest)
      (h : Places uninit (n + 1) (line + 1) (1 + 1) rest ts) :
      Places uninit n line pos text ({ uninit n with pos := 1, line := line + 1 } :: ts)

variable {uninit uninit' : Nat → Token} {n : Nat} {line pos : Int} {text rest u v : List Char}
  {ts : List Token}
  {c d : Char}

/-- A turn and what is left behind it determine the rest of a run. -/
theorem Places.unique {ts' : List Token} (h : Places uninit n line pos text ts)
    (h' : Places uninit n line pos text ts') : ts = ts' := by
  induction h generalizing ts' with
  | done hturn =>
      cases h' with
      | done => rfl
      | _ hturn' => cases hturn.symm.trans hturn'
  | blank hturn h ih =>
      cases h' with
      | blank hturn' h' =>
          cases hturn.symm.trans hturn'
          exact ih h'
      | _ hturn' => cases hturn.symm.trans hturn'
  | newline hturn h ih =>
      cases h' with
      | newline hturn' h' =>
          cases hturn.symm.trans hturn'
          exact ih h'
      | _ hturn' => cases hturn.symm.trans hturn'
  | token hturn h ih =>
      cases h' with
      | token hturn' h' =>
          cases hturn.symm.trans hturn'
          rw [ih h']
      | _ hturn' => cases hturn.symm.trans hturn'
  | unset hturn h ih =>
      cases h' with
      | unset hturn' h' =>
          cases hturn.symm.trans hturn'
          rw [ih h']
      | _ hturn' => cases hturn.symm.trans hturn'

/-- What the loop returns are the tokens of what is left. -/
theorem places_of_tokenizeLoop {whole : List Char} {s : LexState} {fuel : Nat}
    (hv : View whole s.lexer text) (h : tokenizeLoop uninit fuel s = some (.ok ts)) :
    ∃ ts', ts = s.vector ++ ts' ∧ Places uninit s.vector.length s.line s.pos text ts' := by
  -- one turn of the loop for each unit of fuel; a turn is a rule of `Places`
  induction fuel generalizing s text with
  | zero => simp [tokenizeLoop] at h
  | succ fuel ih =>
      have hstep : Stepped uninit _ s (turn text) (tokenizeStep uninit s) := tokenizeStep_stepped hv
      rw [tokenizeLoop] at h
      generalize htn : turn text = tn at hstep
      generalize tokenizeStep uninit s = res at hstep h
      cases hstep with
      | done =>
          obtain rfl := Except.ok.inj (Option.some.inj h)
          exact ⟨[], (List.append_nil _).symm, Places.done htn⟩
      | stop => simp at h
      | blank hv' =>
          obtain ⟨ts', rfl, hts⟩ := ih hv' h
          exact ⟨ts', rfl, Places.blank htn hts⟩
      | newline hv' =>
          obtain ⟨ts', rfl, hts⟩ := ih hv' h
          exact ⟨ts', rfl, Places.newline htn hts⟩
      | token hv' =>
          obtain ⟨ts', rfl, hts⟩ := ih hv' h
          rw [List.length_append] at hts
          exact ⟨_, List.append_assoc .., Places.token htn hts⟩
      | unset hv' =>
          obtain ⟨ts', rfl, hts⟩ := ih hv' h
          rw [List.length_append] at hts
          exact ⟨_, List.append_assoc .., Places.unset htn hts⟩

theorem tokenizeLoop_step {s s' : LexState} {res : Except LexError (List Token)}
    (hstep : tokenizeStep uninit s = .ok (some s'))
    (h : ∃ fuel, tokenizeLoop uninit fuel s' = some res) :
    ∃ fuel, tokenizeLoop uninit fuel s = some res := by
  obtain ⟨fuel, h⟩ := h
  exact ⟨fuel + 1, by rw [tokenizeLoop, hstep]; exact h⟩

/-- The loop returns the tokens of a text that has any. -/
theorem tokenizeLoop_of_places {whole : List Char} {s : LexState}
    (h : Places uninit n line pos text ts) (hv : View whole s.lexer text) (hn : s.vector.length = n)
    (hline : s.line = line) (hpos : s.pos = pos) :
    ∃ fuel, tokenizeLoop uninit fuel s = some (.ok (s.vector ++ ts)) := by
  -- each rule is a turn of the loop, and the fuel is counted on the way back
  induction h generalizing s with
  | @done n line pos text hturn =>
      have hstep : Stepped uninit _ s _ (tokenizeStep uninit s) := stepped_of_turn hv hturn
      generalize hres : tokenizeStep uninit s = res at hstep
      cases hstep
      exact ⟨1, by rw [tokenizeLoop, hres, List.append_nil]⟩
  | @blank n line pos text rest ts hturn h ih =>
      have hstep : Stepped uninit _ s _ (tokenizeStep uninit s) := stepped_of_turn hv hturn
      generalize hres : tokenizeStep uninit s = res at hstep
      cases hstep with
      | blank hv' => exact tokenizeLoop_step hres (ih hv' hn hline (by rw [hpos]))
  | @newline n line pos text rest ts hturn h ih =>
      have hstep : Stepped uninit _ s _ (tokenizeStep uninit s) := stepped_of_turn hv hturn
      generalize hres : tokenizeStep uninit s = res at hstep
      cases hstep with
      | newline hv' => exact tokenizeLoop_step hres (ih hv' hn (by rw [hline]) rfl)
  | @token n line pos text ty value rest ts hturn h ih =>
      have hstep : Stepped uninit _ s _ (tokenizeStep uninit s) := stepped_of_turn hv hturn
      generalize hres : tokenizeStep uninit s = res at hstep
      cases hstep with
      | token hv' =>
          have hloop := tokenizeLoop_step hres (ih hv' (by simp [hn]) hline (by rw [hpos]))
          rw [List.append_assoc, hline, hpos] at hloop
          exact hloop
  | @unset n line pos text rest ts hturn h ih =>
      have hstep : Stepped uninit _ s _ (tokenizeStep uninit s) := stepped_of_turn hv hturn
      generalize hres : tokenizeStep uninit s = res at hstep
      cases hstep with
      | unset hv' =>
          have hloop := tokenizeLoop_step hres (ih hv' (by simp [hn]) (by rw [hline]) rfl)
          rw [List.append_assoc, hline, hn] at hloop
          exact hloop

/-! ### The turns of a line

A character of an operator looks at the next one, a word or a number at as many as it
takes.  None of them goes past a newline, which completes no operator and is no letter or
digit.
-/

theorem dropWhile_stop {p : Char → Bool} (hd : p d = false) (u v : List Char) :
    (u ++ d :: v).dropWhile p = u.dropWhile p ++ d :: v := by
  induction u with
  | nil => simp [hd]
  | cons c u ih =>
      rw [List.cons_append, List.dropWhile_cons, List.dropWhile_cons]
      by_cases hc : p c = true
      · rw [if_pos hc, if_pos hc, ih]
      · rw [if_neg hc, if_neg hc, List.cons_append]

theorem takeWhile_stop {p : Char → Bool} (hd : p d = false) (u v : List Char) :
    (u ++ d :: v).takeWhile p = u.takeWhile p := by
  induction u with
  | nil => simp [hd]
  | cons c u ih =>
      rw [List.cons_append, List.takeWhile_cons, List.takeWhile_cons]
      by_cases hc : p c = true
      · rw [if_pos hc, if_pos hc, ih]
      · rw [if_neg hc, if_neg hc]

/--
A turn in front of a newline, whatever comes behind: `f v` is the turn of `u`, the newline
and `v`.
-/
inductive LineTurn (u : List Char) : (List Char → Turn) → Prop
  | stop (c : Char) : LineTurn u fun _ => .stop c
  | blank {w} (hsuf : w <:+ u) (hlt : w.length < u.length) : LineTurn u fun v =>
      .blank (w ++ '\n' :: v)
  | token {w ty value} (hsuf : w <:+ u) (hlt : w.length < u.length) :
      LineTurn u fun v => .token ty value (w ++ '\n' :: v)
  | comment : LineTurn u .newline

theorem lineTurn_one {ty : TokenType} {value : String} :
    LineTurn (c :: u) fun v => .token ty value (u ++ '\n' :: v) :=
  LineTurn.token (List.suffix_cons _ _) (Nat.lt_succ_self _)

/-- An operator that what follows does not complete. -/
theorem lineTurn_unread {ty : TokenType} {value : String} :
    LineTurn (c :: u) fun v => .token ty value (unread c (u ++ '\n' :: v)) := by
  have heq : (fun v => Turn.token ty value (unread c (u ++ '\n' :: v)))
      = fun v => .token ty value (u ++ '\n' :: v) := by
    funext v
    rw [unread, if_neg (by simp)]
  rw [heq]
  exact lineTurn_one

/-- The character behind an operator is there whatever comes behind the newline. -/
theorem head?_line (second : Char) (hs : second ≠ '\n') (v : List Char) :
    (u ++ '\n' :: v).head? = some second ↔ u.head? = some second := by
  cases u with
  | nil => simp [Ne.symm hs]
  | cons c u => simp

theorem lineTurn_pair {ty : TokenType} {value : String} (h : u.head? = some d) :
    LineTurn (c :: u) fun v => .token ty value (u ++ '\n' :: v).tail := by
  obtain ⟨u, rfl⟩ := List.head?_eq_some_iff.mp h
  exact LineTurn.token ((List.suffix_cons _ _).trans (List.suffix_cons _ _))
    (by simp only [List.length_cons]; omega)

theorem lineTurn_two {second : Char} (hs : second ≠ '\n') {ty2 ty1 : TokenType}
    {text2 text1 : String} :
    LineTurn (c :: u) fun v => turnTwo c (u ++ '\n' :: v) second ty2 text2 ty1 text1 := by
  unfold turnTwo
  simp only [head?_line second hs]
  by_cases h : u.head? = some second
  · simp only [if_pos h]
    exact lineTurn_pair h
  · simp only [if_neg h]
    exact lineTurn_unread

theorem lineTurn_three (hc : c ≠ '\n') {tyTwice tyEq ty1 : TokenType}
    {textTwice textEq text1 : String} :
    LineTurn (c :: u) fun v =>
      turnThree c (u ++ '\n' :: v) tyTwice textTwice tyEq textEq ty1 text1 := by
  unfold turnThree
  simp only [head?_line c hc, head?_line '=' (by decide)]
  by_cases h : u.head? = some c
  · simp only [if_pos h]
    exact lineTurn_pair h
  · simp only [if_neg h]
    by_cases heq : u.head? = some '='
    · simp only [if_pos heq]
      exact lineTurn_pair heq
    · simp only [if_neg heq]
      exact lineTurn_unread

/-- A word or a number, with the type and the value of what is taken of it. -/
theorem lineTurn_while {p : Char → Bool} (hp : p '\n' = false) (hnul : nul ∉ u)
    (ty : List Char → TokenType) (value : List Char → String) :
    LineTurn (c :: u) fun v => .token (ty ((u ++ '\n' :: v).takeWhile p))
      (value ((u ++ '\n' :: v).takeWhile p)) (dropNul ((u ++ '\n' :: v).dropWhile p)) := by
  have hsuf := List.dropWhile_suffix (l := u) p
  -- what is taken ends at the newline at the latest
  have hdrop : ∀ v, dropNul ((u ++ '\n' :: v).dropWhile p) = u.dropWhile p ++ '\n' :: v := by
    intro v
    rw [dropWhile_stop hp]
    cases hl : u.dropWhile p with
    | nil => rw [List.nil_append, dropNul, if_neg (by decide)]
    | cons d w =>
        have hd : d ≠ nul := by
          rintro rfl
          exact hnul (hsuf.subset (by simp [hl]))
        rw [List.cons_append, dropNul, if_neg hd]
  simp only [takeWhile_stop hp, hdrop]
  exact LineTurn.token (hsuf.trans (List.suffix_cons _ _)) (Nat.lt_succ_of_le hsuf.length_le)

theorem lineTurn_comment (hu : '\n' ∉ u) (hnul : nul ∉ u) :
    LineTurn ('/' :: '/' :: u) fun v => turnComment (u ++ '\n' :: v) := by
  have heq : (fun v => turnComment (u ++ '\n' :: v)) = Turn.newline := by
    funext v
    have hall : ∀ c ∈ u, inComment c = true := by
      intro c hc
      have hne : c ≠ nul ∧ c ≠ '\n' := ⟨fun h => hnul (h ▸ hc), fun h => hu (h ▸ hc)⟩
      simpa [inComment] using hne
    rw [turnComment, dropWhile_stop (by decide), List.dropWhile_eq_nil_iff.mpr hall]
    rfl
  rw [heq]
  exact LineTurn.comment

/-- **The turns in a line do not see what comes behind it.** -/
theorem turn_line (hne : u ≠ []) (hu : '\n' ∉ u) (hnul : nul ∉ u) : LineTurn u fun v =>
    turn (u ++ '\n' :: v) := by
  obtain ⟨c, u, rfl⟩ := List.exists_cons_of_ne_nil hne
  have hc : c ≠ nul := fun h => hnul (h ▸ List.mem_cons_self)
  have hnl : c ≠ '\n' := fun h => hu (h ▸ List.mem_cons_self)
  have hu' : '\n' ∉ u := fun h => hu (List.mem_cons_of_mem _ h)
  have hnul' : nul ∉ u := fun h => hnul (List.mem_cons_of_mem _ h)
  simp only [List.cons_append, turn, if_neg hc]
  have hturn := charTurn c
  generalize turnChar c = f at hturn ⊢
  -- one case for each case of the switch
  cases hturn with
  | slash =>
    simp only [head?_line '/' (by decide)]
    by_cases h2 : u.head? = some '/'
    · simp only [if_pos h2]
      obtain ⟨u, rfl⟩ := List.head?_eq_some_iff.mp h2
      exact lineTurn_comment (fun h => hu' (List.mem_cons_of_mem _ h)) fun h =>
        hnul' (List.mem_cons_of_mem _ h)
    · simp only [if_neg h2]
      exact lineTurn_unread
  | newline => exact absurd rfl hnl
  | tab | space => exact LineTurn.blank (List.suffix_cons _ _) (Nat.lt_succ_self _)
  | and | or | assign | not => exact lineTurn_two (by decide)
  | lt | gt => exact lineTurn_three (by decide)
  | add | sub | mult | semicolon | lparen | rparen | lbrace | rbrace | xor | comma =>
      exact lineTurn_one
  | other h =>
    by_cases hd : c.isDigit = true
    · simp only [if_pos hd]
      exact lineTurn_while (p := Char.isDigit) rfl hnul' (fun _ => .num)
        fun w => intToStr (numWord (c :: w)) ((c :: w).length + 1)
    · simp only [if_neg hd]
      by_cases hi : isIdentStart c = true
      · simp only [if_pos hi]
        exact lineTurn_while (p := isIdentChar) rfl hnul'
          (fun w => wordType (String.ofList (c :: w))) fun w => String.ofList (c :: w)
      · simp only [if_neg hi]
        exact LineTurn.stop c

/-! ### Lines

The first newline splits the tokens of a text into those of the first line and the rest,
which starts one line further down, at position 2.
-/

/-- A token moved to another line and by some positions. -/
def Token.moveTo (line shift : Int) (t : Token) : Token := { t with line, pos := t.pos + shift }

/--
What a text adds, whatever the memory holds, when it starts in another line, at another
position.
-/
def Moves (pos : Int) (text : List Char) (ts : List Token) : Prop :=
  ∀ (uninit : Nat → Token) (n : Nat) (line' pos' : Int),
    Places uninit n line' pos' text (ts.map (Token.moveTo line' (pos' - pos)))

theorem Moves.token {ty : TokenType} {value : String} (hturn : turn text = .token ty value rest)
    (h : Moves (pos + 1) rest ts) : Moves pos text ({ type := ty, value, pos, line } :: ts) := by
  intro uninit n line' pos'
  have hrest := h uninit (n + 1) line' (pos' + 1)
  rw [show pos' + 1 - (pos + 1) = pos' - pos by omega] at hrest
  have htoken := Places.token hturn hrest
  rw [List.map_cons, Token.moveTo]
  rw [show pos + (pos' - pos) = pos' by omega]
  exact htoken

theorem Moves.blank (hturn : turn text = .blank rest) (h : Moves (pos + 1) rest ts) :
    Moves pos text ts := by
  intro uninit n line' pos'
  have hrest := h uninit n line' (pos' + 1)
  rw [show pos' + 1 - (pos + 1) = pos' - pos by omega] at hrest
  exact Places.blank hturn hrest

/-- A line and what comes behind it: the tokens of the line are those of the line alone, moved. -/
theorem Places.split (h : Places uninit n line pos (u ++ '\n' :: v) ts) (hu : '\n' ∉ u)
    (hnul : nul ∉ u) :
    ∃ ts1 ts2, ts = ts1 ++ ts2 ∧ (∀ t ∈ ts1, t.line = line) ∧ Moves pos (u ++ ['\n']) ts1 ∧
      (∃ m, Places uninit m (line + 1) 2 v ts2) ∧ endsInComment (u ++ '\n' :: v)
        = endsInComment v := by
  generalize hlen : u.length = len
  -- on the length of the line, since a turn takes more than one character of it
  induction len using Nat.strongRecOn generalizing u n pos ts with
  | _ len ih =>
      by_cases hne : u = []
      · -- nothing is left of the line, so the turn takes the newline
        subst hne
        have hturn : ∀ v, turn ([] ++ '\n' :: v) = .newline v := fun v => rfl
        cases h with
        | newline hturn' h =>
            cases (hturn v).symm.trans hturn'
            refine ⟨[], ts, rfl, by simp, fun uninit' n' line' pos' => ?_, ⟨n, h⟩, ?_⟩
            · exact Places.newline (hturn []) (Places.done rfl)
            · exact endsInComment_turn (by rw [hturn]; rfl) (fun r => by rw [hturn]; simp)
        | _ hturn' => cases (hturn v).symm.trans hturn'
      · have hline := turn_line hne hu hnul
        generalize hf : (fun v => turn (u ++ '\n' :: v)) = f at hline
        have hturn : ∀ v, turn (u ++ '\n' :: v) = f v := fun v => congrFun hf v
        cases hline with
        -- the loop would have stopped
        | stop c =>
            cases h with
            | _ hturn' => cases (hturn v).symm.trans hturn'
        | comment =>
            cases h with
            | newline hturn' h =>
                cases (hturn v).symm.trans hturn'
                refine ⟨[], ts, rfl, by simp, fun uninit' n' line' pos' => ?_, ⟨n, h⟩, ?_⟩
                · exact Places.newline (hturn []) (Places.done rfl)
                · exact endsInComment_turn (by rw [hturn]; rfl) (fun r => by rw [hturn]; simp)
            | _ hturn' => cases (hturn v).symm.trans hturn'
        | @blank w hsuf hlt =>
            cases h with
            | blank hturn' h =>
                cases (hturn v).symm.trans hturn'
                obtain ⟨ts1, ts2, rfl, hts1, hmoves, hts2, hcom⟩ := ih w.length (hlen ▸ hlt) h
                  (fun hmem => hu (hsuf.subset hmem)) (fun hmem => hnul (hsuf.subset hmem)) rfl
                refine ⟨ts1, ts2, rfl, hts1, hmoves.blank (hturn []), hts2, ?_⟩
                exact (endsInComment_turn (by rw [hturn]; rfl)
                  (fun r => by rw [hturn]; simp)).trans hcom
            | _ hturn' => cases (hturn v).symm.trans hturn'
        | @token w ty value hsuf hlt =>
            cases h with
            | token hturn' h =>
                cases (hturn v).symm.trans hturn'
                obtain ⟨ts1, ts2, rfl, hts1, hmoves, hts2, hcom⟩ := ih w.length (hlen ▸ hlt) h
                  (fun hmem => hu (hsuf.subset hmem)) (fun hmem => hnul (hsuf.subset hmem)) rfl
                refine ⟨_ :: ts1, ts2, rfl, ?_, hmoves.token (hturn []), hts2, ?_⟩
                · intro t ht
                  rcases List.mem_cons.mp ht with rfl | ht
                  · rfl
                  · exact hts1 t ht
                · exact (endsInComment_turn (by rw [hturn]; rfl)
                    (fun r => by rw [hturn]; simp)).trans hcom
            | _ hturn' => cases (hturn v).symm.trans hturn'

/-- A newline, or a comment that is taken with its newline. -/
theorem mem_of_turn_newline (h : turn text = .newline rest) : '\n' ∈ text := by
  cases text with
  | nil => cases h
  | cons c u =>
      rw [turn] at h
      by_cases hc : c = nul
      · rw [if_pos hc] at h
        cases h
      rw [if_neg hc] at h
      have hchar := charTurn c
      generalize turnChar c = f at hchar h
      cases hchar with
      | slash =>
        beta_reduce at h
        by_cases h2 : u.head? = some '/'
        · rw [if_pos h2, turnComment] at h
          -- a comment ends at a terminator or at a newline; here it has ended at a newline
          have hstop := List.head?_dropWhile_not inComment u.tail
          have hsuf := (List.dropWhile_suffix (l := u.tail) inComment).trans (List.tail_suffix u)
          cases hl : u.tail.dropWhile inComment with
          | nil =>
              rw [hl] at h
              cases h
          | cons d w =>
              rw [hl] at h hstop hsuf
              by_cases hd : d = nul
              · simp [hd] at h
              · obtain rfl : d = '\n' := by simpa [inComment, hd] using hstop
                exact List.mem_cons_of_mem _ (hsuf.subset List.mem_cons_self)
        · rw [if_neg h2] at h
          cases h
      | newline => exact List.mem_cons_self
      | and | or | assign | not =>
        beta_reduce at h
        unfold turnTwo at h
        split at h <;> cases h
      | lt | gt =>
        beta_reduce at h
        unfold turnThree at h
        split at h
        · cases h
        · split at h <;> cases h
      | other hspecial =>
        beta_reduce at h
        split at h
        · cases h
        · split at h <;> cases h
      | _ => cases h

theorem scans_of_turn {tn : Turn} {l : List (TokenType × String)} (htn : turn text = tn)
    (hrest : tn.rest = some rest) (h : Scans uninit (n + (tn.pushes uninit n).length) rest l) :
    Scans uninit n text (tn.pushes uninit n ++ l) := by
  subst htn
  exact Scans.turn hrest h

/-- The types and texts of the tokens. -/
theorem Places.scans (h : Places uninit n line pos text ts) :
    Scans uninit n text (ts.map Token.spelling) := by
  induction h with
  | done hturn => exact Scans.done hturn
  | blank hturn h ih | newline hturn h ih | token hturn h ih | unset hturn h ih =>
      exact scans_of_turn hturn rfl ih

/-- What a turn leaves of a text that is run through. -/
theorem Places.left {tn : Turn} (h : Places uninit n line pos text ts) (hnul : nul ∉ text)
    (htn : turn text = tn) (hrest : tn.rest = some rest) :
    rest <:+ text ∧ (endsInComment text = false → ∀ r, tn ≠ .unset r) ∧
      ((∀ r, tn ≠ .unset r) → endsInComment text = endsInComment rest) := by
  subst htn
  obtain ⟨hsuf, hunset⟩ := turn_rest hnul h.scans.not_pending hrest
  exact ⟨hsuf, hunset, endsInComment_turn hrest⟩

/-- A last line without a newline, in which no comment is open at the end. -/
theorem Places.last (h : Places uninit n line pos text ts) (hu : '\n' ∉ text) (hnul : nul ∉ text)
    (hc : endsInComment text = false) : (∀ t ∈ ts, t.line = line) ∧ Moves pos text ts := by
  induction h with
  | done hturn => exact ⟨by simp, fun uninit n line' pos' => Places.done hturn⟩
  | newline hturn h ih => exact absurd (mem_of_turn_newline hturn) hu
  | blank hturn h ih =>
      obtain ⟨hsuf, -, hcom⟩ := (Places.blank hturn h).left hnul hturn rfl
      obtain ⟨hline, hmoves⟩ := ih (fun hmem => hu (hsuf.subset hmem))
        (fun hmem => hnul (hsuf.subset hmem)) ((hcom (by simp)).symm.trans hc)
      exact ⟨hline, hmoves.blank hturn⟩
  | token hturn h ih =>
      obtain ⟨hsuf, -, hcom⟩ := (Places.token hturn h).left hnul hturn rfl
      obtain ⟨hline, hmoves⟩ := ih (fun hmem => hu (hsuf.subset hmem))
        (fun hmem => hnul (hsuf.subset hmem)) ((hcom (by simp)).symm.trans hc)
      refine ⟨fun t ht => ?_, hmoves.token hturn⟩
      rcases List.mem_cons.mp ht with rfl | ht
      · rfl
      · exact hline t ht
  | @unset n line pos text rest ts hturn h ih =>
      -- a comment is open at the end, against the assumption
      obtain ⟨-, hunset, -⟩ := (@Places.unset uninit n line pos _ _ _ hturn h).left hnul hturn rfl
      exact absurd rfl (hunset hc _)

/-- A comment that is open at the end leaves a token that seems to stand behind the last line. -/
theorem Places.comment (h : Places uninit n line pos text ts) (hu : '\n' ∉ text) (hnul : nul ∉ text)
    (hc : endsInComment text = true) : ∃ t ∈ ts, t.line = line + 1 := by
  induction h with
  | @done n line pos text hturn =>
      by_cases hne : text = []
      · rw [hne] at hc
        cases hc
      · exact absurd hturn (turn_ne_done hne hnul)
  | newline hturn h ih => exact absurd (mem_of_turn_newline hturn) hu
  | blank hturn h ih =>
      obtain ⟨hsuf, -, hcom⟩ := (Places.blank hturn h).left hnul hturn rfl
      exact ih (fun hmem => hu (hsuf.subset hmem)) (fun hmem => hnul (hsuf.subset hmem))
        ((hcom (by simp)).symm.trans hc)
  | token hturn h ih =>
      obtain ⟨hsuf, -, hcom⟩ := (Places.token hturn h).left hnul hturn rfl
      obtain ⟨t, ht, hline⟩ := ih (fun hmem => hu (hsuf.subset hmem))
        (fun hmem => hnul (hsuf.subset hmem)) ((hcom (by simp)).symm.trans hc)
      exact ⟨t, List.mem_cons_of_mem _ ht, hline⟩
  | unset hturn h ih => exact ⟨_, List.mem_cons_self, rfl⟩

/-! ### Texts

What has been said of one line is said of every line of a text, by induction on its
length; the line `k` of the text is the first line of what is left behind `k` newlines.
-/

/-- A text is one line, or a line, its newline and a text. -/
theorem line_cases (text : List Char) : '\n' ∉ text ∨ ∃ u v, text = u ++ '\n' :: v ∧ '\n' ∉ u := by
  by_cases h : '\n' ∈ text
  · obtain ⟨u, v, rfl, hu⟩ := List.eq_append_cons_of_mem h
    exact Or.inr ⟨u, v, rfl, hu⟩
  · exact Or.inl h

theorem lineAt_last (hu : '\n' ∉ u) (k : Nat) : lineAt k u = if k = 0 then u else [] := by
  induction u with
  | nil =>
      cases k with
      | zero => rfl
      | succ k => rfl
  | cons c u ih =>
      have hc : c ≠ '\n' := fun h => hu (h ▸ List.mem_cons_self)
      have ih := ih fun h => hu (List.mem_cons_of_mem _ h)
      cases k with
      | zero => rw [lineAt, if_neg hc, ih, if_pos rfl, if_pos rfl]
      | succ k =>
          rw [lineAt, if_neg hc, ih]
          simp

theorem lineAt_append (hu : '\n' ∉ u) (k : Nat) :
    lineAt k (u ++ '\n' :: v) = if k = 0 then u ++ ['\n'] else lineAt (k - 1) v := by
  induction u with
  | nil =>
      cases k with
      | zero => rfl
      | succ k => rfl
  | cons c u ih =>
      have hc : c ≠ '\n' := fun h => hu (h ▸ List.mem_cons_self)
      have ih := ih fun h => hu (List.mem_cons_of_mem _ h)
      rw [List.cons_append]
      cases k with
      | zero => rw [lineAt, if_neg hc, ih, if_pos rfl, if_pos rfl, List.cons_append]
      | succ k =>
          rw [lineAt, if_neg hc, ih]
          simp

theorem filter_line (h : ∀ t ∈ ts, t.line = line) (k : Nat) :
    (ts.filter fun t => t.line = line + (k : Int)) = if k = 0 then ts else [] := by
  by_cases hk : k = 0
  · rw [if_pos hk, List.filter_eq_self]
    intro t ht
    simpa [hk] using h t ht
  · -- they stand on the first line, so on no later one
    rw [if_neg hk, List.filter_eq_nil_iff]
    intro t ht
    simpa [h t ht] using hk

/-- **The tokens of every line of a text are those of the line alone, moved.** -/
theorem Places.lines (h : Places uninit n line pos text ts) (hnul : nul ∉ text)
    (hc : endsInComment text = false) : (∀ t ∈ ts, line ≤ t.line) ∧
      ∀ k : Nat, Moves (if k = 0 then pos else 2) (lineAt k text)
        (ts.filter fun t => t.line = line + k) := by
  generalize hlen : text.length = len
  induction len using Nat.strongRecOn generalizing text n line pos ts with
  | _ len ih =>
      rcases line_cases text with hu | ⟨u, v, rfl, hu⟩
      · obtain ⟨hline, hmoves⟩ := h.last hu hnul hc
        refine ⟨fun t ht => (hline t ht).ge, fun k => ?_⟩
        rw [filter_line hline, lineAt_last hu]
        cases k with
        | zero => exact hmoves
        | succ k => exact fun uninit n line' pos' => Places.done rfl
      · have hv : nul ∉ v := fun hmem => hnul (by simp [hmem])
        obtain ⟨ts1, ts2, rfl, hline, hmoves, ⟨m, h2⟩, hcom⟩ := h.split hu fun hmem =>
          hnul (by simp [hmem])
        have hlt : v.length < len := by
          rw [← hlen, List.length_append, List.length_cons]
          omega
        obtain ⟨hge, hmoves2⟩ := ih v.length hlt h2 hv (hcom.symm.trans hc) rfl
        refine ⟨fun t ht => ?_, fun k => ?_⟩
        · rcases List.mem_append.mp ht with ht | ht
          · exact (hline t ht).ge
          · have hle := hge t ht
            omega
        · rw [List.filter_append, filter_line hline, lineAt_append hu]
          cases k with
          | zero =>
              have hnone : (ts2.filter fun t => t.line = line + ((0 : Nat) : Int)) = [] := by
                rw [List.filter_eq_nil_iff]
                intro t ht
                have hle := hge t ht
                simp only [decide_eq_true_eq]
                omega
              rw [hnone, List.append_nil]
              exact hmoves
          | succ k =>
              have hsame : (ts2.filter fun t => t.line = line + ((k + 1 : Nat) : Int))
                  = ts2.filter fun t => t.line = line + 1 + (k : Int) :=
                List.filter_congr fun t _ => by rw [decide_eq_decide]; omega
              have hmoves2 := hmoves2 k
              rw [ite_self] at hmoves2
              rw [hsame]
              exact hmoves2

/-- **A comment that is open at the end leaves a token on a line that is not there.** -/
theorem Places.open_comment (h : Places uninit n line pos text ts) (hnul : nul ∉ text)
    (hc : endsInComment text = true) : ∃ k : Nat, lineAt k text = [] ∧
      ∃ t ∈ ts, t.line = line + k := by
  generalize hlen : text.length = len
  induction len using Nat.strongRecOn generalizing text n line pos ts with
  | _ len ih =>
      rcases line_cases text with hu | ⟨u, v, rfl, hu⟩
      · obtain ⟨t, ht, hline⟩ := h.comment hu hnul hc
        refine ⟨1, ?_, t, ht, hline⟩
        rw [lineAt_last hu, if_neg (by decide)]
      · have hv : nul ∉ v := fun hmem => hnul (by simp [hmem])
        obtain ⟨ts1, ts2, rfl, -, -, ⟨m, h2⟩, hcom⟩ := h.split hu fun hmem => hnul (by simp [hmem])
        have hlt : v.length < len := by
          rw [← hlen, List.length_append, List.length_cons]
          omega
        obtain ⟨k, hnone, t, ht, hline⟩ := ih v.length hlt h2 hv (hcom.symm.trans hc) rfl
        refine ⟨k + 1, ?_, t, List.mem_append_right _ ht, ?_⟩
        · rw [lineAt_append hu, if_neg (by omega)]
          exact hnone
        · rw [hline]
          push_cast
          omega

theorem laterLines_last (hu : '\n' ∉ u) : laterLines u = [] := by
  have hall : ∀ c ∈ u, decide (c ≠ '\n') = true := by
    intro c hc
    have hne : c ≠ '\n' := fun h => hu (h ▸ hc)
    simpa using hne
  rw [laterLines, List.dropWhile_eq_nil_iff.mpr hall]
  rfl

theorem laterLines_append (hu : '\n' ∉ u) : laterLines (u ++ '\n' :: v) = v := by
  have hall : ∀ c ∈ u, decide (c ≠ '\n') = true := by
    intro c hc
    have hne : c ≠ '\n' := fun h => hu (h ▸ hc)
    simpa using hne
  rw [laterLines, dropWhile_stop (by decide), List.dropWhile_eq_nil_iff.mpr hall]
  rfl

/-- **All tokens stand on the first line just in case nothing else does.** -/
theorem Places.idle_iff (h : Places uninit n line pos text ts) (hnul : nul ∉ text)
    (hc : endsInComment text = false) : IdleBehindFirst text ↔ ∀ t ∈ ts, t.line = line := by
  -- a single line has nothing behind it; otherwise all tokens of the rest stand further
  -- down
  rcases line_cases text with hu | ⟨u, v, rfl, hu⟩
  · have hidle : IdleBehindFirst text := by
      rw [IdleBehindFirst, laterLines_last hu]
      rfl
    exact iff_of_true hidle (h.last hu hnul hc).1
  · have hv : nul ∉ v := fun hmem => hnul (by simp [hmem])
    obtain ⟨ts1, ts2, rfl, hline, -, ⟨m, h2⟩, hcom⟩ := h.split hu fun hmem => hnul (by simp [hmem])
    have hcv := hcom.symm.trans hc
    rw [IdleBehindFirst, laterLines_append hu, ← scans_nil_iff h2.scans hv hcv, List.map_eq_nil_iff]
    constructor
    · rintro rfl t ht
      rw [List.append_nil] at ht
      exact hline t ht
    · intro hall
      refine List.eq_nil_iff_forall_not_mem.mpr fun t ht => ?_
      have hle := (h2.lines hv hcv).1 t ht
      have heq := hall t (List.mem_append_right _ ht)
      omega

/-! ### The whole input

`(int)length` characters are read, so the lines are those of `lexed input`.  Each line
alone is short enough to be read to its end.
-/

/-- A short text is read to its end. -/
theorem tokenize_iff_places (hlen : text.length < 2 ^ 31) :
    (∃ fuel, tokenize uninit fuel text = some (.ok ts)) ↔ Places uninit 0 1 1 text ts := by
  have hv : View text (LexState.initial text).lexer text := by
    have hview := View.initial text
    change View (lexed text) _ (lexed text) at hview
    rw [lexed_eq hlen] at hview
    exact hview
  constructor
  · rintro ⟨fuel, h⟩
    obtain ⟨ts', rfl, hts⟩ := places_of_tokenizeLoop hv h
    exact hts
  · intro h
    exact tokenizeLoop_of_places h hv rfl rfl rfl

theorem lexed_length_lt (input : List Char) : (lexed input).length < 2 ^ 31 := by
  have hlt := BitVec.toInt_lt (x := BitVec.ofNat 32 input.length)
  rw [lexed, List.length_take]
  omega

theorem lineAt_length_le (k : Nat) (text : List Char) : (lineAt k text).length ≤ text.length := by
  induction text generalizing k with
  | nil =>
      cases k <;> exact Nat.le_refl _
  | cons c rest ih =>
      cases k with
      | zero =>
          rw [lineAt]
          split
          · simp
          · simpa using ih 0
      | succ k =>
          rw [lineAt]
          have h1 := ih k
          have h2 := ih (k + 1)
          split <;> simp only [List.length_cons] <;> omega

/--
The lines of a text alone give the positions they have in it, or there is a line for which
they do not: one behind the first that has a token, whose count starts one higher than it
does alone, or the line after an open comment, which is not there and has a token.
-/
theorem Places.posLocal (h : Places uninit 0 1 1 text ts) (hnul : nul ∉ text)
    (hlen : text.length < 2 ^ 31) :
    PosLocal text ts ↔ IdleBehindFirst text ∧ endsInComment text = false := by
  have hshort : ∀ k, (lineAt k text).length < 2 ^ 31 := fun k =>
    (lineAt_length_le k _).trans_lt hlen
  cases hc : endsInComment text with
  | true =>
      refine iff_of_false (fun hlocal => ?_) (by simp)
      obtain ⟨k, hnone, t, ht, hline⟩ := h.open_comment hnul hc
      obtain ⟨fuel', alone, hrun, hpos⟩ := hlocal k uninit
      have halone := (tokenize_iff_places (hshort k)).mp ⟨fuel', hrun⟩
      rw [hnone] at halone
      obtain rfl := halone.unique (Places.done rfl)
      rw [List.map_nil, List.map_eq_nil_iff, List.filter_eq_nil_iff] at hpos
      exact hpos t ht (by simp [hline, add_comm])
  | false =>
      obtain ⟨hge, hmoves⟩ := h.lines hnul hc
      rw [h.idle_iff hnul hc]
      have hfilter : ∀ k : Nat, (ts.filter fun t => t.line = (k + 1 : Int))
          = ts.filter fun t => t.line = 1 + (k : Int) :=
        fun k => List.filter_congr fun t _ => by rw [decide_eq_decide, add_comm]
      constructor
      · intro hlocal
        refine ⟨fun t ht => ?_, rfl⟩
        by_contra hne
        have hle := hge t ht
        obtain ⟨k, hk⟩ : ∃ k : Nat, t.line = 1 + ((k + 1 : Nat) : Int) :=
          ⟨(t.line - 2).toNat, by omega⟩
        obtain ⟨fuel', alone, hrun, hpos⟩ := hlocal (k + 1) uninit
        have halone := (tokenize_iff_places (hshort (k + 1))).mp ⟨fuel', hrun⟩
        obtain rfl := halone.unique (hmoves (k + 1) uninit 0 1 1)
        rw [hfilter, List.map_map, List.map_inj_left] at hpos
        have hsame := hpos t (List.mem_filter.mpr ⟨ht, by simpa using hk⟩)
        -- the line alone starts at 1, and here it starts at 2
        have hmoved : t.pos = t.pos + (1 - 2) := hsame
        omega
      · rintro ⟨hall, -⟩ k uninit'
        obtain ⟨fuel', hrun⟩ := (tokenize_iff_places (hshort k)).mpr (hmoves k uninit' 0 1 1)
        refine ⟨fuel', _, hrun, ?_⟩
        rw [hfilter, filter_line hall, List.map_map]
        cases k with
        | zero =>
            refine List.map_congr_left fun t _ => ?_
            show t.pos = t.pos + (1 - 1)
            omega
        | succ k => rfl

/--
**The positions of tokens depend on their own line alone just in case none stands behind the
first line.**  The lines are those of what is read; that is all of an input below `2 ^ 31` bytes
(`posLocal_iff_whole`).
-/
theorem posLocal_iff {input : List Char} {fuel : Nat} (hnul : nul ∉ input)
    (h : tokenize uninit fuel input = some (.ok ts)) :
    PosLocal (lexed input) ts ↔
      IdleBehindFirst (lexed input) ∧ endsInComment (lexed input) = false := by
  obtain ⟨ts', rfl, hplaces⟩ := places_of_tokenizeLoop (View.initial input) h
  exact Places.posLocal hplaces (fun hmem => hnul (List.mem_of_mem_take hmem))
    (lexed_length_lt input)

/-- In an input that is not too long for an `int` the lines are those of the input itself. -/
theorem posLocal_iff_whole {input : List Char} {fuel : Nat} (hnul : nul ∉ input)
    (hlen : input.length < 2 ^ 31) (h : tokenize uninit fuel input = some (.ok ts)) :
    PosLocal input ts ↔ IdleBehindFirst input ∧ endsInComment input = false :=
  ((tokenize_iff_places hlen).mp ⟨fuel, h⟩).posLocal hnul hlen

/-- Two names on the first line, and a comment behind it. -/
theorem posLocal_iff_comment :
    ∃ uninit fuel ts, tokenize uninit fuel "x y\n//\n".toList = some (.ok ts) ∧
      ts.map Token.pos = [1, 3] ∧ PosLocal (lexed "x y\n//\n".toList) ts := by
  have hrun : tokenize (fun _ => { type := .ident, value := "" }) 6 "x y\n//\n".toList =
      some (.ok [{ type := .ident, value := "x", pos := 1, line := 1 },
        { type := .ident, value := "y", pos := 3, line := 1 }]) := by rfl
  exact ⟨_, _, _, hrun, rfl, (posLocal_iff (by decide) hrun).mpr ⟨by decide, by decide⟩⟩

/-- The second of two lines that are the same. -/
theorem second_line_not_posLocal :
    ∃ uninit fuel ts, nul ∉ "x\nx\n".toList ∧ tokenize uninit fuel "x\nx\n".toList = some (.ok ts) ∧
      ¬ PosLocal "x\nx\n".toList ts := by
  refine ⟨fun _ => { type := .ident, value := "" }, 5, _, by decide, rfl, fun hlocal => ?_⟩
  obtain ⟨fuel, alone, hrun, hpos⟩ := hlocal 1 fun _ => { type := .ident, value := "" }
  have halone : tokenize (fun _ => { type := .ident, value := "" }) 3 ['x', '\n'] =
      some (.ok [{ type := .ident, value := "x", pos := 1, line := 1 }]) := by rfl
  obtain rfl := Except.ok.inj (tokenize_unique hrun halone)
  exact absurd hpos (by decide)

end MyLang
