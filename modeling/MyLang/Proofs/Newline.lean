/-
The tokens of a text and those of the text with one more character.

`Scans` says which types and texts the turns of a text add to the vector.  A character
more is a text of its own there, or it belongs to the last number, word or comment.  From
this follows what a newline at the end of the input does.

The types and texts of tokens do not depend on where they stand, so `Scans` leaves the
lines and positions out, and with them most of the state of the loop.  `scans_snoc`
compares two runs, turn by turn: as long as a turn does not look at the last character
both take the same one, and the last turn that does has a case of its own (`ScanSnoc`).

An input is read up to `(int)length` characters.  With one character more it may be that
another part of the input is read, so the theorem is not only about a newline at the end
of the input, but about the character that comes into view.  Below `2^31` characters that
is the newline itself, and only a comment can tell the difference.
-/
import MyLang.Proofs.LastChar

namespace MyLang

/-! ### All turns

`Scans` is a function of the text, except behind a comment that is open at the end.
-/

/-- The types and texts of the tokens that a text adds to `n` others. -/
inductive Scans (uninit : Nat → Token) : Nat → List Char → List (TokenType × String) → Prop
  | done {n text} (hdone : turn text = .done) : Scans uninit n text []
  | turn {n text rest l} (hrest : (turn text).rest = some rest)
      (h : Scans uninit (n + ((turn text).pushes uninit n).length) rest l) :
      Scans uninit n text ((turn text).pushes uninit n ++ l)

section Scans

variable {uninit uninit' : Nat → Token} {n : Nat} {text rest : List Char} {x : Char}
  {l l' : List (TokenType × String)}

/-- What a turn leaves is scanned behind it. -/
theorem Scans.inv (h : Scans uninit n text l) (hrest : (MyLang.turn text).rest = some rest) :
    ∃ l', l = (MyLang.turn text).pushes uninit n ++ l' ∧
      Scans uninit (n + ((MyLang.turn text).pushes uninit n).length) rest l' := by
  cases h with
  | done hdone =>
      rw [hdone] at hrest
      simp [Turn.rest] at hrest
  | turn hrest' h =>
      obtain rfl := Option.some.inj (hrest.symm.trans hrest')
      exact ⟨_, rfl, h⟩

theorem Scans.inv_done (h : Scans uninit n text l) (hdone : MyLang.turn text = .done) : l = [] := by
  cases h with
  | done => rfl
  | turn hrest h =>
      rw [hdone] at hrest
      simp [Turn.rest] at hrest

theorem Scans.nil (h : Scans uninit n [] l) : l = [] := h.inv_done rfl

theorem Scans.unique (h : Scans uninit n text l) (h' : Scans uninit n text l') : l = l' := by
  induction h generalizing l' with
  | done hdone => exact (h'.inv_done hdone).symm
  | turn hrest h ih =>
      obtain ⟨l'', rfl, h''⟩ := h'.inv hrest
      rw [ih h'']

/-- A text that is scanned ends with no pending operator. -/
theorem Scans.not_pending (h : Scans uninit n text l) : endsPending text = false := by
  induction h with
  | @done n text hdone =>
      have hturn := turn_pending text
      rw [hdone] at hturn
      exact hturn
  | @turn n text rest l hrest h ih =>
      have hturn := turn_pending text
      rw [hrest] at hturn
      exact hturn.1.symm.trans ih

theorem scans_iff (hrest : (MyLang.turn text).rest = some rest) :
    Scans uninit n text l ↔ ∃ l', l = (MyLang.turn text).pushes uninit n ++ l' ∧
      Scans uninit (n + ((MyLang.turn text).pushes uninit n).length) rest l' := by
  constructor
  · exact fun h => h.inv hrest
  · rintro ⟨l', rfl, h⟩
    exact Scans.turn hrest h

/-- What a turn pushes depends on the memory only behind a comment. -/
theorem Turn.pushes_eq {tn : Turn} (h : ∀ r, tn ≠ .unset r) (uninit uninit' : Nat → Token)
    (n n' : Nat) : tn.pushes uninit n = tn.pushes uninit' n' := by
  cases tn with
  | unset r => exact absurd rfl (h r)
  | _ => rfl

/-- A comment is open at the end of a text exactly if one is at the end of what a turn leaves. -/
theorem endsInComment_turn (hrest : (MyLang.turn text).rest = some rest)
    (hunset : ∀ r, MyLang.turn text ≠ .unset r) : endsInComment text = endsInComment rest := by
  have hadv := turn_advances LexMode.isComment rfl rfl rfl text
  cases htn : MyLang.turn text with
  | done | stop c =>
      rw [htn] at hrest
      simp [Turn.rest] at hrest
  | unset r => exact absurd htn (hunset r)
  | blank r | newline r | token ty value r =>
      rw [htn] at hrest hadv
      obtain rfl := Option.some.inj hrest
      rcases hadv with ⟨-, h⟩ | ⟨rfl, -⟩
      · exact h
      · rfl

/--
The tokens of a text, whatever the memory holds, and those of the text with one more
character.
-/
inductive ScanSnoc (x : Char) (n : Nat) (text : List Char) : List (TokenType × String) → Prop
  | fresh {l : List (TokenType × String)} (hc : endsInComment text = false)
    (hnum : lastNumber text = [] ∨ x.isDigit = false)
      (h : ∀ uninit, Scans uninit n text l)
      (hx : ∀ uninit l', Scans uninit n (text ++ [x]) l' ↔
        ∃ l'', l' = l ++ l'' ∧ Scans uninit (n + l.length) [x] l'') : ScanSnoc x n text l
  | number {l : List (TokenType × String)} (hc : endsInComment text = false) (hd : x.isDigit = true)
    (hnum : lastNumber text ≠ [])
      (h : ∀ uninit, Scans uninit n text (l ++ [(.num, numText (lastNumber text))]))
      (hx : ∀ uninit, Scans uninit n (text ++ [x])
        (l ++ [(.num, numText (lastNumber text ++ [x]))])) :
      ScanSnoc x n text (l ++ [(.num, numText (lastNumber text))])
  | word {l : List (TokenType × String)} {ty ty' value value'} (hc : endsInComment text = false)
      (hi : isIdentChar x = true) (hnum : lastNumber text = []) (hne : value ≠ value')
      (h : ∀ uninit, Scans uninit n text (l ++ [(ty, value)]))
      (hx : ∀ uninit, Scans uninit n (text ++ [x]) (l ++ [(ty', value')])) :
      ScanSnoc x n text (l ++ [(ty, value)])
  | comment {l : List (TokenType × String)} {a} (hc : endsInComment text = true)
      (h : ∀ uninit, Scans uninit n text (l ++ [(uninit (n + l.length)).spelling]))
      (hx : ∀ uninit, Scans uninit n (text ++ [x])
        (if x = '\n' then l else l ++ [(uninit (n + l.length)).spelling])) :
      ScanSnoc x n text (l ++ [a])

/-- A turn that does not see the character comes before those that may. -/
theorem ScanSnoc.on {p : List (TokenType × String)}
    (hscan : ∀ uninit l, Scans uninit n text l ↔ ∃ l', l = p ++ l' ∧
      Scans uninit (n + p.length) rest l') (hscan' : ∀ uninit l, Scans uninit n (text ++ [x]) l ↔
      ∃ l', l = p ++ l' ∧ Scans uninit (n + p.length) (rest ++ [x]) l')
    (hcom : endsInComment text = endsInComment rest) (hlast : lastNumber text = lastNumber rest)
    (h : ScanSnoc x (n + p.length) rest l) : ScanSnoc x n text (p ++ l) := by
  have hlen : ∀ l : List (TokenType × String), n + p.length + l.length = n + (p ++ l).length := by
    intro l
    rw [List.length_append]
    omega
  cases h with
  | fresh hc hnum h hx =>
      refine ScanSnoc.fresh (hcom.trans hc) (hlast ▸ hnum)
        (fun uninit => (hscan _ _).mpr ⟨l, rfl, h uninit⟩) ?_
      intro uninit l'
      rw [hscan', ← hlen]
      simp only [hx, List.append_assoc]
      constructor
      · rintro ⟨l1, rfl, l2, rfl, h2⟩
        exact ⟨l2, rfl, h2⟩
      · rintro ⟨l2, rfl, h2⟩
        exact ⟨_, rfl, l2, rfl, h2⟩
  | number hc hd hnum h hx =>
      rw [← hlast] at hnum h hx
      rw [← hlast, ← List.append_assoc]
      refine ScanSnoc.number (hcom.trans hc) hd hnum (fun uninit => ?_) (fun uninit => ?_)
      · exact (hscan _ _).mpr ⟨_, List.append_assoc .., h uninit⟩
      · exact (hscan' _ _).mpr ⟨_, List.append_assoc .., hx uninit⟩
  | word hc hi hnum hne h hx =>
      rw [← List.append_assoc]
      exact ScanSnoc.word (hcom.trans hc) hi (hlast.trans hnum) hne
        (fun uninit => (hscan _ _).mpr ⟨_, List.append_assoc .., h uninit⟩)
        (fun uninit => (hscan' _ _).mpr ⟨_, List.append_assoc .., hx uninit⟩)
  | comment hc h hx =>
      rw [← List.append_assoc]
      refine ScanSnoc.comment (hcom.trans hc) (fun uninit => ?_) (fun uninit => ?_)
      · rw [← hlen]
        exact (hscan _ _).mpr ⟨_, List.append_assoc .., h uninit⟩
      · refine (hscan' _ _).mpr ⟨_, ?_, hx uninit⟩
        rw [← hlen]
        split
        · rfl
        · exact List.append_assoc ..

theorem turn_ne_done (hne : text ≠ []) (hnul : nul ∉ text) : MyLang.turn text ≠ .done := by
  obtain ⟨c, rest, rfl⟩ := List.exists_cons_of_ne_nil hne
  have hsnoc := turn_snoc (x := ' ') hne hnul (by decide)
  intro hdone
  rw [hdone] at hsnoc
  generalize MyLang.turn (c :: rest ++ [' ']) = tn at hsnoc
  cases hsnoc with
  | pending h | on h | fresh h => simp [Turn.rest] at h

/-- What a turn leaves is the end of the text, and it pushes no comment if none is open there. -/
theorem turn_rest (hnul : nul ∉ text) (hp : endsPending text = false)
    (hrest : (MyLang.turn text).rest = some rest) :
    rest <:+ text ∧ (endsInComment text = false → ∀ r, MyLang.turn text ≠ .unset r) := by
  have hne : text ≠ [] := by
    rintro rfl
    simp [MyLang.turn, Turn.rest] at hrest
  have hlt := turn_pending text
  rw [hrest] at hlt
  have hlt := hlt.2 hp
  have hsnoc := turn_snoc (x := ' ') hne hnul (by decide)
  generalize MyLang.turn (text ++ [' ']) = tn' at hsnoc
  generalize MyLang.turn text = tn at hsnoc hrest
  cases hsnoc with
  | stop => simp [Turn.rest] at hrest
  | pending hself =>
      obtain rfl := Option.some.inj (hself.symm.trans hrest)
      exact absurd hlt (lt_irrefl _)
  | on hrest' _ _ hsuf hunset =>
      obtain rfl := Option.some.inj (hrest'.symm.trans hrest)
      exact ⟨hsuf, fun _ => hunset⟩
  | fresh hrest' _ hunset =>
      obtain rfl := Option.some.inj (hrest'.symm.trans hrest)
      exact ⟨List.nil_suffix, fun _ => hunset⟩
  | number | word =>
      obtain rfl := Option.some.inj hrest
      exact ⟨List.nil_suffix, fun _ _ => by simp⟩
  | comment hc =>
      obtain rfl := Option.some.inj hrest
      exact ⟨List.nil_suffix, fun hc' => absurd (hc.symm.trans hc') (by decide)⟩

/-- A last turn that pushes one token, and adds nothing to it. -/
theorem scans_last {a : TokenType × String} (hrest : (MyLang.turn text).rest = some [])
    (hpush : (MyLang.turn text).pushes uninit n = [a]) : Scans uninit n text ([] ++ [a]) :=
  (scans_iff hrest).mpr ⟨[], by rw [hpush]; rfl, Scans.done rfl⟩

/-- **The tokens of a text with one more character.** -/
theorem scans_snoc (h : Scans uninit n text l) (hnul : nul ∉ text) (hx : x ≠ nul) :
    ScanSnoc x n text l := by
  -- on the turns of the shorter text
  induction h with
  | @done n text hdone =>
      obtain rfl : text = [] := by
        by_contra hne
        exact turn_ne_done hne hnul hdone
      refine ScanSnoc.fresh rfl (Or.inl rfl) (fun _ => Scans.done rfl) fun uninit l' => ?_
      simp
  | @turn n text rest l hrest h ih =>
      have hne : text ≠ [] := by
        rintro rfl
        simp [MyLang.turn, Turn.rest] at hrest
      have hpend := (Scans.turn hrest h).not_pending
      have hlt := turn_pending text
      rw [hrest] at hlt
      have hlt := hlt.2 hpend
      have hcom := endsInComment_turn hrest
      have hsnoc := turn_snoc hne hnul hx
      have hscan : ∀ (uninit : Nat → Token) (l : List (TokenType × String)), _ :=
        fun uninit l => @scans_iff uninit n text rest l hrest
      generalize htn : MyLang.turn text = tn at hrest h ih hcom hsnoc hscan
      generalize htn' : MyLang.turn (text ++ [x]) = tn' at hsnoc
      cases hsnoc with
      | stop => simp [Turn.rest] at hrest
      | pending hself =>
          obtain rfl := Option.some.inj (hself.symm.trans hrest)
          exact absurd hlt (lt_irrefl _)
      | on hrest1 hrest' hne' hsuf hunset hpush hnum =>
          obtain rfl := Option.some.inj (hrest1.symm.trans hrest)
          have hfix := fun uninit' => Turn.pushes_eq hunset uninit' uninit n n
          refine ScanSnoc.on (fun uninit' l' => ?_) (fun uninit' l' => ?_) (hcom hunset) hnum
            (ih fun hmem => hnul (hsuf.subset hmem))
          · rw [hscan, hfix uninit']
          · rw [scans_iff (htn' ▸ hrest'), htn', hpush, hfix uninit']
      | fresh hrest1 hrest' hunset hpush hnum =>
          obtain rfl := Option.some.inj (hrest1.symm.trans hrest)
          obtain rfl := h.nil
          have hfix := fun uninit' => Turn.pushes_eq hunset uninit' uninit n n
          rw [List.append_nil]
          refine ScanSnoc.fresh (hcom hunset) hnum (fun uninit' => ?_) (fun uninit' l' => ?_)
          · rw [hscan, hfix uninit']
            exact ⟨[], (List.append_nil _).symm, Scans.done rfl⟩
          · rw [scans_iff (htn' ▸ hrest'), htn', hpush, hfix uninit']
      | number hd hnum hne =>
          obtain rfl := Option.some.inj hrest
          obtain rfl := h.nil
          have hl : ScanSnoc x n text ([] ++ [(.num, numText (lastNumber text))]) := by
            refine ScanSnoc.number (hcom fun _ => by simp) hd (by rwa [hnum]) (fun uninit' => ?_)
              (fun uninit' => ?_)
            · rw [hnum]
              exact scans_last (by rw [htn]; rfl) (by rw [htn]; rfl)
            · rw [hnum]
              exact scans_last (by rw [htn']; rfl) (by rw [htn']; rfl)
          rw [hnum] at hl
          exact hl
      | word hi hnum hne =>
          obtain rfl := Option.some.inj hrest
          obtain rfl := h.nil
          exact ScanSnoc.word (l := []) (hcom fun _ => by simp) hi hnum hne
            (fun uninit' => scans_last (by rw [htn]; rfl) (by rw [htn]; rfl))
            (fun uninit' => scans_last (by rw [htn']; rfl) (by rw [htn']; rfl))
      | comment hc =>
          obtain rfl := Option.some.inj hrest
          obtain rfl := h.nil
          refine ScanSnoc.comment (l := []) hc (fun uninit' => ?_) (fun uninit' => ?_)
          · exact scans_last (by rw [htn]; rfl) (by rw [htn]; rfl)
          · by_cases hnl : x = '\n'
            · rw [if_pos hnl] at htn' ⊢
              exact (scans_iff (by rw [htn']; rfl)).mpr ⟨[], by rw [htn']; rfl, Scans.done rfl⟩
            · rw [if_neg hnl] at htn' ⊢
              exact scans_last (by rw [htn']; rfl) (by rw [htn']; rfl)

/-! ### Texts without tokens

White space and comments add no token, and everything else adds one.
-/

/-- A turn pushes a token, or it is over white space. -/
def TurnBlank (text : List Char) : Turn → Prop
  | .done | .stop _ | .unset _ => True
  | .blank rest | .newline rest =>
      (outsideComments false text).all isBlank = (outsideComments false rest).all isBlank
  | .token _ _ _ => (outsideComments false text).all isBlank = false

theorem all_outsideComments_cons {c : Char} (hc : c ≠ '/') :
    (outsideComments false (c :: rest)).all isBlank =
      (isBlank c && (outsideComments false rest).all isBlank) := by
  rw [outsideComments_cons hc, List.all_cons]

theorem turnBlank_two {c second : Char} {ty2 ty1 : TokenType} {text2 text1 : String} (hc : c ≠ '/')
    (hblank : isBlank c = false) : TurnBlank (c :: rest)
      (turnTwo c rest second ty2 text2 ty1 text1) := by
  have h : (outsideComments false (c :: rest)).all isBlank = false := by
    rw [all_outsideComments_cons hc, hblank, Bool.false_and]
  unfold turnTwo
  split <;> exact h

theorem turnBlank_three {c : Char} {tyTwice tyEq ty1 : TokenType} {textTwice textEq text1 : String}
    (hc : c ≠ '/') (hblank : isBlank c = false) :
    TurnBlank (c :: rest) (turnThree c rest tyTwice textTwice tyEq textEq ty1 text1) := by
  have h : (outsideComments false (c :: rest)).all isBlank = false := by
    rw [all_outsideComments_cons hc, hblank, Bool.false_and]
  unfold turnThree
  split
  · exact h
  · split <;> exact h

/-- A comment ends with a newline, which is white space. -/
theorem turnBlank_comment : TurnBlank ('/' :: '/' :: rest) (turnComment rest) := by
  have hsplit := List.takeWhile_append_dropWhile (p := inComment) (l := rest)
  rw [turnComment]
  cases hl : rest.dropWhile inComment with
  | nil => trivial
  | cons d rest' =>
      dsimp only
      by_cases hd : d = nul
      · rw [if_pos hd]
        trivial
      · have hstop := List.head?_dropWhile_not inComment rest
        rw [hl] at hstop
        obtain rfl : d = '\n' := by simpa [inComment, hd] using hstop
        rw [if_neg hd]
        have hbody : '\n' ∉ rest.takeWhile inComment := by
          intro hmem
          have hin := List.mem_takeWhile_imp hmem
          exact absurd hin (by decide)
        have hout : outsideComments false ('/' :: '/' :: rest)
            = '\n' :: outsideComments false rest' := by
          rw [outsideComments, ← hsplit, hl]
          exact outsideComments_body hbody
        rw [TurnBlank, hout, List.all_cons]
        rfl

/-- Every turn pushes a token or is over white space. -/
theorem turn_blank (text : List Char) : TurnBlank text (MyLang.turn text) := by
  cases text with
  | nil => trivial
  | cons c rest =>
      rw [MyLang.turn]
      by_cases hc : c = nul
      · rw [if_pos hc]
        trivial
      rw [if_neg hc]
      have htoken : ∀ d, d ≠ '/' → isBlank d = false →
          (outsideComments false (d :: rest)).all isBlank = false := by
        intro d hd hblank
        rw [all_outsideComments_cons hd, hblank, Bool.false_and]
      have hturn := charTurn c
      generalize turnChar c = f at hturn ⊢
      cases hturn with
      | slash =>
        beta_reduce
        by_cases h2 : rest.head? = some '/'
        · obtain ⟨rest, rfl⟩ := List.head?_eq_some_iff.mp h2
          rw [if_pos h2]
          exact turnBlank_comment
        · rw [if_neg h2, TurnBlank, outsideComments_slash]
          · rfl
          · rintro ⟨rest', heq⟩
            obtain ⟨-, rfl⟩ := List.cons.inj heq
            exact h2 rfl
      | newline | tab | space => exact all_outsideComments_cons (by decide)
      | and | or | assign | not => exact turnBlank_two (by decide) rfl
      | lt | gt => exact turnBlank_three (by decide) rfl
      | add | sub | mult | semicolon | lparen | rparen | lbrace | rbrace | xor | comma =>
        exact htoken _ (by decide) rfl
      | other h =>
        have hslash : c ≠ '/' := by
          rintro rfl
          exact h (by decide)
        have hblank : isBlank c = false := (Bool.or_eq_false_iff.mp (not_special h).2).2
        beta_reduce
        split
        · exact htoken c hslash hblank
        · split
          · exact htoken c hslash hblank
          · trivial

/-- **A text has no tokens exactly if it is white space and comments.** -/
theorem scans_nil_iff (h : Scans uninit n text l) (hnul : nul ∉ text)
    (hc : endsInComment text = false) :
    l = [] ↔ (outsideComments false text).all isBlank = true := by
  induction h with
  | @done n text hdone =>
      have htext : text = [] := by
        by_contra hne
        exact turn_ne_done hne hnul hdone
      rw [htext]
      exact ⟨fun _ => rfl, fun _ => rfl⟩
  | @turn n text rest l hrest h ih =>
      obtain ⟨hsuf, hunset⟩ := turn_rest hnul (Scans.turn hrest h).not_pending hrest
      have hcom := endsInComment_turn hrest (hunset hc)
      have hblank := turn_blank text
      have ih := ih (fun hmem => hnul (hsuf.subset hmem)) (hcom.symm.trans hc)
      cases htn : MyLang.turn text with
      | done | stop c =>
          rw [htn] at hrest
          simp [Turn.rest] at hrest
      | unset r => exact absurd htn (hunset hc r)
      | blank r | newline r =>
          rw [htn] at hrest hblank
          obtain rfl := Option.some.inj hrest
          rw [TurnBlank] at hblank
          rw [hblank, ← ih, Turn.pushes, List.nil_append]
      | token ty value r =>
          rw [htn, TurnBlank] at hblank
          rw [hblank, Turn.pushes]
          simp

/-! ### The loop

What has been said of the turns holds of the loop, which returns what `Scans` says.
-/

/-- A step pushes what its turn does. -/
theorem Stepped.pushed {whole : List Char} {s : LexState} {tn : Turn}
    {res : Except LexError (Option LexState)} (h : Stepped uninit whole s tn res)
    (hrest : tn.rest = some rest) : ∃ s', res = .ok (some s') ∧ View whole s'.lexer rest ∧
      s'.vector.map Token.spelling = s.vector.map Token.spelling
        ++ tn.pushes uninit s.vector.length := by
  cases h with
  | done | stop => simp [Turn.rest] at hrest
  | blank hv | newline hv =>
      obtain rfl := Option.some.inj hrest
      exact ⟨_, rfl, hv, (List.append_nil _).symm⟩
  | token hv | unset hv =>
      obtain rfl := Option.some.inj hrest
      exact ⟨_, rfl, hv, List.map_append⟩

theorem length_of_spelling {p : List (TokenType × String)} {ts ts' : List Token}
    (h : ts'.map Token.spelling = ts.map Token.spelling ++ p) :
    ts'.length = ts.length + p.length := by
  have := congrArg List.length h
  simpa using this

/-- What the loop returns are the tokens of what is left. -/
theorem scans_of_tokenizeLoop {whole : List Char} {s : LexState} {fuel : Nat} {ts : List Token}
    (hv : View whole s.lexer text) (h : tokenizeLoop uninit fuel s = some (.ok ts)) :
    ∃ l, Scans uninit s.vector.length text l ∧ ts.map Token.spelling = s.vector.map Token.spelling
      ++ l := by
  induction fuel generalizing s text with
  | zero => simp [tokenizeLoop] at h
  | succ fuel ih =>
      have hstep : Stepped uninit _ s (MyLang.turn text) (tokenizeStep uninit s) :=
        tokenizeStep_stepped hv
      rw [tokenizeLoop] at h
      cases hrest : (MyLang.turn text).rest with
      | none =>
          generalize htn : MyLang.turn text = tn at hstep hrest
          generalize tokenizeStep uninit s = res at hstep h
          cases hstep with
          | done =>
              obtain rfl := Except.ok.inj (Option.some.inj h)
              exact ⟨[], Scans.done htn, (List.append_nil _).symm⟩
          | stop => simp at h
          | _ => simp [Turn.rest] at hrest
      | some rest =>
          obtain ⟨s', heq, hv', hvec⟩ := hstep.pushed hrest
          rw [heq] at h
          obtain ⟨l, hl, hts⟩ := ih hv' h
          rw [length_of_spelling hvec] at hl
          exact ⟨_, Scans.turn hrest hl, by rw [hts, hvec, List.append_assoc]⟩

/-- The loop returns the tokens of a text that has any. -/
theorem tokenizeLoop_of_scans {whole : List Char} {s : LexState} (h : Scans uninit n text l)
    (hv : View whole s.lexer text) (hn : s.vector.length = n) :
    ∃ fuel ts, tokenizeLoop uninit fuel s = some (.ok ts) ∧
      ts.map Token.spelling = s.vector.map Token.spelling ++ l := by
  induction h generalizing s with
  | @done n text hdone =>
      have hstep : Stepped uninit _ s _ (tokenizeStep uninit s) := stepped_of_turn hv hdone
      generalize hres : tokenizeStep uninit s = res at hstep
      cases hstep
      exact ⟨1, s.vector, by rw [tokenizeLoop, hres], (List.append_nil _).symm⟩
  | @turn n text rest l hrest h ih =>
      have hstep : Stepped uninit _ s (MyLang.turn text) (tokenizeStep uninit s) :=
        tokenizeStep_stepped hv
      obtain ⟨s', heq, hv', hvec⟩ := hstep.pushed hrest
      have hlen := length_of_spelling hvec
      rw [hn] at hlen
      obtain ⟨fuel, ts, hloop, hts⟩ := ih hv' hlen
      refine ⟨fuel + 1, ts, by rw [tokenizeLoop, heq]; exact hloop, ?_⟩
      rw [hts, hvec, hn, List.append_assoc]

end Scans

/-! ### The whole input

The newline is white space, so as a text of its own it has no tokens.  What is left is the
case where it is taken by a comment, and the case where another part of the input is read.
-/

/--
What comes into view with one more character adds no token and changes none: white space, or
a digit that the number before it does not show.  If nothing stays in view, nothing was there.
-/
def Idle (text seen : List Char) : Prop :=
  (seen = [] ∧ (outsideComments false text).all isBlank = true) ∨
    ∃ x, seen = text ++ [x] ∧ (isBlank x = true ∨ lastNumber text ≠ [] ∧ x.isDigit = true ∧
      numText (lastNumber text ++ [x]) = numText (lastNumber text))

section Newline

variable {uninit : Nat → Token} {n : Nat} {text input : List Char} {x : Char}
  {l : List (TokenType × String)}

theorem endsInComment_singleton (x : Char) : endsInComment [x] = false := by
  have hread : LexMode.start.read x = LexMode.behind x := rfl
  rw [endsInComment, endsIn, hread, LexMode.behind]
  split_ifs <;> rfl

theorem outsideComments_singleton (x : Char) : outsideComments false [x] = [x] := by
  by_cases hx : x = '/'
  · rw [hx]
    rfl
  · rw [outsideComments_cons hx]
    rfl

theorem not_isIdentChar_of_isBlank (h : isBlank x = true) : isIdentChar x = false := by
  simp only [isBlank, List.mem_cons, List.not_mem_nil, or_false, decide_eq_true_eq] at h
  rcases h with rfl | rfl | rfl <;> rfl

theorem scans_blank (h : isBlank x = true) : Scans uninit n [x] [] := by
  simp only [isBlank, List.mem_cons, List.not_mem_nil, or_false, decide_eq_true_eq] at h
  have hrest : (turn [x]).rest = some [] ∧ (turn [x]).pushes uninit n = [] := by
    rcases h with rfl | rfl | rfl <;> exact ⟨rfl, rfl⟩
  rw [scans_iff hrest.1, hrest.2]
  exact ⟨[], rfl, Scans.done rfl⟩

/-- A comment taken for a token can be any. -/
theorem exists_spelling_ne (a : TokenType × String) : ∃ uninit :
    Nat → Token, ∀ n, (uninit n).spelling ≠ a := by
  by_cases h : a.1 = .ident
  · refine ⟨fun _ => { type := .num, value := "" }, fun n heq => ?_⟩
    rw [← heq] at h
    simp [Token.spelling] at h
  · refine ⟨fun _ => { type := .ident, value := "" }, fun n heq => ?_⟩
    rw [← heq] at h
    exact h rfl

/-- One more character leaves the tokens alone exactly if it is idle. -/
theorem scans_snoc_iff (h : Scans uninit n text l) (hnul : nul ∉ text) (hx : x ≠ nul) :
    (∀ uninit, Scans uninit n (text ++ [x]) l) ↔
      endsInComment text = false ∧ (isBlank x = true ∨ lastNumber text ≠ [] ∧ x.isDigit = true ∧
        numText (lastNumber text ++ [x]) = numText (lastNumber text)) := by
  have hblank : isIdentChar x = true → ¬ isBlank x = true := by
    intro hi hb
    rw [not_isIdentChar_of_isBlank hb] at hi
    exact absurd hi (by decide)
  cases scans_snoc h hnul hx with
  | fresh hc hnum _ hsnoc =>
      constructor
      · intro hall
        obtain ⟨l', heq, hl'⟩ := (hsnoc uninit l).mp (hall uninit)
        obtain rfl : l' = [] := by simpa using heq
        have hnil := scans_nil_iff hl' (by simpa using hx.symm) (endsInComment_singleton x)
        rw [outsideComments_singleton] at hnil
        exact ⟨hc, Or.inl (by simpa using hnil)⟩
      · rintro ⟨-, hb | ⟨hne, hd, -⟩⟩ uninit
        · exact (hsnoc uninit l).mpr ⟨[], (List.append_nil l).symm, scans_blank hb⟩
        · rcases hnum with hnum | hnum
          · exact absurd hnum hne
          · exact absurd (hd.symm.trans hnum) (by decide)
  | @number l hc hd hnum _ hsnoc =>
      constructor
      · intro hall
        have heq := (hall uninit).unique (hsnoc uninit)
        simp only [List.append_cancel_left_eq, List.cons.injEq, Prod.mk.injEq, and_true, true_and]
          at heq
        exact ⟨hc, Or.inr ⟨hnum, hd, heq.symm⟩⟩
      · rintro ⟨-, hb | ⟨-, -, heq⟩⟩ uninit
        · exact absurd hb (hblank (isIdentChar_of_isDigit hd))
        · rw [← heq]
          exact hsnoc uninit
  | @word l ty ty' value value' hc hi hnum hne _ hsnoc =>
      constructor
      · intro hall
        have heq := (hall uninit).unique (hsnoc uninit)
        simp only [List.append_cancel_left_eq, List.cons.injEq, Prod.mk.injEq, and_true] at heq
        exact absurd heq.2 hne
      · rintro ⟨-, hb | ⟨hne, -⟩⟩
        · exact absurd hb (hblank hi)
        · exact absurd hnum hne
  | @comment l a hc _ hsnoc =>
      constructor
      · intro hall
        obtain ⟨uninit, hne⟩ := exists_spelling_ne a
        have heq := (hall uninit).unique (hsnoc uninit)
        split at heq
        · simp at heq
        · simp only [List.append_cancel_left_eq, List.cons.injEq, and_true] at heq
          exact absurd heq.symm (hne _)
      · rintro ⟨hc', -⟩
        exact absurd (hc.symm.trans hc') (by decide)

/-- A text has the tokens of the empty one exactly if it is white space and comments. -/
theorem scans_none_iff (h : Scans uninit n text l) (hnul : nul ∉ text) :
    (∀ uninit, Scans uninit n [] l) ↔
      endsInComment text = false ∧ (outsideComments false text).all isBlank = true := by
  constructor
  · intro hall
    obtain rfl := (hall uninit).nil
    have hc : endsInComment text = false := by
      generalize hl : ([] : List (TokenType × String)) = l at h
      cases scans_snoc (x := ' ') h hnul (by decide) with
      | fresh hc | number hc | word hc => exact hc
      | comment => simp at hl
    exact ⟨hc, (scans_nil_iff h hnul hc).mp rfl⟩
  · rintro ⟨hc, hb⟩ uninit
    rw [(scans_nil_iff h hnul hc).mpr hb]
    exact Scans.done rfl

/-- Of an input with one more character, one more is read, or nothing at all. -/
theorem lexed_snoc (input : List Char) (a : Char) :
    lexed (input ++ [a]) = [] ∨ ∃ x ∈ input ++ [a], lexed (input ++ [a]) = lexed input ++ [x] := by
  have hlen : (BitVec.ofNat 32 (input.length + 1)).toInt.toNat = 0 ∨
      (BitVec.ofNat 32 (input.length + 1)).toInt.toNat = (BitVec.ofNat 32 input.length).toInt.toNat
        + 1 ∧ (BitVec.ofNat 32 input.length).toInt.toNat ≤ input.length := by
    simp only [BitVec.toInt_eq_toNat_cond, BitVec.toNat_ofNat]
    split_ifs <;> omega
  rw [lexed, lexed, List.length_append, List.length_singleton]
  rcases hlen with h | ⟨h, hle⟩
  · left
    rw [h, List.take_zero]
  · right
    generalize (BitVec.ofNat 32 input.length).toInt.toNat = k at h hle
    have hk : k < (input ++ [a]).length := by
      rw [List.length_append, List.length_singleton]
      omega
    refine ⟨(input ++ [a])[k], List.getElem_mem hk, ?_⟩
    have htake : (input ++ [a]).take k = input.take k := List.take_append_of_le_length hle
    rw [h, ← htake, List.take_append_getElem]

/--
**A final newline does not matter, unless the input ends in a comment.**
Of an input that is too long for an `int` only a part is read, and with the newline another
one: there it depends on what comes into view.
-/
theorem tokenize_newline_iff {fuel : Nat} {ts : List Token} (hnul : nul ∉ input)
    (h : tokenize uninit fuel input = some (.ok ts)) :
    (∀ uninit', ∃ fuel' ts', tokenize uninit' fuel' (input ++ ['\n']) = some (.ok ts') ∧
        ts'.map Token.spelling = ts.map Token.spelling) ↔
      endsInComment (lexed input) = false ∧
        (input.length + 1 < 2 ^ 31 ∨ Idle (lexed input) (lexed (input ++ ['\n']))) := by
  obtain ⟨l, hl, hts⟩ := scans_of_tokenizeLoop (View.initial input) h
  have hl : Scans uninit 0 (lexed input) l := hl
  have hpre := lexed_prefix input
  have hnul' : nul ∉ lexed input := fun hmem => hnul (hpre.subset hmem)
  rw [show (LexState.initial input).vector = [] from rfl, List.map_nil, List.nil_append] at hts
  -- both runs in terms of what they read
  have hrun : (∀ uninit', ∃ fuel' ts', tokenize uninit' fuel' (input ++ ['\n']) = some (.ok ts') ∧
      ts'.map Token.spelling = ts.map Token.spelling) ↔
      ∀ uninit', Scans uninit' 0 (lexed (input ++ ['\n'])) l := by
    refine forall_congr' fun uninit' => ?_
    constructor
    · rintro ⟨fuel', ts', h', heq⟩
      obtain ⟨l', hl', hts'⟩ := scans_of_tokenizeLoop (View.initial (input ++ ['\n'])) h'
      have hll : l' = l := by
        rw [← hts, ← heq, hts']
        rfl
      exact hll ▸ hl'
    · intro hl'
      obtain ⟨fuel', ts', h', hts'⟩ :=
        tokenizeLoop_of_scans hl' (View.initial (input ++ ['\n'])) rfl
      exact ⟨fuel', ts', h', hts'.trans hts.symm⟩
  rw [hrun]
  -- either one character more is read, or nothing at all
  rcases lexed_snoc input '\n' with hnone | ⟨x, hmem, hsnoc⟩
  · have hlong : ¬ input.length + 1 < 2 ^ 31 := by
      intro hlt
      have heq : lexed (input ++ ['\n']) = input ++ ['\n'] := lexed_eq (by simpa using hlt)
      rw [hnone] at heq
      simp at heq
    rw [hnone, scans_none_iff hl hnul', Idle]
    constructor
    · intro h
      exact ⟨h.1, Or.inr (Or.inl ⟨rfl, h.2⟩)⟩
    · rintro ⟨hc, hlt | ⟨-, hb⟩ | ⟨x, heq, -⟩⟩
      · exact absurd hlt hlong
      · exact ⟨hc, hb⟩
      · simp at heq
  · have hx : x ≠ nul := by
      rintro rfl
      rcases List.mem_append.mp hmem with hmem | hmem
      · exact hnul hmem
      · exact absurd hmem (by decide)
    have hshort : input.length + 1 < 2 ^ 31 → isBlank x = true := by
      intro hlt
      rw [lexed_eq (by simpa using hlt), lexed_eq (by omega), List.append_cancel_left_eq] at hsnoc
      obtain rfl := (List.cons.inj hsnoc).1
      rfl
    rw [hsnoc, scans_snoc_iff hl hnul' hx, Idle]
    simp only [List.append_eq_nil_iff, List.cons_ne_nil, and_false, false_and, false_or,
      List.append_cancel_left_eq, List.cons.injEq, and_true, exists_eq_left']
    rw [or_iff_right_of_imp fun hlt => Or.inl (hshort hlt)]

/-- Two names, and no newline behind them. -/
theorem tokenize_newline_iff_names :
    (∀ uninit', ∃ fuel' ts', tokenize uninit' fuel' ("int x".toList ++ ['\n']) = some (.ok ts') ∧
        ts'.map Token.spelling = [(.type, "int"), (.ident, "x")]) ∧
      endsInComment (lexed "int x".toList) = false := by
  have hrun : tokenize (fun _ => { type := .ident, value := "" }) 4 "int x".toList =
      some (.ok [{ type := .type, value := "int", pos := 1, line := 1 },
        { type := .ident, value := "x", pos := 3, line := 1 }]) := by rfl
  have hcom : endsInComment (lexed "int x".toList) = false := by decide
  exact ⟨(tokenize_newline_iff (by decide) hrun).mpr ⟨hcom, Or.inl (by decide)⟩, hcom⟩

/-- `//` alone is a token, and with a newline none. -/
theorem comment_not_newline :
    ∃ uninit fuel ts, nul ∉ ['/', '/'] ∧ tokenize uninit fuel ['/', '/'] = some (.ok ts) ∧
      ¬ ∃ uninit' fuel' ts', tokenize uninit' fuel' (['/', '/'] ++ ['\n']) = some (.ok ts') ∧
        ts'.map Token.spelling = ts.map Token.spelling := by
  refine ⟨fun _ => { type := .ident, value := "" }, 2, _, by decide, rfl, ?_⟩
  rintro ⟨uninit', fuel', ts', h, heq⟩
  have hnone : tokenize uninit' 2 ['/', '/', '\n'] = some (.ok []) := rfl
  obtain rfl := Except.ok.inj (tokenize_unique h hnone)
  simp at heq

end Newline

end MyLang
