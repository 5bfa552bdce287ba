/-
The parser of expressions reads back what was written.

What a level of the grammar reads has to be followed by something that ends it: no
operator of this level or a tighter one, no parenthesis that would make a call of a name,
and no `=`.  From one level to the next nothing happens unless there is an operator.  At
the level of the operators themselves the tree grows to the left, in a loop that goes on
with whatever follows: there the statement is that parsing what is written for a tree
comes to the loop with this tree in hand.

So there are three statements about a tree, `ReadsAt` for a level, `ChainsAt` for the loop
of a level and `ReadsWhole` for an expression, and lemmas that lead from one to the other.
A tree is written without parentheses at its own level and at those that bind less
tightly; at any other it is in parentheses, which are read at every level.  `Restored` is
what the induction over trees proves, all levels at once, and `of_own` gets it from the
tree's own level.

That a level stops where it should is a matter of the next token only, and `FollowsAt`
says which tokens these are.
-/
import MyLang.Lib.ReadBack
import MyLang.Render
import MyLang.Proofs.Literals
import MyLang.Proofs.SemaShape

namespace MyLang

open StateExcept ReadBack

variable {uninit : Int} {M N m k : Nat} {lex lex1 lex2 : List Piece} {p : Piece}
  {node left right a : AstNode}
  {follow : TokenStream → Prop} {α β : Type} {b : β}

/-! ### Primitives

What a token that was written gives to the functions that look at it.
-/

theorem piece_type {t : Token} (h : t.piece = p) : t.type = p.1 := congrArg Prod.fst h

theorem piece_value {t : Token} (h : t.piece = p) : t.value = p.2 := congrArg Prod.snd h

theorem punct_type (ty : TokenType) : (punct ty).1 = ty := by
  unfold punct
  split <;> rfl

theorem deref_some (t : Token) : deref (some t) = pure t := rfl

theorem readsBack_expect {ty : TokenType} {f : Option Token → Parser β} (hp : p.1 = ty)
    (hN : M ≤ N + 1) (hf : ∀ t : Token, t.piece = p →
      ReadsBack Token.piece N (f (some t)) lex follow b) :
    ReadsBack Token.piece M (expect ty >>= f) (p :: lex) follow b := by
  refine ReadsBack.take (g := some) (fun t ts ht => ?_) hN hf
  have htype : t.type = ty := (piece_type ht).trans hp
  show expect ty (t :: ts) = .ok (some t, ts)
  rw [← bind_pure (expect ty), expect_cons_bind htype]
  rfl

theorem readsBack_current {f : Option Token → Parser β}
    (hf : ∀ t : Token, t.piece = p → ReadsBack Token.piece N (f (some t)) (p :: lex) follow b) :
    ReadsBack Token.piece N (currentToken >>= f) (p :: lex) follow b :=
  ReadsBack.look (g := some) (fun _ _ => rfl) hf

theorem readsBack_next {f : Unit → Parser β} (hN : M ≤ N + 1)
    (hf : ReadsBack Token.piece N (f ()) lex follow b) :
    ReadsBack Token.piece M (nextToken >>= f) (p :: lex) follow b :=
  ReadsBack.take (g := fun _ => ()) (fun _ _ _ => rfl) hN fun _ _ => hf

/-! ### Levels

Level 0 is that of the operands, and the last one is that of an expression without `=`.
-/

/-- The parse function of a level. -/
def parserAt (uninit : Int) (parseExpression : Parser AstNode) : Nat → Parser AstNode
  | 0 => parsePostfixExpression uninit parseExpression
  | 1 => parseCastExpression uninit parseExpression
  | k + 2 => binaryLevel (fun t => decide (opLevel t = k + 2))
    (parserAt uninit parseExpression (k + 1))

/-- The last level of operators is `parse_conditional_expression`. -/
theorem parserAt_conditional (uninit : Int) (self : Parser AstNode) :
    parserAt uninit self 11 = parseConditionalExpression uninit self := by
  have hops : ∀ (isOp : TokenType → Bool) (k : Nat), (∀ t, isOp t = decide (opLevel t = k)) →
      (fun t => decide (opLevel t = k)) = isOp := fun _ _ h => (funext h).symm
  have h2 := hops isMultiplicativeOp 2 (by intro t; cases t <;> rfl)
  have h3 := hops isAdditiveOp 3 (by intro t; cases t <;> rfl)
  have h4 := hops isShiftOp 4 (by intro t; cases t <;> rfl)
  have h5 := hops isRelationalOp 5 (by intro t; cases t <;> rfl)
  have h6 := hops isEqualityOp 6 (by intro t; cases t <;> rfl)
  have h7 := hops (· = .and) 7 (by intro t; cases t <;> rfl)
  have h8 := hops (· = .xor) 8 (by intro t; cases t <;> rfl)
  have h9 := hops (· = .or) 9 (by intro t; cases t <;> rfl)
  have h10 := hops (· = .logAnd) 10 (by intro t; cases t <;> rfl)
  have h11 := hops (· = .logOr) 11 (by intro t; cases t <;> rfl)
  simp only [parserAt, Nat.reduceAdd, h2, h3, h4, h5, h6, h7, h8, h9, h10, h11]
  rfl

/-- What may follow what is read at a level. -/
def FollowsAt (k : Nat) (us : TokenStream) : Prop :=
  ∃ u us', us = u :: us' ∧ k < opLevel u.type ∧ u.type ≠ .lparen ∧ u.type ≠ .assign

theorem FollowsAt.mono {j : Nat} {us : TokenStream} (h : FollowsAt k us) (hj : j ≤ k) :
    FollowsAt j us := by
  obtain ⟨u, us', hus, hlevel, hparen, hasgn⟩ := h
  exact ⟨u, us', hus, Nat.lt_of_le_of_lt hj hlevel, hparen, hasgn⟩

/-- A level reads what is written as the tree. -/
def ReadsAt (k : Nat) (lex : List Piece) (node : AstNode) : Prop :=
  ∀ uninit N, ReadsBack Token.piece N (parserAt uninit (parseExpression uninit N) k) lex
    (FollowsAt k) node

/-- An expression reads what is written as the tree. -/
def ReadsWhole (lex : List Piece) (node : AstNode) : Prop :=
  ∀ uninit N, ReadsBack Token.piece N (parseExpression uninit (N + 1)) lex (FollowsAt 11) node

/-- Reading what is written as the tree comes to the loop of the level, the tree in hand. -/
def ChainsAt (k : Nat) (lex : List Piece) (node : AstNode) : Prop :=
  ∀ uninit N ts us r, ts.map Token.piece = lex → FollowsAt (k + 1) us → ts.length + us.length ≤ N →
    (∀ m, us.length < m → binaryLoop (fun t => decide (opLevel t = k + 2))
      (parserAt uninit (parseExpression uninit N) (k + 1)) m node us = r) →
    parserAt uninit (parseExpression uninit N) (k + 2) (ts ++ us) = r

/-- Without an operator there is nothing for the loop to do. -/
theorem binaryLoop_stop {isOp : TokenType → Bool} {operand : Parser AstNode} {t : Token}
    {us : TokenStream} (h : isOp t.type = false) (hm : 0 < m) :
    binaryLoop isOp operand m left (t :: us) = .ok (left, t :: us) := by
  obtain ⟨m, rfl⟩ := Nat.exists_eq_succ_of_ne_zero (Nat.ne_of_gt hm)
  rw [binaryLoop, currentToken_bind, List.head?_cons]
  dsimp only
  rw [h, if_neg Bool.false_ne_true]
  rfl

theorem ReadsAt.chains (h : ReadsAt (k + 1) lex node) : ChainsAt k lex node := by
  intro uninit N ts us r hts hus hlen hloop
  rw [parserAt, binaryLevel, StateExcept.bind_of_ok (h uninit N ts us hts hus hlen), get_bind_apply]
  exact hloop _ (Nat.lt_succ_self _)

theorem ChainsAt.reads (h : ChainsAt k lex node) : ReadsAt (k + 2) lex node := by
  intro uninit N ts us hts hus hlen
  refine h uninit N ts us _ hts (hus.mono (Nat.le_succ _)) hlen fun m hm => ?_
  obtain ⟨u, us', rfl, hlevel, -, -⟩ := hus
  exact binaryLoop_stop (by simpa using Nat.ne_of_gt hlevel) (Nat.zero_lt_of_lt hm)

/-- An operator and its right operand are a turn of the loop. -/
theorem ChainsAt.binExp {op : TokenType} {value : String} (hl : ChainsAt k lex1 left)
    (hr : ReadsAt (k + 1) lex2 right) (hop : opLevel op = k + 2) (hk : k ≤ 9) :
    ChainsAt k (lex1 ++ (op, value) :: lex2) (.binExp value op left right) := by
  intro uninit N ts us r hts hus hlen hloop
  obtain ⟨ts1, ts2, rfl, h1, h2⟩ := List.map_eq_append_iff.mp hts
  obtain ⟨t, ts2, rfl, ht, h2⟩ := List.map_eq_cons_iff.mp h2
  have hlevel : opLevel t.type = k + 2 := by rw [piece_type ht, hop]
  rw [List.length_append, List.length_cons] at hlen
  rw [List.append_assoc, List.cons_append]
  refine hl uninit N ts1 _ r h1 ⟨t, _, rfl, by omega, ?_, ?_⟩ ?_ fun m hm => ?_
  · intro hparen
    rw [hparen] at hlevel
    simp only [opLevel] at hlevel
    omega
  · intro hasgn
    rw [hasgn] at hlevel
    simp only [opLevel] at hlevel
    omega
  · rw [List.length_cons, List.length_append]
    omega
  · rw [List.length_cons, List.length_append] at hm
    obtain ⟨m, rfl⟩ := Nat.exists_eq_succ_of_ne_zero (Nat.ne_of_gt (Nat.zero_lt_of_lt hm))
    rw [binaryLoop, currentToken_bind, List.head?_cons]
    dsimp only
    rw [if_pos (decide_eq_true hlevel), nextToken_bind, List.tail_cons,
      StateExcept.bind_of_ok (hr uninit N ts2 us h2 hus (by omega)), piece_type ht, piece_value ht]
    exact hloop m (by omega)

/-! ### From one level to the next

A level that finds none of its operators hands on what the one before has read.
-/

theorem ReadsAt.unary (h : ReadsAt 0 lex node) (hhead : ∃ p rest, lex = p :: rest ∧ p.1 ≠ .not) :
    ReadsAt 1 lex node := by
  intro uninit N
  obtain ⟨p, rest, rfl, hp⟩ := hhead
  refine readsBack_current fun t ht => ?_
  show ReadsBack Token.piece N (if isUnaryOp t.type then _ else _) _ _ _
  rw [if_neg (by simpa [isUnaryOp, piece_type ht] using hp)]
  exact (h uninit N).mono (Nat.le_refl _) fun us hus => hus.mono (Nat.zero_le 1)

theorem ReadsAt.climb {j : Nat} (h : ReadsAt j lex node)
    (hhead : j = 0 → ∃ p rest, lex = p :: rest ∧ p.1 ≠ .not) (hk : j ≤ k) : ReadsAt k lex node := by
  induction k, hk using Nat.le_induction with
  | base => exact h
  | succ k hk ih =>
      cases k with
      | zero =>
          obtain rfl : j = 0 := Nat.le_zero.mp hk
          exact h.unary (hhead rfl)
      | succ k => exact ih.chains.reads

/-! ### What the levels are made of

An operand is a number, a name, a call, a negation, or an expression in parentheses.
-/

/-- Something that ends an expression. -/
def EndsExpr (us : TokenStream) : Prop :=
  ∃ u us', us = u :: us' ∧ (u.type = .rparen ∨ u.type = .comma ∨ u.type = .semicolon)

theorem EndsExpr.follows {us : TokenStream} (h : EndsExpr us) : FollowsAt 11 us := by
  obtain ⟨u, us', rfl, htype⟩ := h
  refine ⟨u, us', rfl, ?_⟩
  rcases htype with h | h | h <;> rw [h] <;> decide

theorem parseIdent_name {self : Parser AstNode} {t u : Token} {ts : TokenStream}
    (ht : t.type = .ident) (hu : u.type ≠ .lparen) :
    parseIdent self (t :: u :: ts) = .ok (.ident t.value none, u :: ts) := by
  have hcall : isFuncCallStart (t :: u :: ts) = .ok (false, t :: u :: ts) :=
    isFuncCallStart_eq_ok.mpr ⟨rfl, t, _, rfl, Or.inr ⟨ht, u, ts, rfl, by simpa using hu⟩⟩
  rw [parseIdent, currentToken_bind, List.head?_cons, deref_some_bind, StateExcept.bind_of_ok hcall]
  rfl

theorem parseIdent_readsBack {self : Parser AstNode} {value : String} :
    ReadsBack Token.piece N (parseIdent self) [(.ident, value)]
      (fun us => ∃ u us', us = u :: us' ∧ u.type ≠ .lparen) (.ident value none) := by
  intro ts us hts hus _
  obtain ⟨t, ts', rfl, ht, hts'⟩ := List.map_eq_cons_iff.mp hts
  rw [List.map_eq_nil_iff.mp hts']
  obtain ⟨u, us', rfl, hu⟩ := hus
  rw [List.singleton_append, parseIdent_name (piece_type ht) hu, piece_value ht]

theorem readsAt_intConst {value : Int} (h0 : 0 ≤ value) (hmax : value ≤ intMax) :
    ReadsAt 0 [(.num, Nat.repr value.toNat)] (.intConst value) := by
  intro uninit N ts us hts _ _
  obtain ⟨t, ts', rfl, ht, hts'⟩ := List.map_eq_cons_iff.mp hts
  have hlt : value.toNat < 2 ^ 31 := by
    unfold intMax at hmax
    omega
  rw [List.map_eq_nil_iff.mp hts', List.singleton_append, parserAt, parsePostfixExpression,
    parsePrimaryExpression_num (piece_type ht), literal, piece_value ht, str2int_repr hlt]
  dsimp only
  rw [Int.toNat_of_nonneg h0]

theorem readsAt_ident {value : String} : ReadsAt 0 [(.ident, value)] (.ident value none) := by
  intro uninit N
  refine readsBack_current fun t ht => ?_
  have htype : t.type = .ident := piece_type ht
  dsimp only
  rw [if_neg (by rw [htype]; decide), if_pos htype]
  refine parseIdent_readsBack.mono (Nat.le_refl _) fun us hus => ?_
  obtain ⟨u, us', hu, -, hparen, -⟩ := hus
  exact ⟨u, us', hu, hparen⟩

/-- What is in parentheses is read at every level. -/
theorem ReadsWhole.parens (h : ReadsWhole lex node) :
    ReadsAt 0 (punct .lparen :: (lex ++ [punct .rparen])) node := by
  intro uninit N
  cases N with
  | zero => exact ReadsBack.short (by simp)
  | succ N =>
      refine readsBack_current fun t ht => ?_
      have htype : t.type = .lparen := (piece_type ht).trans (punct_type _)
      dsimp only
      rw [if_neg (by rw [htype]; decide), if_neg (by rw [htype]; decide), if_pos htype]
      refine readsBack_next (Nat.le_refl _) ?_
      refine ReadsBack.bind (h uninit N) ?_ fun ts us hts _ => ?_
      · exact readsBack_expect (punct_type _) (Nat.le_succ _) fun _ _ => ReadsBack.pure
      · obtain ⟨u, us', rfl, hu, -⟩ := List.map_eq_cons_iff.mp hts
        exact EndsExpr.follows ⟨u, _, rfl, Or.inl ((piece_type hu).trans (punct_type _))⟩

/-- An expression that is no assignment is one of the last level. -/
theorem ReadsAt.whole (h : ReadsAt 11 lex node)
    (hstart : ∃ p rest, lex = p :: rest ∧ (p.1 = .ident → ∀ q ∈ rest.head?, q.1 ≠ .assign)) :
    ReadsWhole lex node := by
  intro uninit N
  have hconditional := h uninit N
  rw [parserAt_conditional] at hconditional
  refine ReadsBack.ahead (a := false) (fun ts us hts hus => ?_) hconditional
  obtain ⟨p, rest, rfl, hnext⟩ := hstart
  obtain ⟨t, ts', rfl, ht, hts'⟩ := List.map_eq_cons_iff.mp hts
  refine isVarAsgn_eq_ok.mpr ⟨rfl, t, ts' ++ us, rfl, ?_⟩
  by_cases htype : t.type = .ident
  · refine Or.inr ⟨htype, ?_⟩
    cases ts' with
    | nil =>
        obtain ⟨u, us', rfl, -, -, hasgn⟩ := hus
        exact ⟨u, us', rfl, by simpa using hasgn⟩
    | cons u ts' =>
        have hq : u.piece ∈ rest.head? := by simp [← hts']
        have hasgn : u.type ≠ .assign := hnext ((piece_type ht).symm.trans htype) u.piece hq
        exact ⟨u, ts' ++ us, rfl, by simpa using hasgn⟩
  · exact Or.inl ⟨htype, rfl⟩

/-- An assignment is told by its name and the `=` behind it. -/
theorem ReadsWhole.varAsgn {value : String} (h : ReadsWhole lex node) :
    ReadsWhole ((.ident, value) :: punct .assign :: lex)
      (.varAsgn (.lval .ident (.ident value none)) node) := by
  intro uninit N
  cases N with
  | zero => exact ReadsBack.short (by simp)
  | succ N =>
      refine ReadsBack.ahead (a := true) (fun ts us hts _ => ?_) ?_
      · obtain ⟨t, ts', rfl, ht, hts'⟩ := List.map_eq_cons_iff.mp hts
        obtain ⟨u, ts', rfl, hu, -⟩ := List.map_eq_cons_iff.mp hts'
        have hasgn : u.type = .assign := (piece_type hu).trans (punct_type _)
        exact isVarAsgn_eq_ok.mpr ⟨rfl, t, _, rfl,
          Or.inr ⟨piece_type ht, u, _, rfl, by simp [hasgn]⟩⟩
      · have hname : ReadsBack Token.piece (N + 1) (parseIdent (parseExpression uninit (N + 1)))
            [(.ident, value)] _ _ := parseIdent_readsBack
        refine ReadsBack.bind hname ?_ fun ts us hts _ => ?_
        · refine readsBack_expect (punct_type _) (Nat.le_refl _) fun _ _ => ?_
          exact ReadsBack.bind_nil (h uninit N) ReadsBack.pure fun us hus => hus
        · obtain ⟨u, us', rfl, hu, -⟩ := List.map_eq_cons_iff.mp hts
          refine ⟨u, _, rfl, ?_⟩
          rw [piece_type hu, punct_type]
          decide

/-! ### The arguments of a call

Arguments are read up to the closing parenthesis, which starts no expression.
-/

/-- What closes the arguments. -/
def Closes (us : TokenStream) : Prop := ∃ u us', us = u :: us' ∧ u.type = .rparen

/-- It does not look like the end of the arguments. -/
def Opens (lex : List Piece) : Prop := ∃ p rest, lex = p :: rest ∧ p.1 ≠ .rparen

/-- The loop over the arguments ends at the parenthesis behind the last one. -/
theorem parseArgs_readsBack {args acc : List AstNode}
    (h : ∀ a ∈ args, ReadsWhole (a.render 0) a.erase ∧ Opens (a.render 0)) (hM : M ≤ N)
    (hm : M < m) : ReadsBack Token.piece M (parseArgs (parseExpression uninit (N + 1)) m acc)
      (commas (AstNode.renderList 0 args)) Closes (acc ++ AstNode.eraseList args) := by
  induction args generalizing acc M m with
  | nil =>
      refine ReadsBack.stop fun us hus => ?_
      obtain ⟨u, us', rfl, hu⟩ := hus
      obtain ⟨m, rfl⟩ := Nat.exists_eq_succ_of_ne_zero (Nat.ne_of_gt (Nat.zero_lt_of_lt hm))
      rw [parseArgs, currentToken_bind, List.head?_cons, deref_some_bind, if_pos hu,
        AstNode.eraseList, List.append_nil]
      rfl
  | cons arg rest ih =>
      obtain ⟨m, rfl⟩ := Nat.exists_eq_succ_of_ne_zero (Nat.ne_of_gt (Nat.zero_lt_of_lt hm))
      obtain ⟨hread, p, lex', hlex, hp⟩ := h arg (by simp)
      rw [AstNode.renderList, commas, AstNode.eraseList, List.append_cons, hlex, List.cons_append]
      refine readsBack_current fun t ht => ?_
      rw [deref_some, pure_bind, if_neg (by rw [piece_type ht]; exact hp), ← List.cons_append,
        ← hlex]
      have hread : ReadsBack Token.piece M (parseExpression uninit (N + 1))
          (arg.render 0) EndsExpr arg.erase :=
        (hread uninit N).mono hM fun us hus => hus.follows
      -- behind an argument is the end, or a comma
      cases rest with
      | nil =>
          rw [AstNode.renderList, List.flatMap_nil, List.append_nil]
          refine hread.bind_nil (ReadsBack.stop fun us hus => ?_) fun us hus => ?_
          · obtain ⟨u, us', rfl, hu⟩ := hus
            rw [currentToken_bind, List.head?_cons, deref_some_bind, if_pos hu, AstNode.eraseList,
              List.append_nil]
            rfl
          · obtain ⟨u, us', rfl, hu⟩ := hus
            exact ⟨u, us', rfl, Or.inl hu⟩
      | cons arg' rest =>
          rw [AstNode.renderList, commas_tail]
          refine hread.bind ?_ fun ts us hts _ => ?_
          · refine readsBack_current fun u hu => ?_
            rw [deref_some, pure_bind, if_neg (by rw [piece_type hu, punct_type]; decide)]
            cases M with
            | zero => exact ReadsBack.short (by simp)
            | succ M =>
                refine readsBack_expect (punct_type _) (Nat.le_refl _) fun _ _ => ?_
                exact ih (fun a ha => h a (by simp [ha])) (by omega) (by omega)
          · obtain ⟨u, us', rfl, hu, -⟩ := List.map_eq_cons_iff.mp hts
            exact ⟨u, _, rfl, Or.inr (Or.inl ((piece_type hu).trans (punct_type _)))⟩

/-- A call is told by its name and the parenthesis behind it. -/
theorem readsAt_funcCall {value : String} {args : List AstNode}
    (h : ∀ a ∈ args, ReadsWhole (a.render 0) a.erase ∧ Opens (a.render 0)) :
    ReadsAt 0 ((.ident, value) :: punct .lparen :: (commas (AstNode.renderList 0 args)
      ++ [punct .rparen])) (.funcCall value (AstNode.eraseList args) none) := by
  intro uninit N
  cases N with
  | zero => exact ReadsBack.short (by simp)
  | succ N =>
      refine readsBack_current fun t ht => ?_
      have htype : t.type = .ident := piece_type ht
      dsimp only
      rw [if_neg (by rw [htype]; decide), if_pos htype]
      refine readsBack_current fun t ht => ?_
      rw [deref_some, pure_bind]
      refine ReadsBack.ahead (a := true) (fun ts us hts _ => ?_) ?_
      · obtain ⟨t, ts', rfl, ht, hts'⟩ := List.map_eq_cons_iff.mp hts
        obtain ⟨u, ts', rfl, hu, -⟩ := List.map_eq_cons_iff.mp hts'
        have hparen : u.type = .lparen := (piece_type hu).trans (punct_type _)
        exact isFuncCallStart_eq_ok.mpr ⟨rfl, t, _, rfl,
          Or.inr ⟨piece_type ht, u, _, rfl, by simp [hparen]⟩⟩
      · refine readsBack_expect rfl (Nat.le_refl _) fun t ht => ?_
        rw [deref_some, pure_bind]
        refine readsBack_expect (punct_type _) (Nat.le_succ _) fun _ _ => ?_
        refine ReadsBack.sized (f := fun n => parseArgs (parseExpression uninit (N + 1)) (n + 1)
          [] >>= fun args =>
          expect .rparen >>= fun _ => pure (AstNode.funcCall t.value args none)) fun M hM => ?_
        have hargs : ReadsBack Token.piece M (parseArgs (parseExpression uninit (N + 1)) (M + 1)
            []) _ _ _ :=
          parseArgs_readsBack h hM (Nat.lt_succ_self M)
        refine hargs.bind ?_ fun ts us hts _ => ?_
        · refine readsBack_expect (punct_type _) (Nat.le_succ _) fun _ _ => ?_
          rw [piece_value ht, List.nil_append]
          exact ReadsBack.pure
        · obtain ⟨u, us', rfl, hu, -⟩ := List.map_eq_cons_iff.mp hts
          exact ⟨u, _, rfl, (piece_type hu).trans (punct_type _)⟩

/-! ### Every expression

How an expression starts decides which function reads it, so it is proved along with the
rest.
-/

theorem AstNode.eq_of_isTarget {target : AstNode} (h : target.isTarget = true) :
    ∃ value symbol, target = .lval .ident (.ident value symbol) := by
  unfold isTarget at h
  split at h
  · exact ⟨_, _, rfl⟩
  · cases h

theorem AstNode.exprsWF_iff {nodes : List AstNode} :
    exprsWF nodes = true ↔ ∀ n ∈ nodes, n.exprWF = true := by
  induction nodes with
  | nil => simp [exprsWF]
  | cons n nodes ih => simp [exprsWF, ih]

theorem ReadsAt.not {value : String} (h : ReadsAt 0 lex node) :
    ReadsAt 1 ((.not, value) :: lex) (.unaryExpr node value .not) := by
  intro uninit N
  refine readsBack_current fun t ht => ?_
  have htype : t.type = .not := piece_type ht
  rw [deref_some, pure_bind, if_pos (by rw [htype]; rfl)]
  refine readsBack_next (Nat.le_succ N) ?_
  refine ReadsBack.bind_nil (h uninit N) ?_ fun us hus => hus.mono (Nat.zero_le 1)
  rw [htype, piece_value ht]
  exact ReadsBack.pure

/-- The tokens an expression may start with. -/
def startsExpr : TokenType → Bool
  | .num | .ident | .lparen | .not => true
  | _ => false

/-- How an expression starts: at level 0 not with `!`, and if it is no assignment not like one. -/
def Starts (node : AstNode) (lex : List Piece) : Prop :=
  ∃ p rest, lex = p :: rest ∧ startsExpr p.1 = true ∧ (node.level = 0 → p.1 ≠ .not) ∧
    (node.level ≤ 11 → p.1 = .ident → ∀ q ∈ rest.head?, q.1 ≠ .assign)

theorem two_le_opLevel (t : TokenType) : 2 ≤ opLevel t := by
  cases t <;> decide

theorem opLevel_assign : opLevel .assign = 12 := rfl

/-- How an expression starts, by the kind of its first operand. -/
theorem render_starts (h : node.exprWF = true) : Starts node (node.render 0) := by
  induction node with
  | intConst value => exact ⟨_, [], rfl, rfl, by simp, by simp⟩
  | ident value symbol => exact ⟨_, [], rfl, rfl, by simp, by simp⟩
  | funcCall value args symbol =>
      refine ⟨_, _, rfl, rfl, by simp, fun _ _ q hq => ?_⟩
      rw [List.head?_cons, Option.mem_some_iff] at hq
      rw [← hq, punct_type]
      decide
  | binExp value op left right ihl ihr =>
      simp only [AstNode.exprWF, Bool.and_eq_true, decide_eq_true_eq] at h
      have hlevel : (AstNode.binExp value op left right).level ≠ 0 := by
        have := two_le_opLevel op
        simp only [AstNode.level]
        omega
      rw [AstNode.render, atLevel]
      by_cases hparen : left.level ≤ opLevel op
      · obtain ⟨p, rest, hlex, hstart, -, hnext⟩ := ihl h.1.2
        rw [if_pos hparen, hlex]
        refine ⟨p, _, rfl, hstart, fun h0 => absurd h0 hlevel, fun _ hp q hq => ?_⟩
        cases rest with
        | nil =>
            -- the operand is a name, and behind it is the operator
            obtain rfl : (op, value) = q := by simpa using hq
            intro hasgn
            rw [show op = .assign from hasgn, opLevel_assign] at h
            omega
        | cons q' rest => exact hnext (by omega) hp q (by simpa using hq)
      · rw [if_neg hparen]
        refine ⟨_, _, rfl, ?_, fun h0 => absurd h0 hlevel, fun _ hp => ?_⟩
        · rw [punct_type]
          rfl
        · rw [punct_type] at hp
          cases hp
  | unaryExpr postfixExpr value op ih =>
      simp only [AstNode.exprWF, Bool.and_eq_true, decide_eq_true_eq] at h
      obtain ⟨rfl, -⟩ := h
      exact ⟨_, _, rfl, rfl, by simp [AstNode.level], by simp⟩
  | varAsgn target rval _ _ =>
      rw [AstNode.exprWF, Bool.and_eq_true] at h
      obtain ⟨value, symbol, rfl⟩ := AstNode.eq_of_isTarget h.1
      exact ⟨_, _, rfl, rfl, by simp [AstNode.level], by simp [AstNode.level]⟩
  | _ => simp [AstNode.exprWF] at h

/-- A tree is read as it is written, at every level. -/
structure Restored (node : AstNode) : Prop where
  whole : ReadsWhole (node.render 0) node.erase
  at_level : ∀ k, k ≤ 11 → ReadsAt k (atLevel k node.level (node.render 0)) node.erase
  chains : ∀ k, k ≤ 9 → ChainsAt k (atLevel (k + 2) node.level (node.render 0)) node.erase

/-- What a tree is read as at its own level and behind it is enough. -/
theorem Restored.of_own (whole : ReadsWhole (node.render 0) node.erase)
    (own : ∀ k, node.level ≤ k → k ≤ 11 → ReadsAt k (node.render 0) node.erase)
    (chain : ∀ k, node.level = k + 2 → k ≤ 9 → ChainsAt k (node.render 0) node.erase) :
    Restored node := by
  have hat : ∀ k, k ≤ 11 → ReadsAt k (atLevel k node.level (node.render 0)) node.erase := by
    intro k hk
    rw [atLevel]
    by_cases hlevel : node.level ≤ k
    · rw [if_pos hlevel]
      exact own k hlevel hk
    · rw [if_neg hlevel]
      refine whole.parens.climb (fun _ => ⟨_, _, rfl, ?_⟩) (Nat.zero_le k)
      rw [punct_type]
      decide
  refine ⟨whole, hat, fun k hk => ?_⟩
  by_cases hlevel : node.level = k + 2
  · rw [atLevel, if_pos (Nat.le_of_eq hlevel)]
    exact chain k hlevel hk
  · -- in parentheses or not, the tree is read one level below
    have hsame : atLevel (k + 2) node.level (node.render 0)
        = atLevel (k + 1) node.level (node.render 0) := by
      unfold atLevel
      by_cases hle : node.level ≤ k + 1
      · rw [if_pos hle, if_pos (by omega)]
      · rw [if_neg hle, if_neg (by omega)]
    rw [hsame]
    exact (hat (k + 1) (by omega)).chains

/-- The same for what is no assignment and no binary operator. -/
theorem Restored.of_tight (hlevel : node.level ≤ 1) (hstart : Starts node (node.render 0))
    (h : ReadsAt node.level (node.render 0) node.erase) : Restored node := by
  obtain ⟨p, rest, hlex, -, hnot, hnext⟩ := hstart
  have own : ∀ k, node.level ≤ k → ReadsAt k (node.render 0) node.erase :=
    fun k hk => h.climb (fun h0 => ⟨p, rest, hlex, hnot h0⟩) hk
  refine Restored.of_own ?_ (fun k hk _ => own k hk) (fun k hk _ => by omega)
  exact (own 11 (by omega)).whole ⟨p, rest, hlex, hnext (by omega)⟩

theorem Starts.opens (h : Starts node lex) : Opens lex := by
  obtain ⟨p, rest, hlex, hstart, -, -⟩ := h
  refine ⟨p, rest, hlex, fun hp => ?_⟩
  rw [hp] at hstart
  cases hstart

/-- **The parser of expressions reads back every expression as it is written.** -/
theorem exprWF_restored (h : node.exprWF = true) : Restored node := by
  have hstart : Starts node (node.render 0) := render_starts h
  -- on the tree, with all levels at once
  induction node with
  | intConst value =>
      simp only [AstNode.exprWF, Bool.and_eq_true, decide_eq_true_eq] at h
      exact Restored.of_tight (Nat.zero_le 1) hstart (readsAt_intConst h.1 h.2)
  | ident value symbol => exact Restored.of_tight (Nat.zero_le 1) hstart readsAt_ident
  | funcCall value args symbol ih =>
      rw [AstNode.exprWF, AstNode.exprsWF_iff] at h
      refine Restored.of_tight (Nat.zero_le 1) hstart (readsAt_funcCall fun a ha => ?_)
      have hs : Starts a (a.render 0) := render_starts (h a ha)
      exact ⟨(ih a ha (h a ha) hs).whole, hs.opens⟩
  | binExp value op left right ihl ihr =>
      have hwf := h
      simp only [AstNode.exprWF, Bool.and_eq_true, decide_eq_true_eq] at h
      obtain ⟨⟨hop, hl⟩, hr⟩ := h
      obtain ⟨k, hk⟩ := Nat.exists_eq_add_of_le' (two_le_opLevel op)
      have hlr := ihl hl (render_starts hl)
      have hrr := ihr hr (render_starts hr)
      have hchain : ChainsAt k ((AstNode.binExp value op left right).render 0)
          (AstNode.binExp value op left right).erase := by
        rw [AstNode.render, hk]
        exact (hlr.chains k (by omega)).binExp (hrr.at_level (k + 1) (by omega)) hk (by omega)
      obtain ⟨p, rest, hlex, -, -, hnext⟩ := hstart
      have own : ∀ j, k + 2 ≤ j → ReadsAt j ((AstNode.binExp value op left right).render 0)
          (AstNode.binExp value op left right).erase :=
        fun j hj => hchain.reads.climb (fun h0 => by omega) hj
      refine Restored.of_own ?_ (fun j hj _ => own j ?_) fun j hj _ => ?_
      · refine (own 11 (by omega)).whole ⟨p, rest, hlex, hnext ?_⟩
        simp only [AstNode.level]
        omega
      · simpa only [AstNode.level, hk] using hj
      · simp only [AstNode.level] at hj
        obtain rfl : j = k := by omega
        exact hchain
  | unaryExpr postfixExpr value op ih =>
      simp only [AstNode.exprWF, Bool.and_eq_true, decide_eq_true_eq] at h
      obtain ⟨rfl, he⟩ := h
      exact Restored.of_tight (Nat.le_refl 1) hstart
        ((ih he (render_starts he)).at_level 0 (by omega)).not
  | varAsgn target rval _ ihr =>
      rw [AstNode.exprWF, Bool.and_eq_true] at h
      obtain ⟨value, symbol, rfl⟩ := AstNode.eq_of_isTarget h.1
      refine Restored.of_own (ihr h.2 (render_starts h.2)).whole.varAsgn (fun k hk hk' => ?_)
        fun k hk _ => ?_
      · simp only [AstNode.level] at hk
        omega
      · simp only [AstNode.level] at hk
        omega
  | _ => simp [AstNode.exprWF] at h

end MyLang
