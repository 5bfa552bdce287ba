/-
When `type_check` goes to each node once.

`Tracks` is what is kept of a part of the check while another part is put behind it: that
it ends as it does without a log, where the nodes it goes to stand, what its `plainType`
and its `doubles` are, and that it goes to some node twice just in case it `doubles`.
Parts of a tree that stand in different places share no node, so the parts of a check add
up.

A node is named by its path from the root, and the log is the list of these paths in the
order in which `type_check` is called.  The log does not change what the check does
(`typeCheckTraced_run`), so what is said of it is said of `type_check` itself.

Only one case goes to a node twice: a binary operator has the type of its left operand
checked, then both, which is the left one again.  If the first time does not pass, there
is no second one.  So `doubles` looks for an operator that the check comes to and whose
left operand passes.
-/
import MyLang.Visits
import MyLang.Proofs.Ast

namespace MyLang

variable {entries : List SymTabEntry} {α β : Type}

/-! ### Parts of a check

Two parts that log nodes in different places log no node twice between them.
-/

/-- The check `x`, which is `y` without its log, goes to the nodes `t`, all of them in `S`. -/
structure Tracks (S : Path → Prop) (n : Nat) (x : Traced α) (y : Except SemaError α)
    (plain : Option α) (doubles : Bool) (t : List Path) : Prop where
  run : ∀ log, x log = (y, log ++ t)
  inside : ∀ p ∈ t, S p
  ok : ∀ a, plain = some a → y = .ok a
  plain : doubles = false → ∀ a, y = .ok a → plain = some a
  once : doubles = false → t.Nodup ∧ t.length ≤ n
  twice : doubles = true → ¬ t.Nodup

variable {S T : Path → Prop} {n m : Nat} {x : Traced α} {y : Except SemaError α} {plain : Option α}
  {f : α → Traced β} {g : α → Except SemaError β} {plain' : α → Option β} {doubles doubles' : Bool}
  {t : List Path} {path : Path}

theorem Tracks.mono (h : Tracks S n x y plain doubles t) (hS : ∀ p, S p → T p) (hn : n ≤ m) :
    Tracks T m x y plain doubles t where
  run := h.run
  inside := fun p hp => hS p (h.inside p hp)
  ok := h.ok
  plain := h.plain
  once := fun hd => ⟨(h.once hd).1, (h.once hd).2.trans hn⟩
  twice := h.twice

/-- A check that calls nothing, and passes as `plain` says. -/
theorem tracks_quiet (h : ∀ a, plain = some a ↔ y = .ok a) :
    Tracks S n (quiet y) y plain false [] where
  run := fun log => by
    rw [List.append_nil]
    rfl
  inside := fun p hp => absurd hp List.not_mem_nil
  ok := fun a ha => (h a).mp ha
  plain := fun _ a ha => (h a).mpr ha
  once := fun _ => ⟨List.nodup_nil, Nat.zero_le _⟩
  twice := fun hd => absurd hd (by simp)

theorem tracks_pure (a : α) : Tracks S n (pure a) (pure a) (some a) false [] := by
  refine tracks_quiet fun b => ?_
  rw [Option.some.injEq]
  exact ⟨fun h => by rw [h], fun h => Except.ok.inj h⟩

theorem tracks_throw (e : SemaError) : Tracks S n (throw e : Traced α) (throw e) none false [] := by
  refine tracks_quiet fun b => ⟨fun h => ?_, fun h => ?_⟩
  · cases h
  · cases h

theorem tracks_symbolType (symbol : Option SymId) :
    Tracks S n (quiet (symbolType entries symbol)) (symbolType entries symbol)
      (entryType entries symbol) false [] := by
  refine tracks_quiet fun a => ?_
  unfold symbolType entryType
  cases symbol.bind (entries[·]?) with
  | none => simp
  | some entry => simp

theorem tracks_assertTypeEq (type1 type2 : TypeSpecifier) :
    Tracks S n (quiet (assertTypeEq type1 type2)) (assertTypeEq type1 type2)
      (sameType type1 type2) false [] := by
  refine tracks_quiet fun a => ?_
  unfold assertTypeEq sameType
  by_cases h : type1 = type2
  · simp [h]
  · simp [h]

theorem tracks_visit : Tracks (· = path) 1 (visit path) (.ok ()) (some ()) false [path] where
  run := fun log => rfl
  inside := fun p hp => List.mem_singleton.mp hp
  ok := fun a _ => rfl
  plain := fun _ a _ => rfl
  once := fun _ => ⟨List.nodup_singleton _, Nat.le_refl _⟩
  twice := fun hd => absurd hd (by simp)

theorem traced_bind (log : List Path) : (x >>= f) log = ExceptT.bindCont f (x log).1 (x log).2 :=
  rfl

/-- **One part behind another, in another place.** -/
theorem Tracks.bind (hx : Tracks S n x y plain doubles t)
    (hf : ∀ a, ∃ t', Tracks T m (f a) (g a) (plain' a) doubles' t') (hdisj : ∀ p, S p → ¬ T p) :
    ∃ t', Tracks (fun p => S p ∨ T p) (n + m) (x >>= f) (y >>= g) (plain >>= plain')
      (doubles || (plain.isSome && doubles')) (t ++ t') := by
  cases hy : y with
  | error e =>
      subst hy
      have hplain : plain = none := by
        cases hp : plain with
        | none => rfl
        | some a => exact absurd (hx.ok a hp) (by simp)
      subst hplain
      refine ⟨[], ?_, ?_, ?_, ?_, ?_, ?_⟩
      · intro log
        rw [List.append_nil]
        rw [traced_bind, hx.run]
        rfl
      · intro p hp
        exact Or.inl (hx.inside p (by simpa using hp))
      · intro a ha
        cases ha
      · intro _ a ha
        cases ha
      · intro hd
        rw [List.append_nil]
        obtain ⟨hnd, hlen⟩ := hx.once (by simpa using hd)
        exact ⟨hnd, by omega⟩
      · intro hd
        rw [List.append_nil]
        exact hx.twice (by simpa using hd)
  | ok a =>
      subst hy
      obtain ⟨t', ht'⟩ := hf a
      refine ⟨t', ?_, ?_, ?_, ?_, ?_, ?_⟩
      · intro log
        rw [traced_bind, hx.run]
        show f a (log ++ t) = _
        rw [ht'.run, List.append_assoc]
        rfl
      · intro p hp
        exact (List.mem_append.mp hp).imp (hx.inside p) (ht'.inside p)
      · intro b hb
        obtain ⟨a', ha', hb⟩ := Option.bind_eq_some_iff.mp hb
        obtain rfl := Except.ok.inj (hx.ok a' ha')
        exact ht'.ok b hb
      · intro hd b hb
        obtain ⟨hd1, hd2⟩ := Bool.or_eq_false_iff.mp hd
        have ha := hx.plain hd1 a rfl
        subst ha
        exact ht'.plain (by simpa using hd2) b hb
      · intro hd
        obtain ⟨hd1, hd2⟩ := Bool.or_eq_false_iff.mp hd
        obtain ⟨hnd1, hlen1⟩ := hx.once hd1
        have ha := hx.plain hd1 a rfl
        subst ha
        obtain ⟨hnd2, hlen2⟩ := ht'.once (by simpa using hd2)
        refine ⟨List.nodup_append.mpr ⟨hnd1, hnd2, ?_⟩, by rw [List.length_append]; omega⟩
        rintro p hp q hq rfl
        exact hdisj p (hx.inside p hp) (ht'.inside p hq)
      · intro hd hnd
        obtain ⟨hnd1, hnd2, -⟩ := List.nodup_append.mp hnd
        rcases Bool.or_eq_true_iff.mp hd with hd | hd
        · exact hx.twice hd hnd1
        · exact ht'.twice (Bool.and_eq_true_iff.mp hd).2 hnd2

/-- A part whose result is not asked for. -/
theorem Tracks.void (hx : Tracks S n x y plain doubles t) :
    ∃ t', Tracks S n (x >>= fun _ => pure TypeSpecifier.void) (y >>= fun _ => pure .void)
      (plain >>= fun _ => some .void) doubles t' := by
  obtain ⟨t', ht'⟩ := hx.bind (T := fun _ => False) (m := 0)
    (fun _ => ⟨[], tracks_pure TypeSpecifier.void⟩) fun p _ hp => hp
  rw [Bool.and_false, Bool.or_false] at ht'
  refine ⟨_, ht'.mono (fun p hp => hp.resolve_right id) (Nat.le_refl _)⟩

section Compare

variable {x x' : Traced TypeSpecifier} {y y' : Except SemaError TypeSpecifier}
  {plain plain' : Option TypeSpecifier}

/-- Two parts of which the types are compared. -/
theorem Tracks.compare (r : TypeSpecifier → TypeSpecifier) (hx : Tracks S n x y plain doubles t)
    (hx' : ∃ t', Tracks T m x' y' plain' doubles' t') (hdisj : ∀ p, S p → ¬ T p) :
    ∃ t', Tracks (fun p => S p ∨ T p) (n + m)
      (x >>= fun expected => x' >>= fun actual => quiet (assertTypeEq expected actual) >>=
        fun _ => pure (r expected))
      (y >>= fun expected => y' >>= fun actual => assertTypeEq expected actual >>= fun _ => pure
        (r expected))
      (plain >>= fun expected => plain' >>= fun actual => sameType expected actual >>= fun _ => some
        (r expected))
      (doubles || (plain.isSome && doubles')) t' := by
  refine ⟨_, (hx.bind (fun expected => ?_) hdisj).choose_spec⟩
  obtain ⟨t', hx'⟩ := hx'
  have hassert : ∀ actual, ∃ t', Tracks (fun _ => False) 0
      (quiet (assertTypeEq expected actual) >>= fun _ => pure (r expected))
      (assertTypeEq expected actual >>= fun _ => pure (r expected))
      (sameType expected actual >>= fun _ => some (r expected)) false t' := by
    intro actual
    obtain ⟨t', ht'⟩ := (tracks_assertTypeEq (S := fun _ => False) (n := 0) expected actual).bind
      (m := 0) (fun _ => ⟨[], tracks_pure (r expected)⟩) fun p _ hp => hp
    rw [Bool.and_false, Bool.or_false] at ht'
    exact ⟨_, ht'.mono (fun p hp => hp.elim id id) (Nat.le_refl _)⟩
  obtain ⟨t2, ht2⟩ := hx'.bind hassert fun p _ hp => hp
  rw [Bool.and_false, Bool.or_false] at ht2
  exact ⟨_, ht2.mono (fun p hp => hp.resolve_right id) (Nat.le_refl _)⟩

/-- A symbol and a part, of which the types are compared. -/
theorem Tracks.compareSymbol (r : TypeSpecifier → TypeSpecifier) (symbol : Option SymId)
    (hx : Tracks S n x y plain doubles t) :
    ∃ t', Tracks S n
      (quiet (symbolType entries symbol) >>= fun expected => x >>= fun actual =>
        quiet (assertTypeEq expected actual) >>= fun _ => pure (r expected))
      (symbolType entries symbol >>= fun expected => y >>= fun actual =>
        assertTypeEq expected actual >>= fun _ => pure (r expected))
      (entryType entries symbol >>= fun expected => plain >>= fun actual =>
        sameType expected actual >>= fun _ => some (r expected))
      ((entryType entries symbol).isSome && doubles) t' := by
  have hsymbol : Tracks (fun _ => False) 0 (quiet (symbolType entries symbol))
    (symbolType entries symbol)
      (entryType entries symbol) false [] := tracks_symbolType symbol
  obtain ⟨t', ht'⟩ := hsymbol.compare r ⟨t, hx⟩ fun _ hp _ => hp
  exact ⟨t', ht'.mono (fun p hp => hp.resolve_left id) (by omega)⟩

/-- One part, and the same part again: if it passes, it has gone to its nodes twice. -/
theorem Tracks.double (hx : Tracks S n x y plain doubles t) (hne : ∀ a, y = .ok a → t ≠ []) :
    ∃ t', Tracks S n
      (x >>= fun expected => x >>= fun actual => quiet (assertTypeEq expected actual) >>=
        fun _ => pure expected)
      (y >>= fun expected => y >>= fun actual => assertTypeEq expected actual >>=
        fun _ => pure expected)
      none (doubles || plain.isSome) t' := by
  cases hy : y with
  | error e =>
      subst hy
      have hplain : plain = none := by
        cases hp : plain with
        | none => rfl
        | some a => exact absurd (hx.ok a hp) (by simp)
      rw [hplain, Option.isSome_none, Bool.or_false]
      refine ⟨t, ?_, hx.inside, ?_, ?_, hx.once, hx.twice⟩
      · intro log
        rw [traced_bind, hx.run]
        rfl
      · intro a ha
        cases ha
      · intro _ a ha
        cases ha
  | ok a =>
      subst hy
      have hdouble : (doubles || plain.isSome) = true := by
        cases hd : doubles with
        | true => rfl
        | false => rw [hx.plain hd a rfl]; rfl
      rw [hdouble]
      refine ⟨t ++ t, ?_, ?_, ?_, ?_, ?_, ?_⟩
      · intro log
        rw [traced_bind, hx.run]
        show (x >>= _) (log ++ t) = _
        rw [traced_bind, hx.run, ← List.append_assoc]
        show (quiet (assertTypeEq a a) >>= fun _ => pure a : Traced TypeSpecifier)
          (log ++ t ++ t) = _
        rw [traced_bind]
        show _ = ((assertTypeEq a a >>= fun _ => pure a : Except SemaError TypeSpecifier), _)
        have hself : assertTypeEq a a = .ok () := by simp [assertTypeEq]
        rw [hself]
        rfl
      · intro p hp
        exact (List.mem_append.mp hp).elim (hx.inside p) (hx.inside p)
      · intro b hb
        cases hb
      · intro hd
        cases hd
      · intro hd
        cases hd
      · intro _ hnd
        obtain ⟨p, hp⟩ := List.exists_mem_of_ne_nil t (hne a rfl)
        exact (List.nodup_append.mp hnd).2.2 p hp p hp rfl

end Compare

/-! ### One tree

What is logged for a child is below its path, and the paths of two children are apart.
-/

/-- Below the child `i` or a later one. -/
def From (path : Path) (i : Nat) (p : Path) : Prop := ∃ j, i ≤ j ∧ path ++ [j] <+: p

theorem not_from_self {i : Nat} : ¬ From path i path := by
  rintro ⟨j, -, hp⟩
  have hlen := hp.length_le
  rw [List.length_append, List.length_singleton] at hlen
  omega

theorem child_inj {i j : Nat} {p : Path} (hi : path ++ [i] <+: p) (hj : path ++ [j] <+: p) :
    i = j := by
  have heq := List.prefix_of_prefix_length_le hi hj (by simp)
  simpa using heq

theorem from_child {i : Nat} {p : Path} (h : path ++ [i] <+: p) : From path 0 p :=
  ⟨i, Nat.zero_le _, h⟩

/-- The calls made for the node at `path`: they are on it and on nodes below it. -/
def TracksNode (entries : List SymTabEntry) (node : AstNode) : Prop :=
  ∀ path, ∃ t, Tracks (path <+: ·) node.nodeCount (typeCheckTraced entries path node)
    (typeCheck entries node)
    (node.plainType entries) (node.doubles entries) t ∧ (node.nonNull = true → path ∈ t)

variable {node : AstNode}

/-- A call on a node, and what it does with the children. -/
theorem Tracks.visited (path : Path) (hx : ∃ t, Tracks S n x y plain doubles t)
    (hS : ∀ p, S p → From path 0 p) (hn : n + 1 ≤ m) :
    ∃ t, Tracks (path <+: ·) m (visit path >>= fun _ => x) y plain doubles t ∧
      (node.nonNull = true → path ∈ t) := by
  obtain ⟨t, ht⟩ := tracks_visit.bind (fun _ => hx) fun p hp hT => not_from_self (hp ▸ hS p hT)
  refine ⟨_, ht.mono (fun p hp => ?_) (by omega), fun _ => by simp⟩
  rcases hp with rfl | hp
  · exact List.prefix_refl _
  · obtain ⟨j, -, hj⟩ := hS p hp
    exact (List.prefix_append _ _).trans hj

/-- A call on a node that has no children to go to. -/
theorem Tracks.leaf (path : Path) (m : Nat) (hx : Tracks (fun _ => False) 0 x y plain doubles t) :
    ∃ t, Tracks (path <+: ·) (m + 1) (visit path >>= fun _ => x) y plain doubles t ∧
      (node.nonNull = true → path ∈ t) :=
  Tracks.visited path ⟨t, hx⟩ (fun _ hp => hp.elim) (Nat.le_add_left 1 m)

/-- The elements of a list, which stand in different places. -/
theorem tracks_list {body : List AstNode} (ih : ∀ node ∈ body, TracksNode entries node)
    (path : Path) (i : Nat) :
    ∃ t, Tracks (From path i) (AstNode.nodeCountList body) (typeCheckListTraced entries path i body)
      (typeCheckList entries body) (AstNode.plainTypes entries body)
      (AstNode.doublesList entries body) t := by
  induction body generalizing i with
  | nil => exact ⟨[], tracks_pure ()⟩
  | cons node rest ihl =>
      obtain ⟨t, ht, -⟩ := ih node List.mem_cons_self (path ++ [i])
      have hrest := ihl (fun node' hmem => ih node' (List.mem_cons_of_mem _ hmem)) (i + 1)
      obtain ⟨t', ht'⟩ := ht.bind (fun _ => hrest) fun p hp hlater => by
        obtain ⟨j, hij, hj⟩ := hlater
        have heq := child_inj hp hj
        omega
      refine ⟨_, ht'.mono (fun p hp => ?_) (Nat.le_refl _)⟩
      rcases hp with hp | ⟨j, hij, hj⟩
      · exact ⟨i, Nat.le_refl _, hp⟩
      · exact ⟨j, by omega, hj⟩

/-- **What `type_check` does with a tree.** -/
theorem tracks_node (node : AstNode) : TracksNode entries node := by
  -- on the tree; a node is logged first, and then come those of its parts
  induction node with
  | intConst value => exact fun path => Tracks.leaf path 0 (tracks_pure _)
  | ident value symbol => exact fun path => Tracks.leaf path 0 (tracks_symbolType symbol)
  | funcCall value args symbol _ => exact fun path => Tracks.leaf path _ (tracks_symbolType symbol)
  | enum value enums => exact fun path => Tracks.leaf path 0 (tracks_pure _)
  | varDec value type symbol => exact fun path => Tracks.leaf path 0 (tracks_pure _)
  | emptyExpr => exact fun path => Tracks.leaf path 0 (tracks_pure _)
  | null => exact fun path => ⟨_, tracks_throw _, fun h => absurd h (by simp [AstNode.nonNull])⟩
  | lval kind target _ =>
      intro path
      cases kind with
      | ident =>
          cases target with
          | ident value symbol => exact Tracks.leaf path _ (tracks_symbolType symbol)
          | _ => exact Tracks.leaf path _ (tracks_throw _)
  | binExp value opType left right ihl _ =>
      intro path
      obtain ⟨t, ht, hleft⟩ := ihl (path ++ [0])
      have hne : ∀ a, typeCheck entries left = .ok a → t ≠ [] := by
        intro a ha
        have hnull : left.nonNull = true := by
          cases left with
          | null => cases ha
          | _ => rfl
        exact List.ne_nil_of_mem (hleft hnull)
      exact Tracks.visited path (ht.double hne) (fun p => from_child)
        (show left.nodeCount + 1 ≤ left.nodeCount + right.nodeCount + 1 by omega)
  | compStmt body ih =>
      intro path
      obtain ⟨t, ht⟩ := tracks_list ih path 0
      exact Tracks.visited path ht.void (fun p hp => hp) (Nat.le_refl _)
  | funcDef value type body params symbol ih =>
      intro path
      obtain ⟨t, ht, -⟩ := ih (path ++ [0])
      exact Tracks.visited path ht.void (fun p => from_child) (Nat.le_refl _)
  | varDef value type expr symbol ih =>
      intro path
      obtain ⟨t, ht, -⟩ := ih (path ++ [0])
      exact Tracks.visited path (ht.compareSymbol (fun _ => .void) symbol) (fun p => from_child)
        (Nat.le_refl _)
  | ret expr func ih =>
      intro path
      obtain ⟨t, ht, -⟩ := ih (path ++ [0])
      exact Tracks.visited path (ht.compareSymbol id func) (fun p => from_child) (Nat.le_refl _)
  | varAsgn target rval iht ihr =>
      intro path
      obtain ⟨t, ht, -⟩ := iht (path ++ [0])
      obtain ⟨t', ht', -⟩ := ihr (path ++ [1])
      have hcompare := ht.compare id ⟨t', ht'⟩ fun p hp hp' => absurd (child_inj hp hp') (by simp)
      exact Tracks.visited path hcompare (fun p hp => hp.elim from_child from_child) (Nat.le_refl _)
  | ifElse ifExpr ifBody elseBody _ ihb ihe =>
      intro path
      obtain ⟨t, ht, -⟩ := ihb (path ++ [1])
      cases hnull : elseBody.nonNull with
      | false =>
          cases elseBody with
          | null =>
              have hdoubles : ifBody.doubles entries = AstNode.doubles entries
                  (.ifElse ifExpr ifBody .null) := by
                simp [AstNode.doubles]
              rw [← hdoubles]
              exact Tracks.visited path ht.void (fun p => from_child) (by simp [AstNode.nodeCount])
          | _ => cases hnull
      | true =>
          obtain ⟨t', ht', -⟩ := ihe (path ++ [2])
          obtain ⟨t2, helse⟩ := ht.bind (fun _ => ht'.void) fun p hp hp' =>
            absurd (child_inj hp hp') (by simp)
          simp only [typeCheckTraced, typeCheck, AstNode.plainType, AstNode.doubles,
            AstNode.nodeCount, hnull, if_true]
          exact Tracks.visited path ⟨_, helse⟩ (fun p hp => hp.elim from_child from_child)
            (by omega)
  | while_ expr body _ ihb =>
      intro path
      obtain ⟨t, ht, -⟩ := ihb (path ++ [1])
      exact Tracks.visited path ⟨t, ht⟩ (fun p => from_child) (by simp [AstNode.nodeCount])
  | for_ init cond step body _ _ _ ihb =>
      intro path
      obtain ⟨t, ht, -⟩ := ihb (path ++ [3])
      exact Tracks.visited path ⟨t, ht⟩ (fun p => from_child) (by simp [AstNode.nodeCount])
  | exprStmt expr ih =>
      intro path
      obtain ⟨t, ht, -⟩ := ih (path ++ [0])
      exact Tracks.visited path ⟨t, ht⟩ (fun p => from_child) (Nat.le_refl _)
  | unaryExpr expr value opType ih =>
      intro path
      obtain ⟨t, ht, -⟩ := ih (path ++ [0])
      exact Tracks.visited path ⟨t, ht⟩ (fun p => from_child) (Nat.le_refl _)

/-- The log is all that `typeCheckTraced` adds to `type_check`. -/
theorem typeCheckTraced_run (node : AstNode) (log : List Path) :
    typeCheckTraced entries [] node log = (typeCheck entries node, log ++ visits entries node) := by
  obtain ⟨t, ht, -⟩ := @tracks_node entries node []
  rw [visits, ht.run log, ht.run []]
  rfl

/--
**`type_check` goes to no node twice just in case no binary operator that it comes to has a left
operand that passes.**
-/
theorem visitsOnce_iff (entries : List SymTabEntry) (node : AstNode) :
    VisitsOnce entries node ↔ node.doubles entries = false := by
  obtain ⟨t, ht, -⟩ := @tracks_node entries node []
  have hvisits : visits entries node = t := by
    rw [visits, ht.run []]
    rfl
  rw [VisitsOnce, hvisits]
  refine ⟨?_, ht.once⟩
  intro honce
  by_contra hd
  exact ht.twice (by simpa using hd) honce.1

/--
`int main() { return 1 + 2 + 3; }`: under the function there are seven calls for five nodes,
four of them on `1` and on `2`, and none on `3`.
-/
theorem not_visitsOnce :
    ¬ VisitsOnce [⟨"main", .function, .int, false, 0, 0, none, 0, none, false⟩]
      (.funcDef "main" "int"
        (.compStmt [.ret (.binExp "+" .add (.binExp "+" .add (.intConst 1) (.intConst 2))
          (.intConst 3)) (some 0)]) [] (some 0)) := by
  decide

/-! ### Chains

How bad it gets: the left operand of a left operand is gone to four times, and so on.
-/

/-- `1 + 1 + … + 1`, with `k` operators. -/
def chain : Nat → AstNode
  | 0 => .intConst 1
  | k + 1 => .binExp "+" .add (chain k) (.intConst 1)

theorem nodeCount_chain (k : Nat) : (chain k).nodeCount = 2 * k + 1 := by
  induction k with
  | zero => rfl
  | succ k ih =>
      rw [chain, AstNode.nodeCount, ih, AstNode.nodeCount]
      omega

/-- How often the check of a chain calls itself. -/
theorem chain_run (k : Nat) (path : Path) :
    ∃ t : List Path, t.length + 1 = 2 ^ (k + 1) ∧
      ∀ log, typeCheckTraced entries path (chain k) log = (.ok .int, log ++ t) := by
  induction k generalizing path with
  | zero => exact ⟨[path], rfl, fun log => rfl⟩
  | succ k ih =>
      obtain ⟨t, hlen, hrun⟩ := ih (path ++ [0])
      refine ⟨path :: (t ++ t), ?_, fun log => ?_⟩
      · rw [List.length_cons, List.length_append, pow_succ, ← hlen]
        omega
      · rw [chain, typeCheckTraced, traced_bind]
        show (typeCheckTraced entries (path ++ [0]) (chain k) >>= _) (log ++ [path]) = _
        rw [traced_bind, hrun]
        show (typeCheckTraced entries (path ++ [0]) (chain k) >>= _) (log ++ [path] ++ t) = _
        rw [traced_bind, hrun]
        show (_, log ++ [path] ++ t ++ t) = _
        simp

/-- **The calls for a chain double with every operator, and its nodes are two more.** -/
theorem visits_chain (k : Nat) :
    (visits entries (chain k)).length + 1 = 2 ^ (k + 1) ∧ (chain k).nodeCount = 2 * k + 1 := by
  obtain ⟨t, hlen, hrun⟩ := @chain_run entries k []
  refine ⟨?_, nodeCount_chain k⟩
  rw [visits, hrun []]
  exact hlen

end MyLang
