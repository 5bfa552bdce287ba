/-
The analysis with other memory.

Two runs of the analysis on one program, each with its own memory, go side by side: they
link the tree to the same entries, lay out the same frames, and stop together.  Their
entries differ in nothing but the offsets that are never set, and there each has what its
memory held.

`Twins` is this for two lists of entries, with the list of the variables that have their
offset set.  An entry that is made gets the offset that is in its memory; the entry of a
local variable gets another one at once, that of its place in the frame, and is then the
same in both.  Everything else that the analysis reads of an entry, its kind, its type,
its parameters, is the same from the start.

`LinkAlike` takes two steps along together.  It goes from state to state like the analysis
itself, so the proof for `sym_check` has a case for each of its cases, and none of them
looks at an offset.
-/
import MyLang.Unset
import MyLang.Proofs.Rename

namespace MyLang

open StateExcept

variable {arena arena' : SymId → Nat} {typeEnv : HashMap TypeSpecifier} {vars : List SymId}
  {s s' t : SemaState} {es es' : List SymTabEntry}

/-- Entries that differ in the offsets that come from memory; the variables have theirs set. -/
structure Twins (arena arena' : SymId → Nat) (vars : List SymId) (es es' : List SymTabEntry) :
    Prop where
  length : es'.length = es.length
  entry : ∀ (id : SymId) e, es[id]? = some e → ∃ o, es'[id]? = some { e with offset := o } ∧
    if id ∈ vars then o = e.offset else e.offset = arena id ∧ o = arena' id

/-- What is in a list with one more element at its end. -/
theorem getElem?_concat_eq_some {α : Type} {l : List α} {a b : α} {k : Nat}
    (h : (l ++ [a])[k]? = some b) : (k < l.length ∧ l[k]? = some b) ∨ (k = l.length ∧ b = a) := by
  rcases Nat.lt_or_ge k l.length with hlt | hge
  · rw [List.getElem?_append_left hlt] at h
    exact Or.inl ⟨hlt, h⟩
  · have hlen := (List.getElem?_eq_some_iff.mp h).1
    rw [List.length_append, List.length_singleton] at hlen
    have hk : k = l.length := by omega
    subst hk
    rw [List.getElem?_concat_length] at h
    exact Or.inr ⟨rfl, (Option.some.inj h).symm⟩

namespace Twins

theorem nil : Twins arena arena' vars [] [] := ⟨rfl, by simp⟩

/-- A change of an entry that leaves its offset. -/
theorem modify (h : Twins arena arena' vars es es') (id : SymId) {f : SymTabEntry → SymTabEntry}
    (hf : ∀ e o, f { e with offset := o } = { f e with offset := o }) :
    Twins arena arena' vars (es.modify id f) (es'.modify id f) := by
  refine ⟨by rw [List.length_modify, List.length_modify, h.length], fun id' e he => ?_⟩
  rw [List.getElem?_modify] at he
  obtain ⟨e', he', rfl⟩ := Option.map_eq_some_iff.mp he
  obtain ⟨o, ho, hoff⟩ := h.entry id' e' he'
  rw [List.getElem?_modify, ho]
  by_cases hid : id = id'
  · have hoffset : (f e').offset = e'.offset := by
      have heq : f e' = { f e' with offset := e'.offset } := hf e' e'.offset
      rw [heq]
    subst hid
    refine ⟨o, ?_, ?_⟩
    · simp only [if_true]
      exact congrArg some (hf e' o)
    · simp only [if_true]
      rw [hoffset]
      exact hoff
  · exact ⟨o, by simp [hid], by simpa [hid] using hoff⟩

/-- One more entry, of a variable with a place in a frame. -/
theorem concat_set (h : Twins arena arena' vars es es') (e : SymTabEntry) :
    Twins arena arena' (vars ++ [es.length]) (es ++ [e]) (es' ++ [e]) := by
  refine ⟨by simp [h.length], fun id e' he => ?_⟩
  rcases getElem?_concat_eq_some he with ⟨hlt, he⟩ | ⟨rfl, rfl⟩
  · obtain ⟨o, ho, hoff⟩ := h.entry id e' he
    refine ⟨o, by rw [List.getElem?_append_left (h.length ▸ hlt)]; exact ho, ?_⟩
    simpa [List.mem_append, Nat.ne_of_lt hlt] using hoff
  · refine ⟨e'.offset, ?_, by simp⟩
    rw [← h.length, List.getElem?_concat_length]

/-- One more entry, with the offset that was in its memory. -/
theorem concat_unset (h : Twins arena arena' vars es es') (hvars : es.length ∉ vars)
    (e : SymTabEntry) (he : e.offset = arena es.length) :
    Twins arena arena' vars (es ++ [e]) (es' ++ [{ e with offset := arena' es.length }]) := by
  refine ⟨by simp [h.length], fun id e' he' => ?_⟩
  rcases getElem?_concat_eq_some he' with ⟨hlt, he'⟩ | ⟨rfl, rfl⟩
  · obtain ⟨o, ho, hoff⟩ := h.entry id e' he'
    exact ⟨o, by rw [List.getElem?_append_left (h.length ▸ hlt)]; exact ho, hoff⟩
  · refine ⟨arena' es.length, ?_, by rw [if_neg hvars]; exact ⟨he, rfl⟩⟩
    rw [← h.length, List.getElem?_concat_length]

/-- What does not depend on offsets is the same. -/
theorem map_eq {α : Type} {g : SymTabEntry → α} (h : Twins arena arena' vars es es')
    (hg : ∀ e o, g { e with offset := o } = g e) : es'.map g = es.map g := by
  refine List.ext_getElem? fun id => ?_
  rw [List.getElem?_map, List.getElem?_map]
  cases he : es[id]? with
  | none =>
      rw [List.getElem?_eq_none_iff, ← h.length, ← List.getElem?_eq_none_iff] at he
      rw [he]
  | some e =>
      obtain ⟨o, ho, -⟩ := h.entry id e he
      rw [ho, Option.map_some, Option.map_some, hg]

theorem warnUnused_eq (h : Twins arena arena' vars es es') (symbols : List SymId) :
    warnUnused es' symbols = warnUnused es symbols := by
  unfold warnUnused
  refine List.filterMap_congr fun id _ => ?_
  cases he : es[id]? with
  | none =>
      rw [List.getElem?_eq_none_iff, ← h.length, ← List.getElem?_eq_none_iff] at he
      rw [he]
  | some e =>
      obtain ⟨o, ho, -⟩ := h.entry id e he
      rw [ho]

end Twins

/-! ### States of the analysis

Scopes, frames and the list of symbols are equal, entries are twins.
-/

/-- Two states of the analysis that differ in offsets that come from memory. -/
structure SemaTwins (arena arena' : SymId → Nat) (vars : List SymId) (s t : SemaState) : Prop where
  frames : t.frames = s.frames
  symbols : t.symbols = s.symbols
  scope : t.scope = s.scope
  entries : Twins arena arena' vars s.entries t.entries
  loaded : ∀ e ∈ s.entries, e.isArgLoaded = false
  bound : ∀ id ∈ vars, id < s.nextId

namespace SemaTwins

theorem initial : SemaTwins arena arena' [] SemaState.initial SemaState.initial :=
  ⟨rfl, rfl, rfl, Twins.nil, by simp [SemaState.initial], by simp⟩

theorem nextId (h : SemaTwins arena arena' vars s t) : t.nextId = s.nextId := h.entries.length

theorem use (h : SemaTwins arena arena' vars s t) (id : SymId) :
    SemaTwins arena arena' vars (s.use id) (t.use id) := by
  refine ⟨h.frames, h.symbols, h.scope, h.entries.modify id fun _ _ => rfl, fun e he => ?_,
    fun id' hid => ?_⟩
  · obtain ⟨i, hi⟩ := List.mem_iff_getElem?.mp he
    rw [SemaState.use, List.getElem?_modify] at hi
    obtain ⟨e', he', rfl⟩ := Option.map_eq_some_iff.mp hi
    have := h.loaded e' (List.mem_of_getElem? he')
    by_cases hid : id = i <;> simpa [hid] using this
  · show id' < (s.entries.modify id _).length
    rw [List.length_modify]
    exact h.bound id' hid

theorem enter (h : SemaTwins arena arena' vars s t) : SemaTwins arena arena' vars s.enter t.enter :=
  ⟨h.frames, h.symbols, congrArg enterScope h.scope, h.entries, h.loaded, h.bound⟩

theorem exit (h : SemaTwins arena arena' vars s t) : SemaTwins arena arena' vars s.exit t.exit :=
  ⟨h.frames, h.symbols, congrArg exitScope h.scope, h.entries, h.loaded, h.bound⟩

theorem grow (h : SemaTwins arena arena' vars s t) (fid : FrameId) :
    SemaTwins arena arena' vars (s.grow fid) (t.grow fid) :=
  ⟨congrArg (List.modify · fid _) h.frames, h.symbols, h.scope, h.entries, h.loaded, h.bound⟩

theorem watch (h : SemaTwins arena arena' vars s t) : SemaTwins arena arena' vars s.watch t.watch :=
  ⟨h.frames, by simp [SemaState.watch, h.symbols, h.nextId], h.scope, h.entries, h.loaded, h.bound⟩

theorem pushFrame (h : SemaTwins arena arena' vars s t) (func : String) :
    SemaTwins arena arena' vars (s.pushFrame func) (t.pushFrame func) :=
  ⟨by simp [SemaState.pushFrame, h.frames], h.symbols, h.scope, h.entries, h.loaded, h.bound⟩

/-- A variable is declared, and its offset set. -/
theorem declare_set (h : SemaTwins arena arena' vars s t) {e : SymTabEntry}
    (he : e.isArgLoaded = false) :
    SemaTwins arena arena' (vars ++ [s.nextId]) (s.declare e) (t.declare e) := by
  refine ⟨h.frames, h.symbols, ?_, h.entries.concat_set e, fun e' he' => ?_, fun id hid => ?_⟩
  · show scopeAdd t.scope t.nextId e.key = _
    rw [h.scope, h.nextId]
    rfl
  · rcases List.mem_append.mp he' with he' | he'
    · exact h.loaded e' he'
    · rw [List.mem_singleton.mp he']
      exact he
  · show id < (s.entries ++ [e]).length
    rw [List.length_append, List.length_singleton]
    rcases List.mem_append.mp hid with hid | hid
    · exact Nat.lt_succ_of_lt (h.bound id hid)
    · rw [List.mem_singleton.mp hid]
      exact Nat.lt_succ_self _

/-- Something else is declared; its offset stays as it was in memory. -/
theorem declare_unset (h : SemaTwins arena arena' vars s t) {e : SymTabEntry}
    (he : e.isArgLoaded = false) (hoff : e.offset = arena s.nextId) :
    SemaTwins arena arena' vars (s.declare e) (t.declare { e with offset := arena' t.nextId }) := by
  have hvars : s.entries.length ∉ vars := fun hmem => lt_irrefl _ (h.bound _ hmem)
  have hentries := h.entries.concat_unset hvars e hoff
  rw [show arena' s.entries.length = arena' t.nextId by rw [h.nextId]; rfl] at hentries
  refine ⟨h.frames, h.symbols, ?_, hentries, fun e' he' => ?_, fun id hid => ?_⟩
  · show scopeAdd t.scope t.nextId e.key = _
    rw [h.scope, h.nextId]
    rfl
  · rcases List.mem_append.mp he' with he' | he'
    · exact h.loaded e' he'
    · rw [List.mem_singleton.mp he']
      exact he
  · show id < (s.entries ++ [e]).length
    rw [List.length_append]
    exact Nat.lt_add_right _ (h.bound id hid)

end SemaTwins

/-! ### Steps of the analysis

The variables that get their offset set are collected along the way.
-/

/--
Two steps, each with its own memory: where the first returns the second does, with the same
value.  Of the variables that are declared those of `pre` had been before, and those of
`post` have been then.
-/
def LinkAlike {α : Type} (arena arena' : SymId → Nat) (pre : List SymId) (x y : Sema α)
    (post : α → List SymId) : Prop :=
  ∀ vars s s' t a, x s = .ok (a, s') → SemaTwins arena arena' (vars ++ pre) s t →
    ∃ t', y t = .ok (a, t') ∧ SemaTwins arena arena' (vars ++ post a) s' t'

namespace LinkAlike

variable {α β : Type} {pre : List SymId} {x y : Sema α} {mid : α → List SymId}
  {post : β → List SymId}

/-- From what a step does where nothing has been declared. -/
theorem intro {post : α → List SymId} (h : ∀ vars s s' t a, x s = .ok (a, s') →
      SemaTwins arena arena' vars s t →
      ∃ t', y t = .ok (a, t') ∧ SemaTwins arena arena' (vars ++ post a) s' t') : LinkAlike arena
      arena' [] x y post := by
  intro vars s s' t a hrun ht
  rw [List.append_nil] at ht
  exact h vars s s' t a hrun ht

theorem run {a : α} {post : α → List SymId} (h : LinkAlike arena arena' [] x y post)
    (hrun : x s = .ok (a, s')) (ht : SemaTwins arena arena' vars s t) :
    ∃ t', y t = .ok (a, t') ∧ SemaTwins arena arena' (vars ++ post a) s' t' :=
  h vars s s' t a hrun (by
    rw [List.append_nil]
    exact ht)

theorem pure {b : β} (hpost : pre = post b) :
    LinkAlike arena arena' pre (Pure.pure b) (Pure.pure b) post := by
  intro vars s s' t b' hrun ht
  obtain ⟨rfl, rfl⟩ := pure_eq_ok.mp hrun
  rw [hpost] at ht
  exact ⟨t, rfl, ht⟩

theorem bind {f g : α → Sema β} (h : LinkAlike arena arena' pre x y mid)
    (hf : ∀ a, LinkAlike arena arena' (mid a) (f a) (g a) post) :
    LinkAlike arena arena' pre (x >>= f) (y >>= g) post := by
  intro vars s s' t b hrun ht
  obtain ⟨a, s1, hx, hfa⟩ := bind_eq_ok.mp hrun
  obtain ⟨t1, hy, ht1⟩ := h vars s s1 t a hx ht
  obtain ⟨t2, hga, ht2⟩ := hf a vars s1 s' t1 b hfa ht1
  exact ⟨t2, bind_eq_ok.mpr ⟨a, t1, hy, hga⟩, ht2⟩

/-- A step after others. -/
theorem after (h : LinkAlike arena arena' [] x y mid) (pre : List SymId) :
    LinkAlike arena arena' pre x y fun a => pre ++ mid a := by
  intro vars s s' t a hrun ht
  obtain ⟨t', hrun', ht'⟩ := h.run hrun ht
  rw [List.append_assoc] at ht'
  exact ⟨t', hrun', ht'⟩

theorem inChildScope (h : LinkAlike arena arena' [] x y mid) :
    LinkAlike arena arena' [] (MyLang.inChildScope x) (MyLang.inChildScope y) mid := by
  refine intro fun vars s s' t a hrun ht => ?_
  obtain ⟨s1, hin, rfl⟩ := inChildScope_eq_ok.mp hrun
  obtain ⟨t1, hrun', ht1⟩ := h.run hin ht.enter
  exact ⟨t1.exit, inChildScope_eq_ok.mpr ⟨t1, hrun', rfl⟩, ht1.exit⟩

end LinkAlike

/-! ### The analysis

On the tree, in the order in which `sym_check` goes through it.
-/

private theorem symCheckEnums_alike (i : Nat) (keys : List String) :
    LinkAlike arena arena' [] (symCheckEnums arena i keys) (symCheckEnums arena' i keys) fun _ =>
      [] := by
  refine LinkAlike.intro fun vars s s' t u h ht => ?_
  rw [List.append_nil]
  induction keys generalizing i s t with
  | nil =>
      obtain rfl := symCheckEnums_nil_eq_ok.mp h
      exact ⟨t, symCheckEnums_nil_eq_ok.mpr rfl, ht⟩
  | cons key rest ih =>
      obtain ⟨t', hrun, ht'⟩ := ih _ _ _ (symCheckEnums_cons_eq_ok.mp h) (ht.declare_unset rfl rfl)
      exact ⟨t', symCheckEnums_cons_eq_ok.mpr hrun, ht'⟩

private theorem symCheckList_alike {frame : Option FrameId} {l : List AstNode}
    (ih : ∀ node ∈ l, LinkAlike arena arena' [] (symCheck arena typeEnv frame node)
      (symCheck arena' typeEnv frame node) AstNode.localIds) :
    LinkAlike arena arena' [] (symCheckList arena typeEnv frame l)
      (symCheckList arena' typeEnv frame l) AstNode.localIdsList := by
  induction l with
  | nil => exact LinkAlike.pure rfl
  | cons node rest ihl =>
      simp only [symCheckList]
      refine (ih node List.mem_cons_self).bind fun node' => ?_
      refine ((ihl fun n hn => ih n (List.mem_cons_of_mem _ hn)).after node'.localIds).bind
        fun rest' => ?_
      exact LinkAlike.pure rfl

/-- **A tree is linked alike with other memory.** -/
theorem symCheck_alike {node : AstNode} (hff : node.funcFree = true) (frame : Option FrameId) :
    LinkAlike arena arena' [] (symCheck arena typeEnv frame node)
      (symCheck arena' typeEnv frame node) AstNode.localIds := by
  induction node with
  | intConst value => exact LinkAlike.pure rfl
  | emptyExpr => exact LinkAlike.pure rfl
  | null =>
      refine LinkAlike.intro fun vars s s' t a h _ => ?_
      simp [symCheck] at h
  | funcDef => simp [AstNode.funcFree] at hff
  | ident value symbol =>
      refine LinkAlike.intro fun vars s s' t a h ht => ?_
      obtain ⟨id, hid, rfl, rfl⟩ := symCheckIdent_eq_ok.mp h
      refine ⟨t.use id, symCheckIdent_eq_ok.mpr ⟨id, by rw [ht.scope]; exact hid, rfl, rfl⟩, ?_⟩
      rw [AstNode.localIds, List.append_nil]
      exact ht.use id
  | enum value enums =>
      simp only [symCheck]
      exact (symCheckEnums_alike 0 enums).bind fun _ => LinkAlike.pure rfl
  | varDec value type symbol =>
      refine LinkAlike.intro fun vars s s' t a h ht => ?_
      obtain ⟨hscope, ts, fid, f, htype, rfl, hf, rfl, rfl⟩ := symCheckVarDec_eq_ok.mp h
      refine ⟨_, symCheckVarDec_eq_ok.mpr ⟨by rw [ht.scope]; exact hscope, ts, fid, f, htype, rfl,
        by rw [ht.frames]; exact hf, by rw [ht.nextId], rfl⟩, ?_⟩
      exact (ht.grow fid).declare_set rfl
  | varDef value type expr symbol ih =>
      refine LinkAlike.intro fun vars s s' t a h ht => ?_
      obtain ⟨hscope, expr', s1, ts, fid, f, hexpr, htype, rfl, hf, rfl, rfl⟩ :=
        symCheckVarDef_eq_ok.mp h
      obtain ⟨t1, hrun, ht1⟩ := (ih hff).run hexpr ht
      refine ⟨_, symCheckVarDef_eq_ok.mpr
        ⟨by rw [ht.scope]; exact hscope, expr', t1, ts, fid, f, hrun, htype, rfl,
        by rw [ht1.frames]; exact hf, by rw [ht1.nextId], rfl⟩, ?_⟩
      rw [AstNode.localIds, ← List.append_assoc]
      exact (ht1.watch.grow fid).declare_set rfl
  | binExp value opType left right ihl ihr =>
      simp only [AstNode.funcFree, Bool.and_eq_true] at hff
      simp only [symCheck]
      exact (ihl hff.1).bind fun left' => ((ihr hff.2).after left'.localIds).bind fun _ =>
        LinkAlike.pure rfl
  | varAsgn target rval ihl ihr =>
      simp only [AstNode.funcFree, Bool.and_eq_true] at hff
      simp only [symCheck]
      exact (ihl hff.1).bind fun target' => ((ihr hff.2).after target'.localIds).bind fun _ =>
        LinkAlike.pure rfl
  | while_ expr body ihe ihb =>
      simp only [AstNode.funcFree, Bool.and_eq_true] at hff
      simp only [symCheck]
      exact (ihe hff.1).bind fun expr' => ((ihb hff.2).after expr'.localIds).bind fun _ =>
        LinkAlike.pure rfl
  | unaryExpr expr value opType ih =>
      simp only [symCheck]
      exact (ih hff).bind fun _ => LinkAlike.pure rfl
  | lval kind target ih =>
      simp only [symCheck]
      exact (ih hff).bind fun _ => LinkAlike.pure rfl
  | exprStmt expr ih =>
      simp only [symCheck]
      exact (ih hff).bind fun _ => LinkAlike.pure rfl
  | funcCall value args symbol ih =>
      have hargs : ∀ n ∈ args, n.funcFree = true := funcFreeList_iff.mp hff
      refine LinkAlike.intro fun vars s s' t a h ht => ?_
      obtain ⟨id, e, ps, args', hid, he, hps, hlen, hrun, rfl⟩ := symCheckFuncCall_eq_ok.mp h
      obtain ⟨o, ho, -⟩ := ht.entries.entry id e he
      obtain ⟨t', hrun', ht'⟩ :=
        (symCheckList_alike fun n hn => ih n hn (hargs n hn)).run hrun (ht.use id)
      exact ⟨t', symCheckFuncCall_eq_ok.mpr
        ⟨id, _, ps, args', by rw [ht.scope]; exact hid, ho, hps, hlen, hrun', rfl⟩, ht'⟩
  | ret expr func ih =>
      refine LinkAlike.intro fun vars s s' t a h ht => ?_
      obtain ⟨fid, f, expr', rfl, hf, hexpr, rfl⟩ := symCheckRet_eq_ok.mp h
      obtain ⟨t1, hrun, ht1⟩ := (ih hff).run hexpr ht
      refine ⟨t1, symCheckRet_eq_ok.mpr ⟨fid, f, expr', rfl, by rw [ht.frames]; exact hf, hrun, ?_⟩,
        ht1⟩
      rw [ht.scope]
  | compStmt body ih =>
      have hbody : ∀ n ∈ body, n.funcFree = true := funcFreeList_iff.mp hff
      simp only [symCheck]
      refine LinkAlike.inChildScope ?_
      exact (symCheckList_alike fun n hn => ih n hn (hbody n hn)).bind fun _ => LinkAlike.pure rfl
  | ifElse ifExpr ifBody elseBody ihc ihb ihe =>
      simp only [AstNode.funcFree, Bool.and_eq_true] at hff
      simp only [symCheck]
      refine (ihb hff.1.2).bind fun ifBody' =>
        ((ihc hff.1.1).after ifBody'.localIds).bind fun ifExpr' => ?_
      by_cases helse : elseBody.nonNull = true
      · rw [if_pos helse, if_pos helse]
        refine ((ihe hff.2).after _).bind fun elseBody' => LinkAlike.pure ?_
        rw [AstNode.localIds, List.append_assoc]
      · rw [if_neg helse, if_neg helse]
        obtain rfl := AstNode.eq_null helse
        refine LinkAlike.pure ?_
        rw [AstNode.localIds, AstNode.localIds, List.append_nil]
  | for_ init cond step body ihi ihc ihs ihb =>
      simp only [AstNode.funcFree, Bool.and_eq_true] at hff
      simp only [symCheck]
      refine LinkAlike.inChildScope ?_
      refine (ihi hff.1.1.1).bind fun init' =>
        ((ihc hff.1.1.2).after init'.localIds).bind fun cond' => ?_
      refine ((ihs hff.1.2).after _).bind fun step' => ((ihb hff.2).after _).bind fun body' =>
        LinkAlike.pure ?_
      rw [AstNode.localIds, List.append_assoc, List.append_assoc]

/-! ### Programs

The result is a program, its entries and its frames, and the warnings, which come out the
same.
-/

private theorem symCheckParams_twins {params ps : List Param}
    (h : symCheckParams arena typeEnv params s = .ok (ps, s'))
    (ht : SemaTwins arena arena' vars s t) :
    ∃ t', symCheckParams arena' typeEnv params t = .ok (ps, t') ∧
      SemaTwins arena arena' vars s' t' := by
  induction params generalizing s t ps with
  | nil =>
      obtain ⟨rfl, rfl⟩ := pure_eq_ok.mp h
      exact ⟨t, rfl, ht⟩
  | cons param rest ih =>
      obtain ⟨ts, ps', htype, hrun, rfl⟩ := symCheckParams_cons_eq_ok.mp h
      obtain ⟨t', hrun', ht'⟩ := ih hrun (ht.declare_unset rfl rfl)
      exact ⟨t', symCheckParams_cons_eq_ok.mpr ⟨ts, ps', htype, hrun', by rw [ht.nextId]⟩, ht'⟩

/-- Functions are linked alike, one after the other. -/
private theorem symCheckProg_twins {prog prog' : List AstNode}
    (hprog : ∀ n ∈ prog, n.isFuncDef = true)
    (h : symCheckList arena typeEnv none prog s = .ok (prog', s'))
    (ht : SemaTwins arena arena' vars s t) :
    ∃ t', symCheckList arena' typeEnv none prog t = .ok (prog', t') ∧
      SemaTwins arena arena' (vars ++ progVars prog') s' t' := by
  induction prog generalizing s t vars prog' with
  | nil =>
      obtain ⟨rfl, rfl⟩ := pure_eq_ok.mp h
      refine ⟨t, rfl, ?_⟩
      show SemaTwins arena arena' (vars ++ []) _ _
      rw [List.append_nil]
      exact ht
  | cons node rest ih =>
      obtain ⟨value, type, body, params, symbol, rfl⟩ :=
        AstNode.eq_funcDef (hprog node List.mem_cons_self)
      have hbody : AstNode.areStmts body = true := hprog _ List.mem_cons_self
      have hff : (AstNode.compStmt body).funcFree = true :=
        @AstNode.funcFree_of_isStmt (.compStmt body) hbody
      simp only [symCheckList, bind_eq_ok, pure_eq_ok] at h
      obtain ⟨node', s1, hnode, rest', s2, hrest, rfl, rfl⟩ := h
      obtain ⟨hscope, ps, s3, ts, body', hparams, htype, hcheck, rfl⟩ :=
        symCheckFuncDef_eq_ok.mp hnode
      obtain ⟨t3, hrun3, ht3⟩ := symCheckParams_twins hparams (ht.pushFrame value)
      obtain ⟨t1, hrun1, ht1⟩ := (symCheck_alike hff _).run hcheck (ht3.watch.declare_unset rfl rfl)
      obtain ⟨t2, hrun2, ht2⟩ := ih (fun n hn => hprog n (List.mem_cons_of_mem _ hn)) hrest ht1
      refine ⟨t2, ?_, ?_⟩
      · simp only [symCheckList, bind_eq_ok, pure_eq_ok]
        refine ⟨_, t1, symCheckFuncDef_eq_ok.mpr
          ⟨by rw [ht.scope]; exact hscope, ps, t3, ts, body', hrun3, htype, ?_,
          rfl⟩, rest', t2, hrun2, ?_, rfl⟩
        · rw [ht.frames]
          exact hrun1
        · rw [ht3.nextId]
      · rw [progVars, ← List.append_assoc]
        exact ht2

/-- **With other memory the analysis accepts the same programs, and links them alike.** -/
theorem semaCheck_twins {prog : List AstNode} {r : SemaResult}
    (hprog : ∀ n ∈ prog, n.isFuncDef = true) (h : semaCheck arena typeEnv prog = .ok r)
    (arena' : SymId → Nat) : ∃ entries, semaCheck arena' typeEnv prog = .ok { r with entries } ∧
      Twins arena arena' (progVars r.prog) r.entries entries ∧ ∀ e ∈ r.entries,
        e.isArgLoaded = false := by
  simp only [semaCheck, ExceptRun.bind_eq_ok, ExceptRun.pure_eq_ok] at h
  obtain ⟨⟨prog', st⟩, hrun, u, htype, rfl⟩ := h
  have hinitial : SemaTwins arena arena' [] SemaState.initial SemaState.initial := SemaTwins.initial
  obtain ⟨st', hrun', ht⟩ := symCheckProg_twins hprog hrun hinitial
  have htypes : st'.entries.map SymTabEntry.type = st.entries.map SymTabEntry.type :=
    ht.entries.map_eq fun _ _ => rfl
  have hwarn : warnUnused st'.entries st'.symbols = warnUnused st.entries st.symbols := by
    rw [ht.symbols]
    exact ht.entries.warnUnused_eq _
  have htype' : typeCheckList st'.entries prog' = .ok u := by
    rw [← htype]
    exact typeCheckList_congr (List.forall₂_same.mpr fun n _ => typeCheck_congr htypes n)
  refine ⟨st'.entries, ?_, ht.entries, ht.loaded⟩
  simp only [semaCheck, ExceptRun.bind_eq_ok, ExceptRun.pure_eq_ok]
  refine ⟨(prog', st'), hrun', u, htype', ?_⟩
  rw [ht.frames, hwarn, ht.symbols]

end MyLang
