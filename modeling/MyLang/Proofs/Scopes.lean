/-
Scopes are lexical environments.

The scopes on the heap do what those of the analysis do: every table is the owner of its
nodes, so an inner scope can be given back without a change to the outer ones.  The scopes
of the analysis answer by the adds made in the scopes that are open: a clone answers as
its original, so a scope that is entered has its parent's answers, and what it adds lies
in front of them.

There are three levels, then.  Tables of a heap hold maps of chains (`ScopeHolds`), maps
of chains answer by lists of adds (`ScopeAnswers`), and the lists of adds in the scopes
that are open are the environment.  An operation keeps each of the two relations, so a run
does.

A sequence is well nested if every exit has its enter.  What has been added between the
two is gone from the lists behind the exit (`openAdds_closed`), and that is the law of
scopes: every name is again what it was.
-/
import MyLang.Proofs.HashTable
import MyLang.Proofs.SemaScope
import MyLang.Scopes

namespace MyLang

open LinkedHeap

open Linked (Holds holds_new hashmapAdd_holds hashmapGet_holds symtabClone_holds hashmapFree_keeps)

variable {w : World (TableNode SymId) (Nat × Fin tableSize)} {maps : Linked.Scope} {scope : Scope}
  {envs : List (List (SymId × String))} {ops : List ScopeOp} {depth : Nat}

/-! ### On the heap

A scope that is left is given back node by node, and no node of an outer scope is among
them.
-/

/-- The tables of some scopes, each known by how many lie below it. -/
def ScopeHolds (w : World (TableNode SymId) (Nat × Fin tableSize)) : Linked.Scope → Scope → Prop
  | [], [] => True
  | map :: maps, m :: scope => Holds w maps.length map m ∧ ScopeHolds w maps scope
  | _, _ => False

theorem ScopeHolds.keep {w' : World (TableNode SymId) (Nat × Fin tableSize)} {n : Nat}
    (h : ScopeHolds w maps scope) (hk : LinkedHeap.Keeps (·.1 = n) w w') (hn : maps.length ≤ n) :
    ScopeHolds w' maps scope := by
  induction maps generalizing scope with
  | nil =>
      cases scope with
      | nil => trivial
      | cons m scope => exact h.elim
  | cons map maps ih =>
      cases scope with
      | nil => exact h.elim
      | cons m scope =>
          rw [List.length_cons] at hn
          exact ⟨h.1.keep hk fun _ => by simp; omega, ih h.2 (by omega)⟩

/-- A name is found in the tables of the heap as in those of the analysis. -/
theorem ScopeHolds.lookup (h : ScopeHolds w maps scope) (key : String) :
    Linked.scopeLookup key maps w.heap = some (scopeLookup scope key, w.heap) := by
  induction maps generalizing scope with
  | nil =>
      cases scope with
      | nil => rfl
      | cons m scope => exact h.elim
  | cons map maps ih =>
      cases scope with
      | nil => exact h.elim
      | cons m scope =>
          rw [Linked.scopeLookup, bind_run (hashmapGet_holds h.1 key), scopeLookup]
          cases hashmapGet m key with
          | some entry => rfl
          | none => exact ih h.2

/-- **An operation on the scopes of the heap is the one on those of the analysis.** -/
theorem ScopeHolds.run (h : ScopeHolds w maps scope) (hne : scope ≠ []) (op : ScopeOp) :
    ∃ (w' : World (TableNode SymId) (Nat × Fin tableSize)) (maps' : Linked.Scope),
      op.run maps w.heap = some (maps', w'.heap) ∧ ScopeHolds w' maps' (op.apply scope) := by
  cases maps with
  | nil =>
      cases scope with
      | nil => exact absurd rfl hne
      | cons m scope => exact h.elim
  | cons map maps =>
      cases scope with
      | nil => exact absurd rfl hne
      | cons m scope =>
          obtain ⟨hm, hrest⟩ := h
          cases op with
          | enter =>
              obtain ⟨w', clone, hrun, hm', hk⟩ :=
                symtabClone_holds (map :: maps).length (by simp) hm
              refine ⟨w', clone :: map :: maps, ?_, hm',
                hm.keep hk fun _ => by simp, hrest.keep hk (by simp)⟩
              rw [ScopeOp.run, Linked.enterScope, bind_run hrun]
              rfl
          | add entry key =>
              obtain ⟨w', map', hrun, hm', hk⟩ := hashmapAdd_holds hm entry key
              refine ⟨w', map' :: maps, ?_, hm', hrest.keep hk (Nat.le_refl _)⟩
              rw [ScopeOp.run, Linked.scopeAdd, bind_run hrun]
              rfl
          | exit =>
              obtain ⟨w', hrun, hk⟩ := hashmapFree_keeps hm
              refine ⟨w', maps, ?_, hrest.keep hk (Nat.le_refl _)⟩
              rw [ScopeOp.run, Linked.exitScope, bind_run hrun]
              rfl

/-! ### Without tables

The adds of a scope lie in front of those of the scopes around it.
-/

/-- Each scope answers by the adds made in it and in those below. -/
def ScopeAnswers : Scope → List (List (SymId × String)) → Prop
  | [], [] => True
  | m :: scope, adds :: envs =>
      (∀ key, scopeLookup (m :: scope) key = lastAdd (adds :: envs).reverse.flatten key) ∧
        ScopeAnswers scope envs
  | _, _ => False

/-- **Every operation keeps the answers.** -/
theorem ScopeAnswers.apply (h : ScopeAnswers scope envs) (hne : scope ≠ []) (op : ScopeOp) :
    ScopeAnswers (op.apply scope) (op.record envs) := by
  cases scope with
  | nil => exact absurd rfl hne
  | cons m scope =>
      cases envs with
      | nil => exact h.elim
      | cons adds envs =>
          cases op with
          | enter =>
              refine ⟨fun key => ?_, h⟩
              have hlookup := scopeLookup_enterScope (m :: scope) key
              rw [enterScope] at hlookup
              rw [hlookup, h.1 key]
              simp
          | add entry key =>
              refine ⟨fun key' => ?_, h.2⟩
              have hlookup := scopeLookup_scopeAdd (show m :: scope ≠ [] by simp) entry key key'
              rw [scopeAdd] at hlookup
              rw [hlookup, h.1 key', List.reverse_cons, List.flatten_append, List.flatten_singleton,
                List.reverse_cons, List.flatten_append, List.flatten_singleton, ← List.append_assoc,
                  lastAdd_concat]
          | exit => exact h.2

/-- What a sequence of operations leaves, when every exit has its enter. -/
theorem ScopeHolds.runs {depth' : Nat} (h : ScopeHolds w maps scope) (ha : ScopeAnswers scope envs)
    (hdepth : scope.length = depth + 1) (hops : ScopeOp.depthAfter depth ops = some depth') :
    ∃ (w' : World (TableNode SymId) (Nat × Fin tableSize)) (maps' : Linked.Scope) (scope' : Scope),
      ops.foldlM ScopeOp.run maps w.heap = some (maps', w'.heap) ∧ ScopeHolds w' maps' scope' ∧
      ScopeAnswers scope' (ops.foldl ScopeOp.record envs) ∧ scope'.length = depth' + 1 := by
  induction ops generalizing w maps scope envs depth with
  | nil =>
      obtain rfl := Option.some.inj hops
      exact ⟨w, maps, scope, rfl, h, ha, hdepth⟩
  | cons op ops ih =>
      have hne : scope ≠ [] := by
        rintro rfl
        simp at hdepth
      obtain ⟨w1, maps1, hrun1, h1⟩ := h.run hne op
      have ha1 := ha.apply hne op
      have hnext : ∃ depth1, (op.apply scope).length = depth1 + 1 ∧
          ScopeOp.depthAfter depth1 ops = some depth' := by
        obtain ⟨m, scope, rfl⟩ := List.exists_cons_of_ne_nil hne
        cases op with
        | enter => exact ⟨depth + 1, by rw [← hdepth]; rfl, hops⟩
        | add entry key => exact ⟨depth, hdepth, hops⟩
        | exit =>
            cases depth with
            | zero => simp [ScopeOp.depthAfter] at hops
            | succ depth => exact ⟨depth, Nat.succ.inj hdepth, hops⟩
      obtain ⟨depth1, hdepth1, hops1⟩ := hnext
      obtain ⟨w2, maps2, scope2, hrun2, h2, ha2, hd2⟩ := ih h1 ha1 hdepth1 hops1
      exact ⟨w2, maps2, scope2, by rw [List.foldlM_cons, bind_run hrun1, hrun2], h2, ha2, hd2⟩

/-! ### What is closed is gone

A part of a sequence that closes what it opens adds to the scope it starts in, and to no
other.
-/

theorem depthAfter_append (depth : Nat) (ops ops' : List ScopeOp) :
    ScopeOp.depthAfter depth (ops ++ ops') = (ScopeOp.depthAfter depth ops).bind fun d =>
      ScopeOp.depthAfter d ops' := by
  induction ops generalizing depth with
  | nil => rfl
  | cons op ops ih =>
      cases op with
      | enter => exact ih (depth + 1)
      | add entry key => exact ih depth
      | exit =>
          cases depth with
          | zero => rfl
          | succ depth => exact ih depth

/--
A sequence whose scopes are all closed again adds to the scope it starts in, and to none
below.
-/
theorem record_balanced {depth' : Nat} (below : List (List (SymId × String)))
    (hlen : envs.length = depth + 1) (hops : ScopeOp.depthAfter depth ops = some depth') :
    ∃ envs', ops.foldl ScopeOp.record (envs ++ below) = envs' ++ below ∧
      envs'.length = depth' + 1 := by
  induction ops generalizing envs depth with
  | nil =>
      obtain rfl := Option.some.inj hops
      exact ⟨envs, rfl, hlen⟩
  | cons op ops ih =>
      obtain ⟨adds, envs, rfl⟩ :=
        List.exists_cons_of_ne_nil (show envs ≠ [] by rintro rfl; simp at hlen)
      cases op with
      | enter =>
          have hlen' : ([] :: adds :: envs).length = depth + 1 + 1 := by
            rw [← hlen, List.length_cons]
          exact ih hlen' hops
      | add entry key =>
          have hlen' : ((adds ++ [(entry, key)]) :: envs).length = depth + 1 := hlen
          exact ih hlen' hops
      | exit =>
          cases depth with
          | zero => simp [ScopeOp.depthAfter] at hops
          | succ depth => exact ih (Nat.succ.inj hlen) hops

theorem openAdds_closed (before : List ScopeOp) {inner : List ScopeOp}
    (h : ScopeOp.Balanced inner) :
    ScopeOp.openAdds (before ++ .enter :: (inner ++ [.exit])) = ScopeOp.openAdds before := by
  have hone : ([[]] : List (List (SymId × String))).length = 0 + 1 := rfl
  obtain ⟨envs', hrec, hlen⟩ := record_balanced (before.foldl ScopeOp.record [[]]) hone h
  obtain ⟨adds, rfl⟩ := List.length_eq_one_iff.mp hlen
  rw [ScopeOp.openAdds, ScopeOp.openAdds, List.foldl_append, List.foldl_cons, List.foldl_append]
  rw [show ScopeOp.record (before.foldl ScopeOp.record [[]]) .enter = [[]]
    ++ before.foldl ScopeOp.record [[]] by rfl, hrec]
  rfl

/-! ### Runs from a global scope

The global scope is never left.
-/

/-- A well-nested sequence runs, and names are found by the adds in the scopes that are open. -/
theorem runAll_lookup (h : ScopeOp.WellNested ops) :
    ∃ scope heap, ScopeOp.runAll ops Heap.empty = some (scope, heap) ∧
      ∀ key, Linked.scopeLookup key scope heap = some (lastAdd (ScopeOp.openAdds ops) key,
        heap) := by
  obtain ⟨depth', hd⟩ := Option.isSome_iff_exists.mp h
  have hh : ScopeHolds ⟨Heap.empty, fun _ => none⟩ [Linked.hashmapNew] [hashmapNew] :=
    ⟨holds_new, trivial⟩
  have ha : ScopeAnswers [hashmapNew] [[]] := by
    refine ⟨fun key => ?_, trivial⟩
    rw [scopeLookup, hashmapGet_new]
    rfl
  have hone : ([hashmapNew] : Scope).length = 0 + 1 := rfl
  obtain ⟨w, maps, scope, hrun, h', ha', hlen⟩ := hh.runs ha hone hd
  refine ⟨maps, w.heap, hrun, fun key => ?_⟩
  rw [h'.lookup, ScopeOp.openAdds]
  generalize ops.foldl ScopeOp.record [[]] = envs at ha'
  obtain ⟨m, scope, rfl⟩ := List.exists_cons_of_ne_nil (show scope ≠ [] by rintro rfl; simp at hlen)
  cases envs with
  | nil => exact ha'.elim
  | cons adds envs => rw [ha'.1 key]

/--
**Scopes are lexical environments: a name is found as the last add of it made in the scopes that
are still open, and when a scope is left, every name as just before it was entered.**
-/
theorem scopes_are_environments (h : ScopeOp.WellNested ops) :
    ∃ scope heap, ScopeOp.runAll ops Heap.empty = some (scope, heap) ∧
      (∀ key, Linked.scopeLookup key scope heap = some (lastAdd (ScopeOp.openAdds ops) key, heap)) ∧
      ∀ before inner, ops = before ++ .enter :: (inner ++ [.exit]) → ScopeOp.Balanced inner →
        ∃ scope0 heap0, ScopeOp.runAll before Heap.empty = some (scope0, heap0) ∧
          ∀ key, ∃ entry, Linked.scopeLookup key scope0 heap0 = some (entry, heap0) ∧
            Linked.scopeLookup key scope heap = some (entry, heap) := by
  obtain ⟨scope, heap, hrun, hlookup⟩ := runAll_lookup h
  refine ⟨scope, heap, hrun, hlookup, fun before inner hops hinner => ?_⟩
  have hbefore : ScopeOp.WellNested before := by
    rw [ScopeOp.WellNested, hops, depthAfter_append] at h
    rw [ScopeOp.WellNested]
    cases hd : ScopeOp.depthAfter 0 before with
    | none =>
        rw [hd] at h
        simp at h
    | some d => rfl
  obtain ⟨scope0, heap0, hrun0, hlookup0⟩ := runAll_lookup hbefore
  refine ⟨scope0, heap0, hrun0, fun key => ⟨_, hlookup0 key, ?_⟩⟩
  rw [hlookup, hops, openAdds_closed before hinner]

/-- A block that declares its own `x`: behind it `x` is what it was. -/
theorem scopes_are_environments_block :
    ScopeOp.WellNested [.add 1 "x", .enter, .add 2 "x", .exit] ∧
      ∃ scope heap, ScopeOp.runAll [.add 1 "x", .enter, .add 2 "x", .exit] Heap.empty
        = some (scope, heap) ∧ Linked.scopeLookup "x" scope heap = some (some 1, heap) := by
  have h : ScopeOp.WellNested [.add 1 "x", .enter, .add 2 "x", .exit] := by decide
  obtain ⟨scope, heap, hrun, hlookup, -⟩ := scopes_are_environments h
  refine ⟨h, scope, heap, hrun, ?_⟩
  rw [hlookup]
  rfl

end MyLang
