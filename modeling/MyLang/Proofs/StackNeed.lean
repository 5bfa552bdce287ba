/-
A bound on the stack, known before the program runs.

What a call means does not depend on stack it does not use.  A function that calls others
gives each of them what is left behind its own frame, and what it needs covers that; so a
call that has a meaning at all has one within what its function needs.

`stackNeeds` goes through the functions of a program from the first to the last.  A
function calls itself or one in front of it, there being no declarations ahead, and if
none calls itself the need of each is known from those in front: its frame, and the
largest need of a function that it calls.

Calls in a meaning are given by a relation, and `Execs.mono` says that a command has its
meaning with any other relation that gives the same for the functions it calls.  So the
stack of a call may be replaced by the need of its function, from the innermost calls
outwards.
-/
import MyLang.StackNeed
import MyLang.Proofs.Calls
import MyLang.Proofs.Main

namespace MyLang

open Rv32

/-! ### Less is called

A run keeps its meaning if the functions that it calls do.
-/

section Mono

variable {entries : List SymTabEntry} {call call' : CallRel} {σ σ' : Store} {res : Option CInt}

/-- Expressions in a row mean the same if each of them does. -/
private theorem EvalAll.mono {args : List AstNode} {vs : List CInt}
    (ih : ∀ node ∈ args, ∀ {σ σ' res}, (∀ f ∈ node.calls, ∀ id vs res, call f id vs res →
      call' f id vs res) → Eval entries call node σ res σ' → Eval entries call' node σ res σ')
    (hcall : ∀ f ∈ AstNode.callsList args, ∀ id vs res, call f id vs res → call' f id vs res)
    (h : EvalAll entries call args σ vs σ') : EvalAll entries call' args σ vs σ' := by
  induction args generalizing σ vs with
  | nil =>
      cases h
      exact .nil
  | cons node rest ihl =>
      cases h with
      | cons hnode hrest =>
          refine .cons (ih node List.mem_cons_self
            (fun f hf => hcall f (List.mem_append_left _ hf)) hnode) ?_
          exact ihl (fun n hn => ih n (List.mem_cons_of_mem _ hn))
            (fun f hf => hcall f (List.mem_append_right _ hf)) hrest

/-- An expression means the same where the functions it calls do at least what they did. -/
theorem Eval.mono {node : AstNode} (hcall : ∀ f ∈ node.calls, ∀ id vs res, call f id vs res →
      call' f id vs res)
    (h : Eval entries call node σ res σ') : Eval entries call' node σ res σ' := by
  induction node generalizing σ res σ' with
  | intConst =>
      cases h with
      | intConst h => exact .intConst h
  | ident =>
      cases h with
      | ident h => exact .ident h
  | binExp value opType left right ihl ihr =>
      have hl : ∀ f ∈ left.calls, ∀ id vs res, call f id vs res → call' f id vs res :=
        fun f hf => hcall f (List.mem_append_left _ hf)
      have hr : ∀ f ∈ right.calls, ∀ id vs res, call f id vs res → call' f id vs res :=
        fun f hf => hcall f (List.mem_append_right _ hf)
      cases h with
      | shortcut hleft hz => exact .shortcut (ihl hl hleft) hz
      | binExp hleft hnone hright hz => exact .binExp (ihl hl hleft) hnone (ihr hr hright) hz
  | unaryExpr expr value opType ih =>
      cases h with
      | not h => exact .not (ih hcall h)
  | varAsgn target rval _ ihr =>
      cases h with
      | varAsgn h => exact .varAsgn (ihr (fun f hf => hcall f (List.mem_append_right _ hf)) h)
  | funcCall value args symbol ih =>
      cases h with
      | funcCall hargs hres =>
          refine .funcCall (EvalAll.mono ih (fun f hf => hcall f (List.mem_append_left _ hf)) hargs)
            ?_
          exact hcall value (List.mem_append_right _ (List.mem_singleton_self value)) _ _ _ hres
  | _ => cases h

/-- The functions that are called in a command. -/
def Cmd.calls : Cmd → List String
  | .stmt node => node.calls
  | .loop cond step body => cond.calls ++ (body.calls ++ step.calls)

variable {names : List String} {eval eval' : AstNode → Store → Option CInt → Store → Prop}

theorem EvalCond.mono (heval : ∀ {node σ res σ'}, eval node σ res σ' → node.calls ⊆ names →
      eval' node σ res σ') {cond : AstNode} {b : Bool} (hcalls : cond.calls ⊆ names)
    (h : EvalCond eval cond σ b σ') :
    EvalCond eval' cond σ b σ' := by
  cases h with
  | empty => exact .empty
  | expr hne h => exact .expr hne (heval h hcalls)

/-- A command does the same where its expressions do at least what they did. -/
theorem Execs.mono (heval : ∀ {node σ res σ'}, eval node σ res σ' → node.calls ⊆ names →
      eval' node σ res σ') {c : Cmd} {o : Outcome} (hcalls : c.calls ⊆ names)
    (h : Execs eval c σ o σ') : Execs eval' c σ o σ' := by
  induction h with
  | varDec => exact .varDec
  | varDef h => exact .varDef (heval h hcalls)
  | exprStmt hne h => exact .exprStmt hne (heval h hcalls)
  | emptyStmt => exact .emptyStmt
  | emptyExpr => exact .emptyExpr
  | enum => exact .enum
  | blockNil => exact .blockNil
  | blockCons _ _ ih ihrest =>
      obtain ⟨hnode, hrest⟩ := List.append_subset.mp hcalls
      exact .blockCons (ih hnode) (ihrest hrest)
  | blockReturn _ ih => exact .blockReturn (ih (List.append_subset.mp hcalls).1)
  | ifTrue h hx _ ih =>
      obtain ⟨hcond, hbodies⟩ := List.append_subset.mp hcalls
      exact .ifTrue (heval h hcond) hx (ih (List.append_subset.mp hbodies).1)
  | ifFalse h hx => exact .ifFalse (heval h (List.append_subset.mp hcalls).1) hx
  | ifElse h hx hne _ ih =>
      obtain ⟨hcond, hbodies⟩ := List.append_subset.mp hcalls
      exact .ifElse (heval h hcond) hx hne (ih (List.append_subset.mp hbodies).2)
  | whileDone h hx => exact .whileDone (heval h (List.append_subset.mp hcalls).1) hx
  | whileStep h hx _ _ ihbody ihrest =>
      obtain ⟨hcond, hbody⟩ := List.append_subset.mp hcalls
      exact .whileStep (heval h hcond) hx (ihbody hbody) (ihrest hcalls)
  | whileReturn h hx _ ih =>
      obtain ⟨hcond, hbody⟩ := List.append_subset.mp hcalls
      exact .whileReturn (heval h hcond) hx (ih hbody)
  | @forStart init cond step body _ _ _ _ _ _ ihinit ihloop =>
      obtain ⟨hinit, hloop⟩ := List.append_subset.mp hcalls
      refine .forStart (ihinit ?_) (ihloop hloop)
      unfold forInit
      split
      · exact hinit
      · exact hinit
  | loopDone h => exact .loopDone (h.mono heval (List.append_subset.mp hcalls).1)
  | loopStep h _ _ _ ihbody ihstep ihrest =>
      obtain ⟨hcond, hrest⟩ := List.append_subset.mp hcalls
      obtain ⟨hbody, hstep⟩ := List.append_subset.mp hrest
      exact .loopStep (h.mono heval hcond) (ihbody hbody) (ihstep hstep) (ihrest hcalls)
  | loopReturn h _ ih =>
      obtain ⟨hcond, hrest⟩ := List.append_subset.mp hcalls
      exact .loopReturn (h.mono heval hcond) (ih (List.append_subset.mp hrest).1)
  | ret h => exact .ret (heval h hcalls)
  | retVoid => exact .retVoid

end Mono

variable {r : SemaResult} {P : List Line}

/-- With more stack a call means the same. -/
theorem Calls.mono {depth room room' : Nat} (hroom : room ≤ room') {name : String} {id : SymId}
    {args : List CInt} {res : Option CInt} (h : Calls r depth room name id args res) :
    Calls r depth room' name id args res := by
  induction depth generalizing room room' name id args res with
  | zero => exact h.elim
  | succ depth ih =>
      obtain ⟨type, body, params, o, σ, hfunc, hlen, hframe, hexec, hres⟩ := h
      refine ⟨type, body, params, o, σ, hfunc, hlen, hframe.trans hroom, ?_, hres⟩
      refine hexec.mono (fun hev _ => ?_) (List.Subset.refl body.calls)
      exact hev.mono fun f _ id vs res hcall => ih (Nat.sub_le_sub_right hroom _) hcall

/-! ### What a program calls

Names of functions are declared where they are defined, so nothing can be called before
that.
-/

/-- Every function calls itself and functions in front of it only. -/
def CallsBack (names : List String) : List AstNode → Prop
  | [] => True
  | .funcDef name _ body _ _ :: rest => body.calls ⊆ names ++ [name] ∧
    CallsBack (names ++ [name]) rest
  | _ :: rest => CallsBack names rest

theorem resolveProg_callsBack {typeEnv : HashMap TypeSpecifier} {env : Env} {next : Nat}
    {names : List String} {prog prog' : List AstNode} (henv : AstNode.FuncsIn env names)
    (h : resolveProg typeEnv env next prog = some prog') : CallsBack names prog' := by
  induction prog generalizing env next names prog' with
  | nil =>
      obtain rfl := Option.some.inj h
      trivial
  | cons node rest ih =>
      cases node with
      | funcDef value type body params symbol =>
          obtain ⟨body', rest', -, -, -, hb, hrest, rfl⟩ := resolveProg_cons_eq_some.mp h
          exact ⟨AstNode.resolve_calls (henv.addFunc next value params) hb,
            ih (henv.addFunc next value params) hrest⟩
      | _ => simp [resolveProg] at h

/-- **The functions of an accepted program call back only.** -/
theorem Accepted.callsBack {uninit : Int} {arena : SymId → Nat} {tokens : List Token}
    (hacc : Accepted uninit arena tokens r) : CallsBack [] r.prog := by
  obtain ⟨prog, rest, -, -, hresolve⟩ := hacc.resolveProg
  exact resolveProg_callsBack ⟨by simp⟩ hresolve

/-! ### What a function needs

By induction on the functions, with the needs of those in front.
-/

theorem le_deepest {needs : List (String × Nat)} {names : List String} {f : String}
    (hf : f ∈ names) : (needs.lookup f).getD 0 ≤ deepest needs names := by
  induction names with
  | nil => cases hf
  | cons name rest ih =>
      show _ ≤ max _ (deepest needs rest)
      rcases List.mem_cons.mp hf with rfl | hf
      · exact Nat.le_max_left _ _
      · exact (ih hf).trans (Nat.le_max_right _ _)

/-- What is known of functions in front stays. -/
theorem stackNeeds_lookup {needs : List (String × Nat)} {prog : List AstNode} {f : String}
    (hf : f ∉ funcNames prog) : (stackNeeds needs prog).lookup f = needs.lookup f := by
  induction prog generalizing needs with
  | nil => rfl
  | cons node rest ih =>
      cases node with
      | funcDef name type body params symbol =>
          simp only [funcNames, List.mem_cons, not_or] at hf
          rw [stackNeeds, ih hf.2, List.lookup_cons, beq_false_of_ne hf.1]
      | _ => exact ih hf

/-- A function needs its frame and what any function it calls needs. -/
theorem stackNeeds_covers (needs : List (String × Nat)) {names : List String} {prog : List AstNode}
    (hback : CallsBack names prog) (hnd : (names ++ funcNames prog).Nodup) {name type : String}
    {body : AstNode} {params : List Param} {symbol : Option SymId}
    (hfunc : .funcDef name type body params symbol ∈ prog) (hself : name ∉ body.calls) :
    ∃ n, (stackNeeds needs prog).lookup name = some n ∧ frameBytes body ≤ n ∧
      ∀ f ∈ body.calls, frameBytes body + ((stackNeeds needs prog).lookup f).getD 0 ≤ n := by
  induction prog generalizing needs names with
  | nil => cases hfunc
  | cons node rest ih =>
      cases node with
      | funcDef value type' body' params' symbol' =>
          obtain ⟨hcalls, hrest⟩ := hback
          have hnd' : (names ++ [value] ++ funcNames rest).Nodup := by
            rw [List.append_assoc]
            exact hnd
          rw [stackNeeds]
          rcases List.mem_cons.mp hfunc with heq | hfunc
          · obtain ⟨rfl, rfl, rfl, rfl, rfl⟩ := AstNode.funcDef.inj heq
            have hbehind : ∀ f ∈ names ++ [name], f ∉ funcNames rest := fun f hf hf' =>
              (List.nodup_append.mp hnd').2.2 f hf f hf' rfl
            refine ⟨frameBytes body + deepest needs body.calls, ?_, Nat.le_add_right _ _,
              fun f hf => ?_⟩
            · rw [stackNeeds_lookup (hbehind name (by simp)), List.lookup_cons_self]
            · have hne : f ≠ name := fun heq => hself (heq ▸ hf)
              rw [stackNeeds_lookup (hbehind f (hcalls hf)), List.lookup_cons, beq_false_of_ne hne]
              exact Nat.add_le_add_left (le_deepest hf) _
          · exact ih _ hrest hnd' hfunc
      | _ =>
          rcases List.mem_cons.mp hfunc with heq | hfunc
          · cases heq
          · exact ih _ hback hnd hfunc

/--
**A call that has a meaning has one within what its function needs**, where no function
calls itself.
-/
theorem Calls.within {uninit : Int} {arena : SymId → Nat} {tokens : List Token}
    (hacc : Accepted uninit arena tokens r) (hself : ∀ n ∈ r.prog, n.selfFree = true)
    {depth room : Nat} {name : String} {id : SymId} {args : List CInt}
    {res : Option CInt} (h : Calls r depth room name id args res) :
    Calls r depth (r.stackNeed name) name id args res := by
  induction depth generalizing room name id args res with
  | zero => exact h.elim
  | succ depth ih =>
      obtain ⟨type, body, params, o, σ, hfunc, hlen, -, hexec, hres⟩ := h
      have hnot : name ∉ body.calls := of_decide_eq_true (hself _ hfunc)
      have hnd : ([] ++ funcNames r.prog).Nodup := hacc.calls.2
      obtain ⟨n, hn, hframe, hcallees⟩ := stackNeeds_covers [] hacc.callsBack hnd hfunc hnot
      have hneed : r.stackNeed name = n := by rw [SemaResult.stackNeed, hn, Option.getD_some]
      rw [hneed]
      refine ⟨type, body, params, o, σ, hfunc, hlen, hframe, ?_, hres⟩
      refine hexec.mono (fun hev hcalls => ?_) (List.Subset.refl body.calls)
      refine hev.mono fun f hf id vs res hcall => (ih hcall).mono ?_
      have := hcallees f (hcalls hf)
      show ((stackNeeds [] r.prog).lookup f).getD 0 ≤ _
      omega

variable {unset : Nat → Token} {uninit : Int} {arena : SymId → Nat} {fuel : Nat} {input : List Char}

end MyLang
