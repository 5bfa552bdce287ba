/-
The labels code generation makes up.

A label is a stem, a number and an ending; only the number has digits in it, so it can be
read back, and labels made from different numbers differ.  How many numbers of each kind
the code of a tree takes is a matter of the tree: one for each `if`, `while`, `for`, `&&`
and `||` in it.

The letters of a label give back its kind and its ending, since no two of the thirteen
combinations have the same letters; `letters_inj` goes through them.  That is all of the
scheme that `Lib/FreshNames.lean` asks for.

A function can be called like a label, as names of functions are arbitrary identifiers and
end up in the same namespace.  `labelsApart` says that none is, in terms of the numbers
that the program takes: the first numbers of each kind, as many as are counted.
-/
import Mathlib.Algebra.Group.Pi.Basic
import MyLang.Lib.FreshNames
import MyLang.Proofs.Ast
import MyLang.Proofs.Gen

namespace MyLang

open FreshNames

/-! ### Reading a label back

Digits and letters of a text are two lists, and each is read on its own.
-/

namespace LabelKind

/-- The kinds of labels. -/
def all : List LabelKind := [.for_, .if_, .while_, .else_, .logAnd, .logOr]

/-- The endings of the labels made from one number. -/
def ends : LabelKind → List String
  | .for_ => ["init", "cond", "body", "step", "end"]
  | .if_ => [""]
  | .while_ => ["start", "end"]
  | .else_ => [""]
  | .logAnd => ["false", "end"]
  | .logOr => ["true", "end"]

theorem mem_all (kind : LabelKind) : kind ∈ all := by
  cases kind <;> decide

/-- The label with a number and an ending. -/
def label (kind : LabelKind) (i : Nat) (e : String) : String :=
  extendLabel (kind.stem ++ Nat.repr i) e

/-- The letters of a label name its kind and its ending. -/
private theorem letters_inj {k k' : LabelKind} {e e' : String} (he : e ∈ k.ends)
    (he' : e' ∈ k'.ends) (h : (k.stem ++ e).toList = (k'.stem ++ e').toList) : k = k' ∧ e = e' := by
  have hall : ∀ k ∈ all, ∀ e ∈ k.ends, ∀ k' ∈ all, ∀ e' ∈ k'.ends,
      (k.stem ++ e).toList = (k'.stem ++ e').toList → k = k' ∧ e = e' := by decide
  exact hall k (mem_all k) e he k' (mem_all k') e' he' h

private theorem digits_of_ends {k : LabelKind} {e : String} (he : e ∈ k.ends) :
    k.stem.toList.filter Char.isDigit = [] ∧ e.toList.filter Char.isDigit = [] ∧
      k.stem.toList.filter (!Char.isDigit ·) = k.stem.toList ∧
      e.toList.filter (!Char.isDigit ·) = e.toList := by
  have hall : ∀ k ∈ all, ∀ e ∈ k.ends,
      k.stem.toList.filter Char.isDigit = [] ∧ e.toList.filter Char.isDigit = [] ∧
        k.stem.toList.filter (!Char.isDigit ·) = k.stem.toList ∧
        e.toList.filter (!Char.isDigit ·) = e.toList := by decide
  exact hall k (mem_all k) e he

/-- The digits of a label are its number. -/
theorem digits_label {k : LabelKind} {e : String} (he : e ∈ k.ends) (i : Nat) :
    (k.label i e).toList.filter Char.isDigit = (Nat.repr i).toList := by
  obtain ⟨hs, hend, -, -⟩ := digits_of_ends he
  have hnum : (Nat.toDigits 10 i).filter Char.isDigit = Nat.toDigits 10 i :=
    List.filter_eq_self.mpr fun c hc => Nat.isDigit_of_mem_toDigits (by decide) (by decide) hc
  simp [label, extendLabel, hs, hend, hnum]

/-- The letters of a label are its stem and its ending. -/
theorem letters_label {k : LabelKind} {e : String} (he : e ∈ k.ends) (i : Nat) :
    (k.label i e).toList.filter (!Char.isDigit ·) = (k.stem ++ e).toList := by
  obtain ⟨-, -, hs, hend⟩ := digits_of_ends he
  have hnum : (Nat.toDigits 10 i).filter (!Char.isDigit ·) = [] := by
    refine List.filter_eq_nil_iff.mpr fun c hc => ?_
    have := Nat.isDigit_of_mem_toDigits (by decide) (by decide) hc
    simp [this]
  simp only [label, extendLabel, String.toList_append, List.filter_append, hs, hend,
    Nat.toList_repr, hnum, List.append_nil]

theorem label_inj {k k' : LabelKind} {i i' : Nat} {e e' : String} (he : e ∈ k.ends)
    (he' : e' ∈ k'.ends) (h : k.label i e = k'.label i' e') : k = k' ∧ i = i' ∧ e = e' := by
  have hnum : (Nat.repr i).toList = (Nat.repr i').toList := by
    rw [← digits_label he, ← digits_label he', h]
  have hlet : (k.stem ++ e).toList = (k'.stem ++ e').toList := by
    rw [← letters_label he i, ← letters_label he' i', h]
  obtain ⟨rfl, rfl⟩ := letters_inj he he' hlet
  rw [Nat.toList_repr, Nat.toList_repr] at hnum
  have hi : i = i' := by
    rw [← Nat.ofDigitChars_ten_toDigits (n := i), hnum, Nat.ofDigitChars_ten_toDigits]
  exact ⟨rfl, hi, rfl⟩

theorem ends_nodup (k : LabelKind) : k.ends.Nodup := by
  cases k <;> decide

end LabelKind

/-- The labels of code generation, as a scheme. -/
def labelScheme : Scheme LabelKind String String where
  ends := LabelKind.ends
  name := LabelKind.label
  ends_nodup := LabelKind.ends_nodup
  name_inj := LabelKind.label_inj

/-- A label has a digit in it, unlike `_start`. -/
theorem label_ne_start {k : LabelKind} {e : String} (he : e ∈ k.ends) (i : Nat) :
    k.label i e ≠ "_start" := by
  intro h
  have hdigits := LabelKind.digits_label he i
  rw [h] at hdigits
  have hnil : "_start".toList.filter Char.isDigit = [] := by decide
  rw [hnil, Nat.toList_repr] at hdigits
  exact Nat.toDigits_ne_nil hdigits.symm

/-! ### What the code of a tree takes

Counted on the tree, and the same before and after linking.
-/

/-- One for a kind and nothing for the others. -/
def LabelKind.one (kind : LabelKind) (k : LabelKind) : Nat := if k = kind then 1 else 0

/-- The kind of label an operator makes. -/
def opLabels : TokenType → LabelKind → Nat
  | .logAnd => LabelKind.logAnd.one
  | .logOr => LabelKind.logOr.one
  | _ => 0

namespace AstNode

mutual

/-- How many numbers of each kind the code of a tree takes. -/
def labelCount : AstNode → LabelKind → Nat
  | .binExp _ opType left right => left.labelCount + right.labelCount + opLabels opType
  | .funcDef _ _ body _ _ => body.labelCount
  | .varDef _ _ expr _ => expr.labelCount
  | .compStmt body => labelCountList body
  | .funcCall _ args _ => labelCountList args
  | .ret expr _ => expr.labelCount
  | .ifElse ifExpr ifBody elseBody =>
      LabelKind.if_.one + LabelKind.else_.one +
        (ifExpr.labelCount + (ifBody.labelCount + elseBody.labelCount))
  | .varAsgn target rval => target.labelCount + rval.labelCount
  | .while_ expr body => LabelKind.while_.one + (expr.labelCount + body.labelCount)
  | .for_ init cond step body =>
      LabelKind.for_.one +
        (init.labelCount + (cond.labelCount + (body.labelCount + step.labelCount)))
  | .exprStmt expr => expr.labelCount
  | .unaryExpr postfixExpr _ _ => postfixExpr.labelCount
  | _ => 0
termination_by structural node => node

/-- `labelCount` for the elements of a list. -/
def labelCountList : List AstNode → LabelKind → Nat
  | [] => 0
  | node :: rest => node.labelCount + labelCountList rest
termination_by structural nodes => nodes

end

mutual

/-- The functions a tree calls, in the order of the calls. -/
def calls : AstNode → List String
  | .binExp _ _ left right => left.calls ++ right.calls
  | .funcDef _ _ body _ _ => body.calls
  | .varDef _ _ expr _ => expr.calls
  | .compStmt body => callsList body
  | .funcCall value args _ => callsList args ++ [value]
  | .ret expr _ => expr.calls
  | .ifElse ifExpr ifBody elseBody => ifExpr.calls ++ (ifBody.calls ++ elseBody.calls)
  | .varAsgn target rval => target.calls ++ rval.calls
  | .while_ expr body => expr.calls ++ body.calls
  | .for_ init cond step body => init.calls ++ (cond.calls ++ (body.calls ++ step.calls))
  | .exprStmt expr => expr.calls
  | .unaryExpr postfixExpr _ _ => postfixExpr.calls
  | _ => []
termination_by structural node => node

/-- `calls` of the elements of a list. -/
def callsList : List AstNode → List String
  | [] => []
  | node :: rest => node.calls ++ callsList rest
termination_by structural nodes => nodes

end

end AstNode

/-- The names of the functions of a program. -/
def funcNames : List AstNode → List String
  | [] => []
  | .funcDef value _ _ _ _ :: rest => value :: funcNames rest
  | _ :: rest => funcNames rest

/-- The labels code generation makes up for a program. -/
def generatedLabels (prog : List AstNode) : List String :=
  LabelKind.all.flatMap fun kind =>
    (List.range (AstNode.labelCountList prog kind)).flatMap fun i => kind.ends.map (kind.label i)

/-- No function of a program is called like the start of the file or like a label made up for it. -/
def labelsApart (prog : List AstNode) : Bool :=
  (funcNames prog).all fun value => value ≠ "_start" && value ∉ generatedLabels prog

theorem mem_generatedLabels {prog : List AstNode} {l : String} :
    l ∈ generatedLabels prog ↔
      ∃ k i e, i < AstNode.labelCountList prog k ∧ e ∈ k.ends ∧ l = k.label i e := by
  simp only [generatedLabels, List.mem_flatMap, List.mem_range, List.mem_map]
  constructor
  · rintro ⟨k, -, i, hi, e, he, rfl⟩
    exact ⟨k, i, e, hi, he, rfl⟩
  · rintro ⟨k, i, e, hi, he, rfl⟩
    exact ⟨k, k.mem_all, i, hi, e, he, rfl⟩

end MyLang
