/-
What the analysis accepts.

Put aside scopes, heap and frames, and there are two things left for a program to satisfy.  Its
names link in an environment that is only passed on, as `resolveProg` does it; and the types
that `type_check` compares are equal.  `comparisons` lists these, by the types the
declarations of the program ask for.

One hash map is left, the table of type names that `type_env_init` fills: what a declaration
asks for is looked up in it.  The clones of symbol tables that make
up the scopes do not come in.
-/
import MyLang.Typing
import MyLang.Proofs.SemaScope

namespace MyLang

/-- The type that was asked for where a symbol was declared. -/
def declaredType (types : List (Option TypeSpecifier)) (symbol : Option SymId) :
    Option TypeSpecifier :=
  (symbol.bind (types[·]?)).join

namespace AstNode

section Comparisons

/- The types of the declarations of a program, in order. -/
variable (types : List (Option TypeSpecifier))

/-- The type of an expression as `type_check` sees it, which looks at left operands only. -/
def headType : AstNode → Option TypeSpecifier
  | .intConst _ => some .int
  | .ident _ symbol => declaredType types symbol
  | .funcCall _ _ symbol => declaredType types symbol
  | .binExp _ _ left _ => left.headType
  | .unaryExpr postfixExpr _ _ => postfixExpr.headType
  | .varAsgn target _ => target.headType
  | .lval _ target => target.headType
  | .emptyExpr => some .void
  | _ => none
termination_by structural node => node

mutual

/--
The comparisons `type_check` makes, and for an expression statement that its expression has
a type.
-/
def comparisons : AstNode → List Construct
  | .compStmt body => comparisonsList body
  | .ifElse _ ifBody elseBody => ifBody.comparisons ++ elseBody.comparisons
  | .varDef _ _ expr symbol =>
      expr.comparisons ++ [⟨declaredType types symbol, expr.headType types⟩]
  | .binExp _ _ left _ => left.comparisons
  | .funcDef _ _ body _ _ => body.comparisons
  | .ret expr func => expr.comparisons ++ [⟨declaredType types func, expr.headType types⟩]
  | .varAsgn target rval => rval.comparisons ++ [⟨target.headType types, rval.headType types⟩]
  | .while_ _ body => body.comparisons
  | .for_ _ _ _ body => body.comparisons
  | .exprStmt expr => expr.comparisons ++ [⟨expr.headType types, expr.headType types⟩]
  | .unaryExpr postfixExpr _ _ => postfixExpr.comparisons
  | _ => []
termination_by structural node => node

/-- `comparisons` of the elements of a list. -/
def comparisonsList : List AstNode → List Construct
  | [] => []
  | node :: rest => node.comparisons ++ comparisonsList rest
termination_by structural nodes => nodes

end

end Comparisons

end AstNode

end MyLang
