/-
The abstract syntax tree of `ast.h`, and the symbol table entries its nodes point to.

A node is a type tag and a pointer to the struct of that type; here the tag and the struct
are one constructor, and a pointer to another node is that node.  A `NULL` node pointer is
the constructor `null`, which no pass can look into.

The `symbol` fields are the exception: several nodes point to one symbol table entry,
later passes write into the entry, and the parser leaves the fields unset.  A symbol
pointer is therefore the index of an entry in a heap, and an unset or `NULL` one is
`none`.

The entries are those of the analysis and of the code generator both, which write into
different fields: the first all that is known of a declaration, the second where a
parameter was put.
-/
import MyLang.Token

namespace MyLang

/-- Index of a symbol table entry in the heap. -/
abbrev SymId := Nat

/-- Index of a stack frame record in the heap. -/
abbrev FrameId := Nat

/-- `Param`: a typed parameter of a function definition. -/
structure Param where
  value : String
  type : String
  symbol : Option SymId := none
deriving DecidableEq, Repr

/-- `AstLValueKind`. -/
inductive AstLValueKind where
  | ident
deriving DecidableEq, Repr

/-- `AstNode` and the structs it points to. -/
inductive AstNode where
  | intConst (value : Int)
  | binExp (value : String) (opType : TokenType) (left right : AstNode)
  | funcDef (value type : String) (body : AstNode) (params : List Param) (symbol : Option SymId)
  | varDef (value type : String) (expr : AstNode) (symbol : Option SymId)
  | ident (value : String) (symbol : Option SymId)
  | compStmt (body : List AstNode)
  | funcCall (value : String) (args : List AstNode) (symbol : Option SymId)
  | ret (expr : AstNode) (func : Option SymId)
  | ifElse (ifExpr ifBody elseBody : AstNode)
  | enum (value : String) (enums : List String)
  | varDec (value type : String) (symbol : Option SymId)
  | varAsgn (lval rval : AstNode)
  | while_ (expr body : AstNode)
  | for_ (init cond step body : AstNode)
  | emptyExpr
  | exprStmt (expr : AstNode)
  | unaryExpr (postfixExpr : AstNode) (value : String) (opType : TokenType)
  | lval (kind : AstLValueKind) (ident : AstNode)
  | null
deriving Repr

namespace AstNode

/-- `node->type == AST_EMPTY_EXPR`. -/
def isEmptyExpr : AstNode → Bool
  | emptyExpr => true
  | _ => false

/-- `node != NULL`. -/
def nonNull : AstNode → Bool
  | null => false
  | _ => true

/-- The types of node `gen_for` accepts as an initialiser that is no expression. -/
def isForInit : AstNode → Bool
  | varDec .. => true
  | varDef .. => true
  | emptyExpr => true
  | _ => false

end AstNode

/-! ### Symbol table entries

An entry is never removed, so its index names it for good.
-/

/-- `SymbolType`. -/
inductive SymbolType where
  | function
  | variable
  | keyword
  | const
deriving DecidableEq, Repr

/-- `TypeSpecifier`. -/
inductive TypeSpecifier where
  | int
  | void
  | char
  | long
  | double
  | float
deriving DecidableEq, Repr

/--
`SymTabEntry`.  The two pointers `make_symtab_entry` does not set are `none` until
they are; `offset` holds whatever the arena's memory held.
-/
structure SymTabEntry where
  key : String
  symbol : SymbolType
  type : TypeSpecifier
  isArgLoaded : Bool
  argReg : Nat
  offset : Nat
  params : Option (List Param)
  constValue : Nat
  frame : Option FrameId
  isUsed : Bool
deriving DecidableEq, Repr

/-- `StackFrame`. -/
structure StackFrame where
  size : Nat
  func : String
deriving DecidableEq, Repr

/-- `REGISTER_SIZE`. -/
abbrev registerSize : Nat := 4

/-- `INT_SIZE`. -/
abbrev intSize : Nat := 4

end MyLang
