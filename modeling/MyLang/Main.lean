/-
`my_lang` of `main.c`: from the text of a file to the lines of its assembly file.

It is asked to dump nothing here.  The program that was checked is handed out beside the
lines, for what is said of both.
-/
import MyLang.Compiler
import MyLang.Lex

namespace MyLang

/-- The pass that ends the compiler, with what it says. -/
inductive CompileError where
  | lex (e : LexError)
  | parse (e : ParseError)
  | sema (e : SemaError)
  | asm (e : AsmError)

/-- `my_lang`. -/
def myLang (unset : Nat → Token) (uninit : Int) (arena : SymId → Nat) (fuel : Nat)
    (input : List Char) : Option (Except CompileError (SemaResult × List Rv32.Line)) :=
  (tokenize unset fuel input).map fun lexed => do
    let tokens ← lexed.mapError .lex
    let parsed ← (parse uninit tokens).mapError .parse
    let r ← (semaCheck arena typeEnvInit parsed.1).mapError .sema
    let asm ← (genAsm r).mapError .asm
    return (r, asm)

end MyLang
