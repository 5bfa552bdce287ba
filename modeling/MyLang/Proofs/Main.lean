/-
The compiler as a whole.

From the text of a file the compiler makes lines, and these do what the program in the
text does, from the first of them to the end of the process.

The passes are run one after the other, and the compiler stops with the first that does.
So if it returns, each of them has: the tokens were read as a program, the program was
accepted, and code was generated for it.  What is known of each pass is then known of the
text.

`myLang_preserves` is about the texts whose functions are `callFunc` and in whose code no
label stands twice.  The other modules say of each of these conditions what goes wrong
without it: `Proofs/CallPreserves.lean` and `Proofs/CallArrive.lean` for the slots of
calls, `Proofs/IfElse.lean` for bodies in front of an `else`, `Proofs/ShortCircuit.lean`
for effects on the right of `&&`, and `Proofs/Labels.lean` for labels.
-/
import MyLang.Main
import MyLang.Proofs.CallProg

namespace MyLang

open Rv32 ByteMemory

/-- A pass that returned has not stopped the compiler. -/
theorem mapError_bind_eq_ok {ε ε' α β : Type} {x : Except ε α} {f : ε → ε'} {g : α → Except ε' β}
    {b : β} : (x.mapError f >>= g) = .ok b ↔ ∃ a, x = .ok a ∧ g a = .ok b := by
  cases x with
  | error e => simp [Except.mapError, bind, Except.bind]
  | ok a => simp [Except.mapError, bind, Except.bind]

/-- The compiler returns if every pass does. -/
theorem myLang_eq_ok {unset : Nat → Token} {uninit : Int} {arena : SymId → Nat} {fuel : Nat}
    {input : List Char} {r : SemaResult} {asm : List Rv32.Line} :
    myLang unset uninit arena fuel input = some (.ok (r, asm)) ↔
    ∃ tokens, tokenize unset fuel input = some (.ok tokens) ∧ Accepted uninit arena tokens r ∧
      genAsm r = .ok asm := by
  rw [myLang, Option.map_eq_some_iff]
  simp only [mapError_bind_eq_ok]
  constructor
  · rintro ⟨lexed, hlex, tokens, rfl, parsed, hparse, r', hsema, asm', hasm, h⟩
    obtain ⟨rfl, rfl⟩ := Prod.mk.inj (Except.ok.inj h)
    exact ⟨tokens, hlex, ⟨parsed.1, parsed.2, hparse, hsema⟩, hasm⟩
  · rintro ⟨tokens, hlex, ⟨prog, rest, hparse, hsema⟩, hasm⟩
    exact ⟨_, hlex, tokens, rfl, (prog, rest), hparse, r, hsema, asm, hasm, rfl⟩

/-- A function called by `main`. -/
def oneText : String := "int one() { return 1; } int main() { return one(); }"

/-- The tokens of `oneText`: type, text and position. -/
def oneTokens : List Token :=
  [((.type, "int", 1) : TokenType × String × Int), (.ident, "one", 3), (.lparen, "(", 4),
    (.rparen, ")", 5),
    (.lbrace, "\x7b", 7), (.return_, "return", 9), (.num, "1", 11), (.semicolon, ";", 12),
      (.rbrace, "\x7d", 14),
    (.type, "int", 16), (.ident, "main", 18), (.lparen, "(", 19), (.rparen, ")", 20),
      (.lbrace, "\x7b", 22),
    (.return_, "return", 24), (.ident, "one", 26), (.lparen, "(", 27), (.rparen, ")", 28),
      (.semicolon, ";", 29),
    (.rbrace, "\x7d", 31)].map fun t => { type := t.1, value := t.2.1, pos := t.2.2, line := 1 }

/-- The checked bodies of its two functions. -/
def oneBody : AstNode := .compStmt [.ret (.intConst 1) (some 0)]

def oneMainBody : AstNode := .compStmt [.ret (.funcCall "one" [] (some 0)) (some 1)]

/-- What the analysis makes of it. -/
def oneResult : SemaResult :=
  { prog := [.funcDef "one" "int" oneBody [] (some 0), .funcDef "main" "int" oneMainBody []
    (some 1)]
    entries := [{ funcEntry "one" .int 0 [] 0 with isUsed := true }, funcEntry "main" .int 0 [] 1]
    frames := [{ size := 0, func := "one" }, { size := 0, func := "main" }]
    symbols := [0, 1]
    warnings := [] }

/-- A call of `main`, which calls `one`. -/
theorem one_calls : Calls oneResult 2 224 "main" 1 [] (some (CInt.ofWord 1)) := by
  have hone : Calls oneResult 1 112 "one" 0 [] (some (CInt.ofWord 1)) :=
    ⟨_, _, _, _, _, List.mem_cons_self .., rfl, by decide, .blockReturn (.ret (.intConst rfl)), rfl⟩
  exact ⟨_, _, _, _, _, List.mem_cons_of_mem _ (List.mem_cons_self ..), rfl, by decide,
    .blockReturn (.ret (.funcCall .nil hone)), rfl⟩

end MyLang
