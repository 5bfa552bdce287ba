/-
What the memory of symbol table entries decides.

`make_symtab_entry` leaves the `offset` of an entry as it was in memory.  Whether a text
is compiled does not depend on it, and neither does the number of lines.  The lines
themselves do exactly where an offset is used that was never set.

Two runs of the compiler are set side by side that differ in this memory and in nothing
else.  The tokens are the same for both, so what a fresh token holds is too; it is read
where a text ends in a comment, and there it does decide what the parser gets.

The analysis has been followed in `Proofs/Twins.lean` and code generation in
`Proofs/Alongside.lean`; what is left is to put them one behind the other.  For the other
direction, that an unset offset that is used does show, a memory is needed in which every
byte is another one than in the first.
-/
import MyLang.Proofs.Alongside
import MyLang.Proofs.Main

namespace MyLang

open Rv32

/-- Addresses one byte apart are different ones. -/
theorem sizeToInt_succ_ne (n : Nat) : sizeToInt n ≠ sizeToInt (n + 1) := by
  intro heq
  have hbits : BitVec.ofNat 32 n = BitVec.ofNat 32 (n + 1) := BitVec.eq_of_toInt_eq heq
  have hmod := congrArg BitVec.toNat hbits
  rw [BitVec.toNat_ofNat, BitVec.toNat_ofNat] at hmod
  omega

/-- Memory in which every byte is one more. -/
theorem Memories.apart_succ (one : SymId → Nat) (entries : List SymTabEntry) (vars : List SymId) :
    (⟨one, fun id => one id + 1, entries, vars⟩ : Memories).Apart :=
  fun id => sizeToInt_succ_ne (localsBase + one id)

variable {unset : Nat → Token} {uninit : Int} {arena : SymId → Nat} {fuel : Nat} {input : List Char}
  {r : SemaResult}
  {P : List Line}

/-- With other entries in memory the compiler returns as many lines. -/
theorem myLang_alongside (h : myLang unset uninit arena fuel input = some (.ok (r, P)))
    (arena' : SymId → Nat) : ∃ r' P', myLang unset uninit arena' fuel input = some (.ok (r', P')) ∧
      (⟨arena, arena', r.entries, progVars r.prog⟩ : Memories).Gap r.unsetUses P P' := by
  obtain ⟨tokens, hlex, hacc, hasm⟩ := myLang_eq_ok.mp h
  obtain ⟨prog, rest, hparse, hsema⟩ := hacc
  obtain ⟨entries, hsema', htwins, hloaded⟩ := semaCheck_twins (parse_isFuncDef hparse) hsema arena'
  obtain ⟨P', hasm', hgap⟩ :=
    genAsm_alongside (Accepted.isFuncDef ⟨prog, rest, hparse, hsema⟩) htwins hloaded hasm
  exact ⟨_, P', myLang_eq_ok.mpr ⟨tokens, hlex, ⟨prog, rest, hparse, hsema'⟩, hasm'⟩, hgap⟩

/--
**What symbol table entries have in memory decides the output exactly where an unset offset
is used.** A text that is compiled with one content of their memory is compiled with every
other, to as many lines, if all other memory holds the same.  They are the same lines for
every content if and only if no tree of the program uses an offset that was never set.
-/
theorem myLang_memory (h : myLang unset uninit arena fuel input = some (.ok (r, P))) :
    (∀ arena', ∃ r' P', myLang unset uninit arena' fuel input = some (.ok (r', P')) ∧
      P'.length = P.length) ∧
      ((∀ arena' r' P', myLang unset uninit arena' fuel input = some (.ok (r', P')) → P' = P) ↔
        r.unsetUses = []) := by
  refine ⟨fun arena' => ?_, fun hsame => ?_, fun hset arena' r' P' h' => ?_⟩
  · obtain ⟨r', P', h', hgap⟩ := myLang_alongside h arena'
    exact ⟨r', P', h', hgap.length⟩
  · by_contra hne
    obtain ⟨r', P', h', hgap⟩ := myLang_alongside h fun id => arena id + 1
    exact hgap.differ hne (Memories.apart_succ arena r.entries _) (hsame _ r' P' h')
  · obtain ⟨r'', P'', h'', hgap⟩ := myLang_alongside h arena'
    rw [h''] at h'
    obtain ⟨-, rfl⟩ := Prod.mk.inj (Except.ok.inj (Option.some.inj h'))
    exact hgap.same hset

/-- An assignment to a parameter. -/
def paramText : String := "int main(int x) { x = 1; return x; }"

/-- The tokens of `paramText`: type, text and position. -/
def paramTokens : List Token :=
  [((.type, "int", 1) : TokenType × String × Int), (.ident, "main", 3), (.lparen, "(", 4),
    (.type, "int", 5),
    (.ident, "x", 7), (.rparen, ")", 8), (.lbrace, "\x7b", 10), (.ident, "x", 12),
      (.assign, "=", 14), (.num, "1", 16),
    (.semicolon, ";", 17), (.return_, "return", 19), (.ident, "x", 21), (.semicolon, ";", 22),
    (.rbrace, "\x7d", 24)].map fun t => { type := t.1, value := t.2.1, pos := t.2.2, line := 1 }

/-- What the analysis makes of it; `x` has the offset that was in memory. -/
def paramResult : SemaResult :=
  { prog := [.funcDef "main" "int"
      (.compStmt [.exprStmt (.varAsgn (.lval .ident (.ident "x" (some 0))) (.intConst 1)),
        .ret (.ident "x" (some 0)) (some 1)])
      [{ value := "x", type := "int", symbol := some 0 }] (some 1)]
    entries := [{ varEntry "x" .int 0 with isUsed := true },
      funcEntry "main" .int 0 [{ value := "x", type := "int", symbol := some 0 }] 0]
    frames := [{ size := 0, func := "main" }]
    symbols := [1]
    warnings := [] }

theorem myLang_memory_param : ∃ P,
    myLang (fun _ => tok .ident "") 0 (fun _ => 0) 100 paramText.toList
      = some (.ok (paramResult, P)) ∧
      ¬ ∀ arena' r' P', myLang (fun _ => tok .ident "") 0 arena' 100 paramText.toList
        = some (.ok (r', P')) → P' = P := by
  have htokens : tokenize (fun _ => tok .ident "") 100 paramText.toList
    = some (.ok paramTokens) := by rfl
  have hprog : parse 0 paramTokens = .ok (paramResult.prog.map AstNode.erase, []) := by rfl
  have hsema : semaCheck (fun _ => 0) typeEnvInit (paramResult.prog.map AstNode.erase)
    = .ok paramResult := by rfl
  obtain ⟨P, hasm⟩ : ∃ P, genAsm paramResult = .ok P := ⟨_, rfl⟩
  have hlang : myLang (fun _ => tok .ident "") 0 (fun _ => 0) 100 paramText.toList
      = some (.ok (paramResult, P)) :=
    myLang_eq_ok.mpr ⟨paramTokens, htokens, ⟨_, _, hprog, hsema⟩, hasm⟩
  refine ⟨P, hlang, fun hsame => ?_⟩
  exact absurd ((myLang_memory hlang).2.mp hsame) (by decide)

end MyLang
