/-
What the parser's primitives and lookaheads do to a stream.

A primitive that reads the stream leaves it, and what follows runs on what was read.  The
lookaheads look into up to three tokens, and stop if one they look into is missing; they
return only on a stream long enough.

Two ways of using these lemmas occur.  Where the stream is known, as in
`Proofs/ExprRender.lean`, the parser is run with them step by step.  Where a parse
function has returned, as in `Proofs/ParseShape.lean`, the lemmas about lookaheads say
what the stream must have been like.
-/
import MyLang.Parse
import MyLang.Lib.StateExcept

namespace MyLang

open StateExcept

variable {α : Type} {ts ts' : TokenStream} {t u : Token}

/-! ### Primitives

`current_token` and `peek` may return `NULL`, and `deref` is where this is noticed.
-/

@[simp] theorem currentToken_bind {f : Option Token → Parser α} :
    (currentToken >>= f) ts = f ts.head? ts := rfl

@[simp] theorem peek_bind {n : Nat} {f : Option Token → Parser α} :
    (peek n >>= f) ts = f ts[n]? ts := rfl

@[simp] theorem nextToken_bind {f : Unit → Parser α} :
    (nextToken >>= f) ts = f () ts.tail := rfl

@[simp] theorem deref_some_bind {f : Token → Parser α} :
    (deref (some t) >>= f) ts = f t ts := rfl

@[simp] theorem deref_none_bind {f : Token → Parser α} :
    (deref none >>= f) ts = .error .nullToken := rfl

theorem deref_bind_eq_ok {o : Option Token} {f : Token → Parser α} {a : α} :
    (deref o >>= f) ts = .ok (a, ts') ↔ ∃ t, o = some t ∧ f t ts = .ok (a, ts') := by
  cases o with
  | none =>
      rw [deref_none_bind]
      simp
  | some t =>
      rw [deref_some_bind]
      simp

theorem expect_cons_bind {ty : TokenType} {f : Option Token → Parser α} (h : t.type = ty) :
    (expect ty >>= f) (t :: ts) = f (some t) ts := by
  simp only [expect, bind_assoc, currentToken_bind, List.head?_cons]
  rw [if_pos h]
  rfl

/-! ### Lookaheads

They return a truth value and leave the stream, so what matters is when it is true.
-/

/-- A name is looked at with the token behind it. -/
private theorem nameThen_eq_ok {second : TokenType} {b : Bool} :
    (do
      let name ← currentToken
      let next ← peek 1
      if (← deref name).type = .ident then
        return (← deref next).type = second
      else
        return false : Parser Bool) ts = .ok (b, ts') ↔ ts' = ts ∧ ∃ t rest, ts = t :: rest ∧
      ((t.type ≠ .ident ∧ b = false) ∨
        (t.type = .ident ∧ ∃ u rest', rest = u :: rest' ∧ b = decide (u.type = second))) := by
  simp only [currentToken_bind, peek_bind, deref_bind_eq_ok]
  cases ts with
  | nil => simp
  | cons t rest =>
      by_cases ht : t.type = .ident
      · cases rest with
        | nil => simp [ht, -bind_pure_comp]
        | cons u rest' => simp [ht, -bind_pure_comp, and_comm]
      · simp [ht, and_comm]

theorem isVarAsgn_eq_ok {b : Bool} :
    isVarAsgn ts = .ok (b, ts') ↔ ts' = ts ∧ ∃ t rest, ts = t :: rest ∧
      ((t.type ≠ .ident ∧ b = false) ∨
        (t.type = .ident ∧ ∃ u rest', rest = u :: rest' ∧ b = decide (u.type = .assign))) :=
  nameThen_eq_ok

theorem isFuncCallStart_eq_ok {b : Bool} :
    isFuncCallStart ts = .ok (b, ts') ↔ ts' = ts ∧ ∃ t rest, ts = t :: rest ∧
      ((t.type ≠ .ident ∧ b = false) ∨
        (t.type = .ident ∧ ∃ u rest', rest = u :: rest' ∧ b = decide (u.type = .lparen))) :=
  nameThen_eq_ok

/-- A declaration is recognised by three tokens. -/
theorem isDeclStart_eq_ok {third : TokenType} {b : Bool} :
    isDeclStart third ts = .ok (b, ts') ↔ ts' = ts ∧ ∃ t rest, ts = t :: rest ∧
      ((t.type ≠ .type ∧ b = false) ∨
        (t.type = .type ∧ ∃ u rest', rest = u :: rest' ∧
          ((u.type ≠ .ident ∧ b = false) ∨
            (u.type = .ident ∧ ∃ v rest'', rest' = v :: rest'' ∧
              b = decide (v.type = third))))) := by
  simp only [isDeclStart, currentToken_bind, peek_bind, deref_bind_eq_ok]
  cases ts with
  | nil => simp
  | cons t rest =>
      by_cases ht : t.type = .type
      · cases rest with
        | nil => simp [ht, -bind_pure_comp]
        | cons u rest' =>
            by_cases hu : u.type = .ident
            · cases rest' with
              | nil => simp [ht, hu, -bind_pure_comp]
              | cons v rest'' => simp [ht, hu, -bind_pure_comp, and_comm]
            · simp [ht, hu, -bind_pure_comp, and_comm]
      · simp [ht, and_comm]

theorem isVarDefStart_eq_ok_true :
    isVarDefStart ts = .ok (true, ts') ↔ ts' = ts ∧ ∃ t u v rest, ts = t :: u :: v :: rest ∧
      t.type = .type ∧ u.type = .ident ∧ v.type = .assign := by
  rw [isVarDefStart, isDeclStart_eq_ok]
  constructor
  · rintro ⟨rfl, t, rest, rfl, ⟨-, h⟩ | ⟨ht, u, rest', rfl, ⟨-, h⟩ | ⟨hu, v, rest'', rfl, hv⟩⟩⟩
    · simp at h
    · simp at h
    · exact ⟨rfl, t, u, v, rest'', rfl, ht, hu, by simpa using hv.symm⟩
  · rintro ⟨rfl, t, u, v, rest, rfl, ht, hu, hv⟩
    exact ⟨rfl, t, _, rfl, Or.inr ⟨ht, u, _, rfl, Or.inr ⟨hu, v, rest, rfl, by simp [hv]⟩⟩⟩

end MyLang
