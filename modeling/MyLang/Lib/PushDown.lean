/-
Deterministic pushdown automata that read a list of tokens, and parsers that follow one.

The stack holds what is still to come.  Its top reacts to the next token: it takes the
token and puts what the token makes expected in its place, it leaves the token to
what lies below, or it refuses it.  Where the tokens run out some symbols still
need one: the list is `cut` there if such a symbol is left on the stack.

A recursive-descent parser is such an automaton with the stack hidden in its calls.
`Reads` says so of a parse function: whatever it returns, it has turned one piece of
stack into another, and it stops with the error that the automaton's verdict names.
-/
import Mathlib.Tactic.Common
import MyLang.Lib.StateExcept

namespace PushDown

variable {S T ε α β : Type}

/-- What the top of the stack does about the next token. -/
inductive Reaction (S : Type) where
  /-- Take it, and expect `push` instead. -/
  | take (push : List S)
  /-- Leave it to what lies below. -/
  | leave
  | refuse

/-- The reaction of a symbol that lies over `next`, which would itself react by `nextReaction`. -/
def Reaction.over (next : S) (nextReaction : Reaction S) : Reaction S → Reaction S
  | .take push => .take (push ++ [next])
  | .leave => nextReaction
  | .refuse => .refuse

/-- A deterministic automaton: the reactions, and the symbols that need a token. -/
structure Automaton (S T : Type) where
  react : S → T → Reaction S
  needs : S → Bool

/-- How a list of tokens is read from a stack. -/
inductive Verdict where
  /-- The tokens run out where none is needed. -/
  | done
  /-- The tokens run out where one is needed. -/
  | cut
  /-- A token is refused. -/
  | refused
deriving DecidableEq, Repr

namespace Automaton

variable (A : Automaton S T)

/-- The stack after one token, if it is not refused. -/
def feed : List S → T → Option (List S)
  | [], _ => none
  | x :: rest, t =>
      match A.react x t with
      | .take push => some (push ++ rest)
      | .leave => feed rest t
      | .refuse => none

/-- The stack after a list of tokens, if none is refused. -/
def read : List S → List T → Option (List S)
  | stack, [] => some stack
  | stack, t :: ts =>
      match A.feed stack t with
      | some stack' => read stack' ts
      | none => none

/-- How a list of tokens is read from a stack. -/
def verdict (stack : List S) (ts : List T) : Verdict :=
  match A.read stack ts with
  | none => .refused
  | some left => if left.any A.needs then .cut else .done

variable {A} {x y z : S} {t : T} {push stack : List S} {ts : List T}

/-! ### One symbol

What the top of the stack does about the next token, or about the end of the tokens.
-/

theorem verdict_take (h : A.react x t = .take push) :
    A.verdict (x :: stack) (t :: ts) = A.verdict (push ++ stack) ts := by
  simp only [verdict, read, feed, h]

theorem verdict_leave (h : A.react x t = .leave) :
    A.verdict (x :: stack) (t :: ts) = A.verdict stack (t :: ts) := by
  simp only [verdict, read, feed, h]

theorem verdict_refuse (h : A.react x t = .refuse) :
    A.verdict (x :: stack) (t :: ts) = .refused := by
  simp only [verdict, read, feed, h]

theorem verdict_needs (h : A.needs x = true) : A.verdict (x :: stack) [] = .cut := by
  simp [verdict, read, h]

theorem verdict_nil (h : A.needs x = false) :
    A.verdict (x :: stack) [] = A.verdict stack [] := by
  simp [verdict, read, h]

/-- Symbols that react the same are read the same. -/
theorem verdict_same (h : A.react x t = A.react y t) :
    A.verdict (x :: stack) (t :: ts) = A.verdict (y :: stack) (t :: ts) := by
  simp only [verdict, read, feed, h]

/-- A symbol that reacts as one over another stands for the two of them. -/
theorem verdict_over {r : Reaction S} (h : A.react x t = .over z r (A.react y t))
    (hr : A.react y t = .leave → r = A.react z t) :
    A.verdict (x :: stack) (t :: ts) = A.verdict (y :: z :: stack) (t :: ts) := by
  cases hy : A.react y t with
  | take push =>
      have hx : A.react x t = .take (push ++ [z]) := by
        rw [h, hy]
        rfl
      rw [verdict_take hy, verdict_take hx, List.append_assoc, List.singleton_append]
  | leave =>
      have hz : A.react x t = A.react z t := by
        rw [h, hy]
        exact hr hy
      rw [verdict_leave hy]
      simp only [verdict, read, feed, hz]
  | refuse => rw [verdict_refuse hy, verdict_refuse (by rw [h, hy]; rfl)]

end Automaton

/-! ### Parsers that follow an automaton

The rules are those of a state monad with errors, with the stack passed along.  What lies
below the symbols that a parser reads is any stack, so that parsers compose along it.
-/

/--
From `ts`, the run of `x` turns the stack `s` into `s'` and leaves at most `n` tokens; if it
stops instead, it is with an error of the kind of the automaton's verdict.
-/
def Reads (A : Automaton S T) (kind : ε → Option Verdict) (x : StateT (List T) (Except ε) α)
    (s s' : List S) (ts : List T) (n : Nat) : Prop :=
  match x ts with
  | .ok (_, ts') =>
      ts'.length ≤ n ∧ ∀ stack, A.verdict (s ++ stack) ts = A.verdict (s' ++ stack) ts'
  | .error e => ∀ stack, kind e = some (A.verdict (s ++ stack) ts)

namespace Reads

variable {A : Automaton S T} {kind : ε → Option Verdict} {x : StateT (List T) (Except ε) α}
  {s s' s1 : List S} {ts : List T} {n k : Nat}

theorem of_ok {a : α} {ts' : List T} (h : x ts = .ok (a, ts')) (hn : ts'.length ≤ n)
    (hv : ∀ stack, A.verdict (s ++ stack) ts = A.verdict (s' ++ stack) ts') :
    Reads A kind x s s' ts n := by
  unfold Reads
  rw [h]
  exact ⟨hn, hv⟩

theorem of_error {e : ε} (h : x ts = .error e)
    (hv : ∀ stack, kind e = some (A.verdict (s ++ stack) ts)) : Reads A kind x s s' ts n := by
  unfold Reads
  rw [h]
  exact hv

theorem ok {a : α} {ts' : List T} (hx : Reads A kind x s s' ts n) (h : x ts = .ok (a, ts')) :
    ts'.length ≤ n ∧ ∀ stack, A.verdict (s ++ stack) ts = A.verdict (s' ++ stack) ts' := by
  unfold Reads at hx
  rw [h] at hx
  exact hx

theorem error {e : ε} (hx : Reads A kind x s s' ts n) (h : x ts = .error e) (stack : List S) :
    kind e = some (A.verdict (s ++ stack) ts) := by
  unfold Reads at hx
  rw [h] at hx
  exact hx stack

theorem pure {a : α} (hn : ts.length ≤ n) :
    Reads A kind (Pure.pure a : StateT (List T) (Except ε) α) s s ts n :=
  of_ok rfl hn fun _ => rfl

/-- One parser, and then another on the stack that it has left. -/
theorem bind {f : α → StateT (List T) (Except ε) β} (hx : Reads A kind x s s1 ts k)
    (hf : ∀ a ts', x ts = .ok (a, ts') → ts'.length ≤ k → Reads A kind (f a) s1 s' ts' n) :
    Reads A kind (x >>= f) s s' ts n := by
  have hrun : (x >>= f) ts = x ts >>= fun p => f p.1 p.2 := rfl
  cases h : x ts with
  | error e =>
      rw [h] at hrun
      exact of_error hrun (hx.error h)
  | ok p =>
      obtain ⟨a, ts1⟩ := p
      obtain ⟨hk, hv⟩ := hx.ok h
      have hfa := hf a ts1 h hk
      rw [h] at hrun
      cases h2 : f a ts1 with
      | error e =>
          refine of_error (hrun.trans h2) fun stack => ?_
          rw [hv]
          exact hfa.error h2 stack
      | ok q =>
          obtain ⟨b, ts2⟩ := q
          obtain ⟨hn, hv2⟩ := hfa.ok h2
          exact of_ok (hrun.trans h2) hn fun stack => (hv stack).trans (hv2 stack)

theorem mono (hx : Reads A kind x s s' ts k) (h : k ≤ n) : Reads A kind x s s' ts n := by
  unfold Reads at hx ⊢
  split at hx
  · exact ⟨Nat.le_trans hx.1 h, hx.2⟩
  · exact hx

/-- What lies below stays there. -/
theorem frame (below : List S) (hx : Reads A kind x s s' ts n) :
    Reads A kind x (s ++ below) (s' ++ below) ts n := by
  unfold Reads at hx ⊢
  simp only [List.append_assoc]
  split at hx
  · exact ⟨hx.1, fun stack => hx.2 _⟩
  · exact fun stack => hx _

/-- Another stack that is read the same way. -/
theorem congr (hx : Reads A kind x s s' ts n)
    (h : ∀ stack, A.verdict (s1 ++ stack) ts = A.verdict (s ++ stack) ts) :
    Reads A kind x s1 s' ts n := by
  unfold Reads at hx ⊢
  split at hx
  · exact ⟨hx.1, fun stack => (h stack).trans (hx.2 stack)⟩
  · intro stack
    rw [h]
    exact hx stack

/-- One step of the automaton, which the run does not show: a token was taken, or a symbol left. -/
theorem of_run {y : StateT (List T) (Except ε) α} {ts1 : List T} (hy : Reads A kind y s1 s' ts1 n)
    (hrun : x ts = y ts1)
    (h : ∀ stack, A.verdict (s ++ stack) ts = A.verdict (s1 ++ stack) ts1) :
    Reads A kind x s s' ts n := by
  unfold Reads at hy ⊢
  rw [hrun]
  split at hy
  · exact ⟨hy.1, fun stack => (h stack).trans (hy.2 stack)⟩
  · intro stack
    rw [h]
    exact hy stack

end Reads

end PushDown
