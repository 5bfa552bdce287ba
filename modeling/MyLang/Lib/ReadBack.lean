/-
Parsers that read back what was written.

Something is written as a list of lexemes, and a list of tokens stands for it if the
tokens have these lexemes, wherever they stand.  `ReadsBack` says of a parser and a value
that the parser takes exactly the tokens that stand for it, and returns the value.  A
parser may look at what follows to see that it is at the end, so what may follow is a
condition; and as the recursion of a parser is bounded, so is the number of tokens.

Two parsers in a row read back what is written for the one and then the other, if the
beginning of the second may follow the first (`bind`).  A parser that only looks, and
takes nothing, is read back by what it returns (`look`, `ahead`).  With these a parser is
gone through in the order of its code, and the conditions on what follows are all that is
left to show.
-/
import MyLang.Lib.StateExcept

namespace ReadBack

open StateExcept

variable {T L ε α β γ : Type}

/--
From tokens with the lexemes `lex`, in front of what `follow` allows, `p` takes these and
returns `a`.
-/
def ReadsBack (spell : T → L) (N : Nat) (p : StateT (List T) (Except ε) α) (lex : List L)
    (follow : List T → Prop) (a : α) : Prop :=
  ∀ ts us, ts.map spell = lex → follow us → ts.length + us.length ≤ N → p (ts ++ us) = .ok (a, us)

namespace ReadsBack

variable {spell : T → L} {N M : Nat} {x : StateT (List T) (Except ε) α}
  {f : α → StateT (List T) (Except ε) β} {lex lex1 lex2 : List L} {l : L}
  {follow follow' : List T → Prop} {a : α} {b : β}

theorem pure : ReadsBack spell N (Pure.pure a : StateT (List T) (Except ε) α) [] follow a := by
  intro ts us hts _ _
  rw [List.map_eq_nil_iff.mp hts]
  rfl

/-- A parser that takes nothing. -/
theorem stop (h : ∀ us, follow us → x us = .ok (a, us)) : ReadsBack spell N x [] follow a := by
  intro ts us hts hus _
  rw [List.map_eq_nil_iff.mp hts]
  exact h us hus

/-- Fewer tokens, and less that may follow. -/
theorem mono (h : ReadsBack spell N x lex follow a) (hN : M ≤ N)
    (hf : ∀ us, follow' us → follow us) : ReadsBack spell M x lex follow' a :=
  fun ts us hts hus hlen => h ts us hts (hf us hus) (Nat.le_trans hlen hN)

/-- There are not so many tokens. -/
theorem short (h : N < lex.length) : ReadsBack spell N x lex follow a := by
  intro ts us hts _ hlen
  rw [← hts, List.length_map] at h
  omega

/--
One parser after the other; what is written for the second one has to be allowed behind the
first.
-/
theorem bind_rest (hx : ReadsBack spell N x lex1 follow' a)
    (hf : ReadsBack spell (N - lex1.length) (f a) lex2 follow b)
    (hfollow : ∀ ts us, ts.map spell = lex2 → follow us → follow' (ts ++ us)) :
    ReadsBack spell N (x >>= f) (lex1 ++ lex2) follow b := by
  intro ts us hts hus hlen
  obtain ⟨ts1, ts2, rfl, h1, h2⟩ := List.map_eq_append_iff.mp hts
  have hlen1 : lex1.length = ts1.length := by rw [← h1, List.length_map]
  rw [List.length_append] at hlen
  have hrun : x (ts1 ++ (ts2 ++ us)) = .ok (a, ts2 ++ us) := by
    refine hx ts1 (ts2 ++ us) h1 (hfollow ts2 us h2 hus) ?_
    rw [List.length_append]
    omega
  rw [List.append_assoc, bind_of_ok hrun]
  exact hf ts2 us h2 hus (by omega)

theorem bind (hx : ReadsBack spell N x lex1 follow' a) (hf : ReadsBack spell N (f a) lex2 follow b)
    (hfollow : ∀ ts us, ts.map spell = lex2 → follow us → follow' (ts ++ us)) :
    ReadsBack spell N (x >>= f) (lex1 ++ lex2) follow b :=
  bind_rest hx (hf.mono (Nat.sub_le ..) fun _ h => h) hfollow

/-- The same if nothing is written for the second one. -/
theorem bind_nil (hx : ReadsBack spell N x lex follow' a) (hf : ReadsBack spell N (f a) [] follow b)
    (hfollow : ∀ us, follow us → follow' us) : ReadsBack spell N (x >>= f) lex follow b := by
  rw [← List.append_nil lex]
  refine bind hx hf fun ts us hts hus => ?_
  rw [List.map_eq_nil_iff.mp hts]
  exact hfollow us hus

/-- A parser that takes one token. -/
theorem take {g : T → α} (hx : ∀ t ts, spell t = l → x (t :: ts) = .ok (g t, ts))
    (hN : M ≤ N + 1) (hf : ∀ t, spell t = l → ReadsBack spell N (f (g t)) lex follow b) :
    ReadsBack spell M (x >>= f) (l :: lex) follow b := by
  intro ts us hts hus hlen
  obtain ⟨t, ts, rfl, ht, hts⟩ := List.map_eq_cons_iff.mp hts
  rw [List.length_cons] at hlen
  rw [List.cons_append, bind_of_ok (hx t _ ht)]
  exact hf t ht ts us hts hus (by omega)

/-- A look at the first token. -/
theorem look {g : T → α} (hx : ∀ t ts, x (t :: ts) = .ok (g t, t :: ts))
    (hf : ∀ t, spell t = l → ReadsBack spell N (f (g t)) (l :: lex) follow b) :
    ReadsBack spell N (x >>= f) (l :: lex) follow b := by
  intro ts us hts hus hlen
  obtain ⟨t, ts', rfl, ht, -⟩ := List.map_eq_cons_iff.mp hts
  rw [List.cons_append, bind_of_ok (hx t _)]
  exact hf t ht (t :: ts') us hts hus hlen

/-- A look at several tokens that says `a`. -/
theorem ahead (hx : ∀ ts us, ts.map spell = lex → follow us → x (ts ++ us) = .ok (a, ts ++ us))
    (hf : ReadsBack spell N (f a) lex follow b) : ReadsBack spell N (x >>= f) lex follow b := by
  intro ts us hts hus hlen
  rw [bind_of_ok (hx ts us hts hus)]
  exact hf ts us hts hus hlen

/-- A loop is bounded by the number of tokens there are. -/
theorem sized {f : Nat → StateT (List T) (Except ε) β}
    (hf : ∀ M, M ≤ N → ReadsBack spell M (f M) lex follow b) :
    ReadsBack spell N (get >>= fun s => f s.length) lex follow b := by
  intro ts us hts hus hlen
  rw [get_bind_apply, List.length_append]
  exact hf _ hlen ts us hts hus (Nat.le_refl _)

end ReadsBack

end ReadBack
