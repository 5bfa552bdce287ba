/-
Taking runs of generators apart.

A generator that returned did so because each of its parts did, and its code is the code
of the parts in a row.  The lemmas here say that for the primitives and for the small
emitters; everything proved about generated code starts by rewriting with them.

A generator is a function of a state that returns a value, a state and lines, or stops.
The lemmas come in two forms: `x_eq_ok` says when `x` returned, and `x_bind_eq_ok` when
`x` and what follows it did.  With the second, a generator with ten steps is taken apart
in ten rewrites, and what is left is a statement about states and lines without a monad in
it.

The changes of a state have names (`take`, `release`, `bump`) and small lemmas that say
which fields they leave alone.
-/
import MyLang.Asm
import MyLang.Lib.StateExcept

namespace MyLang

open Rv32

variable {α β : Type} {st st' : AsmState} {c : List Line}

namespace Gen

@[simp] theorem bind_eq_ok {x : Gen α} {f : α → Gen β} {b : β} :
    (x >>= f) st = .ok (b, st', c) ↔
      ∃ a st1 c1 c2, x st = .ok (a, st1, c1) ∧ f a st1 = .ok (b, st', c2) ∧ c = c1 ++ c2 := by
  change Gen.bind x f st = _ ↔ _
  simp only [Gen.bind, ExceptRun.bind_eq_ok, ExceptRun.pure_eq_ok]
  constructor
  · rintro ⟨⟨a, st1, c1⟩, hx, ⟨b', st2, c2⟩, hf, h⟩
    obtain ⟨rfl, rfl, rfl⟩ := h
    exact ⟨a, st1, c1, c2, hx, hf, rfl⟩
  · rintro ⟨a, st1, c1, c2, hx, hf, rfl⟩
    exact ⟨(a, st1, c1), hx, (b, st', c2), hf, rfl⟩

@[simp] theorem pure_eq_ok {a b : α} :
    (pure a : Gen α) st = .ok (b, st', c) ↔ b = a ∧ st' = st ∧ c = [] := by
  change Except.ok (a, st, []) = _ ↔ _
  simp [eq_comm]

@[simp] theorem stop_eq_ok {e : AsmError} {a : α} : stop e st = .ok (a, st', c) ↔ False := by
  simp [stop]

@[simp] theorem state_eq_ok {a : AsmState} :
    state st = .ok (a, st', c) ↔ a = st ∧ st' = st ∧ c = [] := by
  simp [state, eq_comm]

@[simp] theorem update_eq_ok {f : AsmState → AsmState} {u : Unit} :
    update f st = .ok (u, st', c) ↔ st' = f st ∧ c = [] := by
  simp [update, eq_comm]

@[simp] theorem write_eq_ok {line : Line} {u : Unit} :
    write line st = .ok (u, st', c) ↔ st' = st ∧ c = [line] := by
  simp [write, eq_comm]

theorem bind_eq_error {x : Gen α} {f : α → Gen β} {e : AsmError} :
    (x >>= f) st = .error e ↔
      x st = .error e ∨ ∃ a st1 c1, x st = .ok (a, st1, c1) ∧ f a st1 = .error e := by
  change Gen.bind x f st = _ ↔ _
  simp only [Gen.bind, ExceptRun.bind_eq_error, ExceptRun.pure_ne_error, and_false, exists_false,
    or_false]
  constructor
  · rintro (h | ⟨⟨a, st1, c1⟩, hx, hf⟩)
    · exact Or.inl h
    · exact Or.inr ⟨a, st1, c1, hx, hf⟩
  · rintro (h | ⟨a, st1, c1, hx, hf⟩)
    · exact Or.inl h
    · exact Or.inr ⟨(a, st1, c1), hx, hf⟩

instance : LawfulMonad Gen :=
  LawfulMonad.mk' Gen
    (fun x => by
      funext st
      change Gen.bind x (fun a => Gen.pure a) st = x st
      simp only [Gen.bind, Gen.pure, bind, Except.bind]
      rcases x st with e | ⟨a, st1, c1⟩ <;> simp [pure, Except.pure])
    (fun a f => by
      funext st
      change Gen.bind (Gen.pure a) f st = f a st
      simp only [Gen.bind, Gen.pure, bind, Except.bind]
      rcases f a st with e | ⟨b, st1, c1⟩ <;> simp [pure, Except.pure])
    (fun x f g => by
      funext st
      change Gen.bind (Gen.bind x f) g st = Gen.bind x (fun a => Gen.bind (f a) g) st
      simp only [Gen.bind, bind, Except.bind, pure, Except.pure]
      rcases x st with e | ⟨a, st1, c1⟩
      · rfl
      simp only
      rcases f a st1 with e | ⟨b, st2, c2⟩
      · rfl
      simp only
      rcases g b st2 with e | ⟨d, st3, c3⟩
      · rfl
      simp [List.append_assoc])

end Gen

@[simp] theorem follow_eq_ok {o : Option α} {a : α} :
    follow o st = .ok (a, st', c) ↔ o = some a ∧ st' = st ∧ c = [] := by
  cases o with
  | none => simp [follow]
  | some a' =>
      rw [follow, Gen.pure_eq_ok, Option.some.injEq]
      exact and_congr_left fun _ => eq_comm

theorem symbolEntry_eq_ok {symbol : Option SymId} {e : SymTabEntry} :
    symbolEntry symbol st = .ok (e, st', c) ↔
      (∃ id, symbol = some id ∧ st.entries[id]? = some e) ∧ st' = st ∧ c = [] := by
  simp only [symbolEntry, Gen.bind_eq_ok, follow_eq_ok, Gen.state_eq_ok]
  constructor
  · rintro ⟨id, _, _, _, ⟨hid, rfl, rfl⟩, ⟨_, _, _, _, ⟨rfl, rfl, rfl⟩, ⟨he, rfl, rfl⟩, rfl⟩, rfl⟩
    exact ⟨⟨id, hid, he⟩, rfl, rfl⟩
  · rintro ⟨⟨id, hid, he⟩, rfl, rfl⟩
    exact ⟨id, _, [], [], ⟨hid, rfl, rfl⟩, ⟨_, _, [], [], ⟨rfl, rfl, rfl⟩, ⟨he, rfl, rfl⟩, rfl⟩,
      rfl⟩

@[simp] theorem emit_eq_ok {i : Instr} {u : Unit} :
    emit i st = .ok (u, st', c) ↔ st' = st ∧ c = [.instr i] := by
  simp [emit]

@[simp] theorem emitLabel_eq_ok {l : String} {u : Unit} :
    emitLabel l st = .ok (u, st', c) ↔ st' = st ∧ c = [.label l] := by
  simp [emitLabel]

/-! ### Registers

`alloc_register` takes the lowest register that is free, and stops if there is none.
-/

/-- The state after taking a register. -/
def AsmState.take (st : AsmState) (reg : Temp) : AsmState :=
  { st with free := Function.update st.free reg false }

/-- The state after giving a register back. -/
def AsmState.release (st : AsmState) (reg : Temp) : AsmState :=
  { st with free := Function.update st.free reg true }

/-- The lowest free register. -/
def AsmState.first (st : AsmState) : Option Temp := (List.finRange tempLength).find? st.free

@[simp] theorem AsmState.take_entries (st : AsmState) (reg : Temp) :
    (st.take reg).entries = st.entries := rfl

@[simp] theorem AsmState.release_entries (st : AsmState) (reg : Temp) :
    (st.release reg).entries = st.entries := rfl

@[simp] theorem AsmState.take_free (st : AsmState) (reg : Temp) :
    (st.take reg).free = Function.update st.free reg false := rfl

@[simp] theorem AsmState.release_free (st : AsmState) (reg : Temp) :
    (st.release reg).free = Function.update st.free reg true := rfl

/-- A register is taken exactly if one is free, and then the first. -/
theorem allocRegister_eq_ok {reg : Temp} :
    allocRegister st = .ok (reg, st', c) ↔ st.first = some reg ∧ st' = st.take reg ∧ c = [] := by
  unfold allocRegister
  simp only [Gen.bind_eq_ok, Gen.state_eq_ok]
  constructor
  · rintro ⟨a, st1, c1, c2, ⟨rfl, rfl, rfl⟩, h, rfl⟩
    cases hr : (List.finRange tempLength).find? st1.free with
    | none => simp [hr] at h
    | some r =>
        simp only [hr, Gen.bind_eq_ok, Gen.update_eq_ok, Gen.pure_eq_ok] at h
        obtain ⟨_, _, _, _, ⟨rfl, rfl⟩, ⟨rfl, rfl, rfl⟩, rfl⟩ := h
        exact ⟨hr, rfl, rfl⟩
  · rintro ⟨hr, rfl, rfl⟩
    refine ⟨st, st, [], [], ⟨rfl, rfl, rfl⟩, ?_, rfl⟩
    rw [show (List.finRange tempLength).find? st.free = some reg from hr]
    simp only [Gen.bind_eq_ok, Gen.update_eq_ok, Gen.pure_eq_ok]
    exact ⟨(), _, [], [], ⟨rfl, rfl⟩, ⟨trivial, rfl, rfl⟩, rfl⟩

/-- The register taken was free. -/
theorem alloc_free {reg : Temp} (h : st.first = some reg) : st.free reg = true :=
  List.find?_some h

@[simp] theorem freeRegister_eq_ok {reg : Temp} {u : Unit} :
    freeRegister reg st = .ok (u, st', c) ↔ st' = st.release reg ∧ c = [] := by
  simp [freeRegister, AsmState.release]

/-! ### Label counters

There is a counter for each kind of label, and a number is never given out twice.
-/

/-- What the labels of a kind start with. -/
def LabelKind.stem : LabelKind → String
  | .for_ => "for"
  | .if_ => "if"
  | .while_ => "while"
  | .else_ => "else"
  | .logAnd => "and"
  | .logOr => "or"

/-- The counter of a kind of label. -/
def AsmState.count (st : AsmState) : LabelKind → Nat
  | .for_ => st.forCount
  | .if_ => st.ifCount
  | .while_ => st.whileCount
  | .else_ => st.elseCount
  | .logAnd => st.andCount
  | .logOr => st.orCount

/-- The state after a label of a kind was made. -/
def AsmState.bump (st : AsmState) : LabelKind → AsmState
  | .for_ => { st with forCount := st.forCount + 1 }
  | .if_ => { st with ifCount := st.ifCount + 1 }
  | .while_ => { st with whileCount := st.whileCount + 1 }
  | .else_ => { st with elseCount := st.elseCount + 1 }
  | .logAnd => { st with andCount := st.andCount + 1 }
  | .logOr => { st with orCount := st.orCount + 1 }

@[simp] theorem AsmState.bump_free (st : AsmState) (kind : LabelKind) :
    (st.bump kind).free = st.free := by cases kind <;> rfl

@[simp] theorem AsmState.bump_entries (st : AsmState) (kind : LabelKind) :
    (st.bump kind).entries = st.entries := by cases kind <;> rfl

/-- The base label made in a state. -/
def AsmState.baseLabel (st : AsmState) (kind : LabelKind) : String :=
  kind.stem ++ Nat.repr (st.count kind)

/-! ### A primitive and what follows it

A run that starts with a primitive is the run of the rest, from the state and behind
the line the primitive leaves.
-/

section Bind

variable {f : α → Gen β} {g : Unit → Gen β} {b : β}

private theorem bind_of_ok {x : Gen α} {a : α} (hx : x st = .ok (a, st', [])) :
    (x >>= f) st = f a st' := by
  change Gen.bind x f st = _
  simp only [Gen.bind, hx, bind, Except.bind]
  cases f a st' <;> simp [pure, Except.pure]

@[simp] theorem state_bind_apply {f : AsmState → Gen β} : (Gen.state >>= f) st = f st st :=
  bind_of_ok rfl

@[simp] theorem update_bind_apply {u : AsmState → AsmState} :
    (Gen.update u >>= g) st = g () (u st) := bind_of_ok rfl

@[simp] theorem freeRegister_bind_apply {reg : Temp} :
    (freeRegister reg >>= g) st = g () (st.release reg) := bind_of_ok rfl

@[simp] theorem createBaseCondLabel_bind_apply {kind : LabelKind} {f : String → Gen β} :
    (createBaseCondLabel kind >>= f) st = f (st.baseLabel kind) (st.bump kind) := by
  refine bind_of_ok ?_
  cases kind <;> rfl

theorem follow_bind_eq_ok {o : Option α} :
    (follow o >>= f) st = .ok (b, st', c) ↔ ∃ a, o = some a ∧ f a st = .ok (b, st', c) := by
  cases o with
  | none => simp [follow]
  | some a => simp [follow]

theorem symbolEntry_bind_eq_ok {symbol : Option SymId} {f : SymTabEntry → Gen β} :
    (symbolEntry symbol >>= f) st = .ok (b, st', c) ↔
      ∃ id e, symbol = some id ∧ st.entries[id]? = some e ∧ f e st = .ok (b, st', c) := by
  cases symbol with
  | none => simp [symbolEntry, follow]
  | some id =>
      cases he : st.entries[id]? with
      | none => simp [symbolEntry, follow, he]
      | some e =>
          have : symbolEntry (some id) st = .ok (e, st, []) :=
            symbolEntry_eq_ok.mpr ⟨⟨id, rfl, he⟩, rfl, rfl⟩
          simp [bind_of_ok this, he]

theorem allocRegister_bind_eq_ok {f : Temp → Gen β} :
    (allocRegister >>= f) st = .ok (b, st', c) ↔
      ∃ reg, st.first = some reg ∧ f reg (st.take reg) = .ok (b, st', c) := by
  cases hr : st.first with
  | none =>
      simp only [Gen.bind_eq_ok, allocRegister_eq_ok, hr]
      simp
  | some reg =>
      rw [bind_of_ok (allocRegister_eq_ok.mpr ⟨hr, rfl, rfl⟩)]
      simp

private theorem write_bind_eq_ok {line : Line} :
    (Gen.write line >>= g) st = .ok (b, st', c) ↔
      ∃ c', g () st = .ok (b, st', c') ∧ c = line :: c' := by
  simp only [Gen.bind_eq_ok, Gen.write_eq_ok]
  constructor
  · rintro ⟨_, _, _, c', ⟨rfl, rfl⟩, h, rfl⟩
    exact ⟨c', h, rfl⟩
  · rintro ⟨c', h, rfl⟩
    exact ⟨(), st, [line], c', ⟨rfl, rfl⟩, h, rfl⟩

theorem emit_bind_eq_ok {i : Instr} :
    (emit i >>= g) st = .ok (b, st', c) ↔
      ∃ c', g () st = .ok (b, st', c') ∧ c = .instr i :: c' := write_bind_eq_ok

theorem emitLabel_bind_eq_ok {l : String} :
    (emitLabel l >>= g) st = .ok (b, st', c) ↔
      ∃ c', g () st = .ok (b, st', c') ∧ c = .label l :: c' := write_bind_eq_ok

end Bind

end MyLang
