import SchemeFront.Expr
import SchemeFront.Report

set_option autoImplicit false

/-! # Parsing tokens

A `Parse α` reads a value of type `α` at a `Position`. It answers with a `Reply`: the value, or
the finding that explains why there is none, or a fault, always with the `Trace` of what happened
on the way and the position that was reached. What is traced before a failure or a fault is kept,
and the open forms are left on the way out. Only `Parse.advance` and `Parse.skip` move over tokens,
and only `Parse.form` changes the forms that are open.
-/

namespace SchemeFront

/-! ## Positions -/

/-- Where a parser is. -/
structure Position where
  /-- How many levels are open. -/
  depth : Nat := 0
  /-- The open forms, the innermost first, each with whether it counts as a level. -/
  forms : List Bool := []
  /-- The tokens that are left. -/
  rest : List Token
deriving DecidableEq

namespace Position

/-- The position in the same forms where `rest` is left. -/
def moveTo (pos : Position) (rest : List Token) : Position := { pos with rest }

/-- The position inside a further form, where `rest` is left. -/
def enter (pos : Position) (counted : Bool) (rest : List Token) : Position where
  depth := if counted then pos.depth + 1 else pos.depth
  forms := counted :: pos.forms
  rest := rest

/-- The position outside the innermost form. -/
def leave (pos : Position) (counted : Bool) : Position where
  depth := if counted then pos.depth - 1 else pos.depth
  forms := pos.forms.tail
  rest := pos.rest

@[simp] theorem moveTo_depth (pos : Position) (ts : List Token) :
    (pos.moveTo ts).depth = pos.depth := rfl

@[simp] theorem moveTo_forms (pos : Position) (ts : List Token) :
    (pos.moveTo ts).forms = pos.forms := rfl

@[simp] theorem moveTo_rest (pos : Position) (ts : List Token) : (pos.moveTo ts).rest = ts := rfl

@[simp] theorem moveTo_self (pos : Position) : pos.moveTo pos.rest = pos := rfl

@[simp] theorem moveTo_moveTo (pos : Position) (ts us : List Token) :
    (pos.moveTo ts).moveTo us = pos.moveTo us := rfl

@[simp] theorem enter_rest (pos : Position) (counted : Bool) (ts : List Token) :
    (pos.enter counted ts).rest = ts := rfl

/-- A form that is left again leaves no trace in the position, wherever in it one was. -/
@[simp] theorem leave_moveTo_enter (pos : Position) (counted : Bool) (ts us : List Token) :
    ((pos.enter counted ts).moveTo us).leave counted = pos.moveTo us := by
  cases counted <;> rfl

end Position

/-- What happened on the way: the findings, and the positions that were reached. -/
structure Trace where
  notes : List Diagnostic := []
  positions : List Position := []
deriving DecidableEq

namespace Trace

/-- One trace, then another. -/
def append (s t : Trace) : Trace := ⟨s.notes ++ t.notes, s.positions ++ t.positions⟩

instance : Append Trace := ⟨append⟩

instance : EmptyCollection Trace := ⟨⟨[], []⟩⟩

/-- A finding was made. -/
def ofNote (d : Diagnostic) : Trace := { notes := [d] }

/-- A position was reached. -/
def ofPosition (pos : Position) : Trace := { positions := [pos] }

@[simp] theorem notes_append (s t : Trace) : (s ++ t).notes = s.notes ++ t.notes := rfl

@[simp] theorem positions_append (s t : Trace) :
    (s ++ t).positions = s.positions ++ t.positions := rfl

@[simp] theorem notes_empty : (∅ : Trace).notes = [] := rfl

@[simp] theorem positions_empty : (∅ : Trace).positions = [] := rfl

@[simp] theorem notes_ofNote (d : Diagnostic) : (ofNote d).notes = [d] := rfl

@[simp] theorem positions_ofNote (d : Diagnostic) : (ofNote d).positions = [] := rfl

@[simp] theorem notes_ofPosition (pos : Position) : (ofPosition pos).notes = [] := rfl

@[simp] theorem positions_ofPosition (pos : Position) :
    (ofPosition pos).positions = [pos] := rfl

@[simp] theorem empty_append (t : Trace) : ∅ ++ t = t := rfl

@[simp] theorem append_empty (t : Trace) : t ++ ∅ = t := by
  show append t ⟨[], []⟩ = t
  simp [append]

theorem append_assoc (s t u : Trace) : s ++ t ++ u = s ++ (t ++ u) := by
  show append (append s t) u = append s (append t u)
  simp [append]

end Trace

/-! ## Replies -/

/-- The answer of a parser. -/
inductive Reply (α : Type) where
  | done (value : α) (trace : Trace) (pos : Position)
  | failed (why : Diagnostic) (trace : Trace) (pos : Position)
  | fault (fault : Fault) (trace : Trace) (pos : Position)

namespace Reply

variable {α : Type}

/-- The answer, with what was traced earlier. -/
def behind (earlier : Trace) : Reply α → Reply α
  | done a trace pos => done a (earlier ++ trace) pos
  | failed why trace pos => failed why (earlier ++ trace) pos
  | fault f trace pos => fault f (earlier ++ trace) pos

/-- The answer, once the innermost form is left. -/
def leaving (counted : Bool) : Reply α → Reply α
  | done a trace pos => done a (trace ++ .ofPosition (pos.leave counted)) (pos.leave counted)
  | failed why trace pos =>
      failed why (trace ++ .ofPosition (pos.leave counted)) (pos.leave counted)
  | fault f trace pos => fault f (trace ++ .ofPosition (pos.leave counted)) (pos.leave counted)

@[simp] theorem behind_empty (r : Reply α) : r.behind ∅ = r := by cases r <;> rfl

@[simp] theorem behind_behind (s t : Trace) (r : Reply α) :
    (r.behind t).behind s = r.behind (s ++ t) := by
  cases r <;> simp [behind, Trace.append_assoc]

end Reply

/-! ## Parsers -/

/-- What is known in a whole parse. -/
structure Context where
  /-- The bracket is written in the source, and not made by a transformer. -/
  written : Token → Bool
  /-- Where the input ends. -/
  endOfInput : Span
  /-- How deeply forms may be nested. -/
  limit : Int

namespace Context

/-- A form that begins with the bracket `t` counts as a level. All written brackets do; one made
by a transformer is free, unless the form around it is free already, or there is none. -/
def counts (c : Context) (pos : Position) (t : Token) : Bool :=
  c.written t || !pos.forms.headD false

/-- The context of a source: a bracket is written if the source shows one in its place. -/
def ofSource (limit : Int) (src : Source) : Context where
  written t := src.excerpt t.span == ['(']
  endOfInput := src.endOfInput
  limit := limit

end Context

/-- A parser of values of type `α`. -/
def Parse (α : Type) := Context → Position → Reply α

namespace Parse

variable {α β : Type}

/-- Give a value without reading anything. -/
def succeed (a : α) : Parse α := fun _ pos => .done a ∅ pos

/-- Read with `p`, and go on with what `f` makes of the value. -/
def andThen (p : Parse α) (f : α → Parse β) : Parse β := fun ctx pos =>
  match p ctx pos with
  | .done a trace after => (f a ctx after).behind trace
  | .failed why trace after => .failed why trace after
  | .fault fault trace after => .fault fault trace after

instance : Monad Parse where
  pure := succeed
  bind := andThen

@[simp] theorem pure_apply (a : α) (ctx : Context) (pos : Position) :
    (pure a : Parse α) ctx pos = .done a ∅ pos := rfl

theorem bind_apply (p : Parse α) (f : α → Parse β) (ctx : Context) (pos : Position) :
    (p >>= f) ctx pos =
      match p ctx pos with
      | .done a trace after => (f a ctx after).behind trace
      | .failed why trace after => .failed why trace after
      | .fault fault trace after => .fault fault trace after := rfl

/-- Steps of reading can be grouped in any way. -/
instance : LawfulMonad Parse := LawfulMonad.mk' Parse
  (fun p => by
    funext ctx pos
    show andThen p _ ctx pos = _
    unfold andThen
    cases p ctx pos <;> simp [succeed, Reply.behind])
  (fun a f => by
    funext ctx pos
    simp [bind_apply])
  (fun p f g => by
    funext ctx pos
    simp only [bind_apply]
    cases p ctx pos with
    | done a trace after =>
        dsimp only
        cases f a ctx after with
        | done b more after => exact (Reply.behind_behind trace more _).symm
        | failed why more after => rfl
        | fault fault more after => rfl
    | failed why trace after => rfl
    | fault fault trace after => rfl)

/-! ## Categories -/

/-- How an expression is called among what was expected. -/
def expressionName : String := "<expression>"

/-- How an identifier is called among what was expected. -/
def identifierName : String := "<identifier>"

/-- How a definition is called among what was expected. -/
def definitionName : String := "<definition>"

/-! ## Single steps -/

/-- The token `i` places ahead, if there is one. -/
def peek (i : Nat) : Parse (Option Token) := fun _ pos => .done pos.rest[i]? ∅ pos

/-- Take the next token, which must be there. -/
def advance : Parse Token := fun _ pos =>
  match pos.rest with
  | t :: rest => .done t (.ofPosition (pos.moveTo rest)) (pos.moveTo rest)
  | [] => .fault .indexOutOfRange ∅ pos

/-- Looking ahead reads nothing. -/
@[simp] theorem peek_bind_apply (i : Nat) (f : Option Token → Parse α) (ctx : Context)
    (pos : Position) : (peek i >>= f) ctx pos = f pos.rest[i]? ctx pos := by
  simp [bind_apply, peek]

/-- Record a finding. -/
def note (d : Diagnostic) : Parse Unit := fun _ pos => .done () (.ofNote d) pos

/-- Fail with the given finding. -/
def reject (why : Diagnostic) : Parse α := fun _ pos => .failed why ∅ pos

/-- The finding that the next token, or the end of the input, is none of what was expected. -/
def surprise (ctx : Context) (pos : Position) (expected : List String) : Diagnostic :=
  match pos.rest with
  | [] => Diagnostic.unexpected ctx.endOfInput none expected
  | t :: _ => Diagnostic.unexpected t.span (some (.token t)) expected

/-- Fail because the next token is none of what was expected. -/
def fail (expected : List String) : Parse α := fun ctx pos =>
  .failed (surprise ctx pos expected) ∅ pos

/-- Give up: there is no answer at all. -/
def abort (fault : Fault) : Parse α := fun _ pos => .fault fault ∅ pos

/-! ## Single tokens -/

/-- The next token closes a bracket. -/
def nextCloses : Parse Bool := do return (← peek 0).any Token.closes

@[simp] theorem nextCloses_bind_apply (f : Bool → Parse α) (ctx : Context) (pos : Position) :
    (nextCloses >>= f) ctx pos = f (pos.rest[0]?.any Token.closes) ctx pos := by
  simp [nextCloses]

/-- Read a closing bracket. -/
def close : Parse Token := do
  if ← nextCloses then advance else fail [")"]

/-- Read an identifier; `also` could stand here as well. -/
def identifier (also : List String := []) : Parse Identifier := do
  match (← peek 0).bind Token.name? with
  | some name =>
      let t ← advance
      return ⟨name, t.span⟩
  | none => fail (identifierName :: also)

end Parse

end SchemeFront
