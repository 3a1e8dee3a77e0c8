import SchemeFront.Parse.Form

set_option autoImplicit false

/-! # Expressions

`Parse.expression` parses one expression. What stands inside brackets is parsed by parsers that
are given as arguments (`Inner`), so that every form is defined on its own: conditionals,
procedures, assignments, calls. The words `if`, `lambda`, `set!` and `define` decide which form
it is (`Parse.formOf`); a definition is none of the expressions.
-/

namespace SchemeFront

/-- The parsers for what stands inside the brackets of a form. -/
structure Inner where
  /-- An expression; the texts name what else could stand in its place. -/
  expr : (also : List String) → Parse Expr
  /-- A body, up to the bracket that closes its form. -/
  body : Parse Body

namespace Parse

/-! ## Parameters -/

/-- Identifiers up to and with a closing bracket, found in at most `rounds` steps. -/
def identifiers : (rounds : Nat) → Parse (List Identifier)
  | 0 => abort .indexOutOfRange
  | rounds + 1 => do
      if ← nextCloses then
        let _ ← advance
        return []
      let first ← identifier [")"]
      let more ← identifiers rounds
      return first :: more

/-- The first identifier whose name is among `seen` or the names before it. -/
def repeated? (seen : List String) : List Identifier → Option Identifier
  | [] => none
  | i :: is => if seen.contains i.name then some i else repeated? (i.name :: seen) is

/-- What is said at a parameter that was named before. -/
def duplicate (i : Identifier) : Diagnostic :=
  Diagnostic.remark i.span ("Duplicate parameter " ++ i.name)

/-- No name may occur twice. -/
def distinct (params : List Identifier) : Parse (List Identifier) :=
  match repeated? [] params with
  | some i => reject (duplicate i)
  | none => return params

/-- A parser that takes one step for each token at most, with a round for each of them and one
more. -/
def withRounds {α : Type} (p : (rounds : Nat) → Parse α) : Parse α := fun ctx pos =>
  p (pos.rest.length + 1) ctx pos

/-- The parameters up to and with the closing bracket. -/
def parameters : Parse (List Identifier) := do
  let params ← withRounds identifiers
  distinct params

/-! ## Forms -/

/-- The second alternative of a conditional, if there is one. -/
def alternative (inner : Inner) : Parse (Option Expr) := do
  if ← nextCloses then return none
  some <$> inner.expr [")"]

/-- `(if test conseq)` or `(if test conseq alter)`, behind the bracket. -/
def conditional (inner : Inner) (opened : Token) : Parse Expr := do
  let _ ← advance
  let test ← inner.expr []
  let conseq ← inner.expr []
  let alter ← alternative inner
  let closed ← close
  return .conditional (opened.span.join closed.span) test conseq alter

/-- `name` or `(name …)`: the parameters of a procedure, and whether it is variadic. -/
def formals : Parse (Bool × List Identifier) := do
  match ← peek 0 with
  | some t =>
      if t.name?.isSome then do
        let name ← identifier
        return (true, [name])
      else if t.opens then do
        let _ ← advance
        let names ← parameters
        return (false, names)
      else fail ["(", identifierName]
  | none => fail ["(", identifierName]

/-- `(lambda name body)` or `(lambda (name …) body)`, behind the bracket. -/
def procedure (inner : Inner) (opened : Token) : Parse Expr := do
  let _ ← advance
  let (variadic, params) ← formals
  let body ← inner.body
  let closed ← close
  return .procedure (opened.span.join closed.span) variadic params body

/-- `(set! name value)`, behind the bracket. -/
def assignment (inner : Inner) (opened : Token) : Parse Expr := do
  let _ ← advance
  let target ← identifier
  let value ← inner.expr []
  let closed ← close
  return .assignment (opened.span.join closed.span) target value

/-- Arguments up to a closing bracket, which is left, found in at most `rounds` steps. -/
def arguments (inner : Inner) : (rounds : Nat) → Parse (List Expr)
  | 0 => abort .indexOutOfRange
  | rounds + 1 => do
      if ← nextCloses then return []
      let first ← inner.expr [")"]
      let more ← arguments inner rounds
      return first :: more

/-- `(operator argument …)`, behind the bracket. -/
def call (inner : Inner) (opened : Token) : Parse Expr := do
  let operator ← inner.expr []
  let args ← withRounds (arguments inner)
  let closed ← close
  return .call (opened.span.join closed.span) operator args

/-- What is said at the word `define` where no definition can stand. -/
def misplaced (word : Span) : Diagnostic :=
  Diagnostic.remark word "Definitions are only allowed at the beginning of a body"

/-- A definition in the place of an expression, behind the bracket: always a failure. -/
def strayDefinition (_opened : Token) : Parse Expr := do
  match ← peek 0 with
  | some word => reject (misplaced word.span)
  | none => abort .indexOutOfRange

/-! ## All expressions -/

/-- The expression that a form is, an error if it could not be parsed. -/
def ofParsed : Parsed Expr → Expr
  | .whole e => e
  | .broken span => .error span

/-- The form of an expression whose bracket is followed by the given token: how it is called, and
the parser of what is inside. -/
def formOf (inner : Inner) (head : Option Token) : String × (Token → Parse Expr) :=
  match head.map Token.lexeme with
  | some (.keyword .conditional) => ("conditional", conditional inner)
  | some (.keyword .lambda) => ("lambda", procedure inner)
  | some (.keyword .assign) => ("assignment", assignment inner)
  | some (.keyword .define) => ("definition", strayDefinition)
  | _ => ("procedure call", call inner)

/-- A form in the place of an expression. -/
def compound (inner : Inner) : Parse Expr := do
  let head ← peek 1
  ofParsed <$> form (formOf inner head).1 (formOf inner head).2

/-- An expression; `also` names what else could stand in its place. -/
def expression (inner : Inner) (also : List String) : Parse Expr := do
  match ← peek 0 with
  | some ⟨.atom a, span⟩ =>
      let _ ← advance
      return .atom span a
  | some ⟨.keyword .opening, _⟩ => compound inner
  | _ => fail (expressionName :: also)

end Parse

end SchemeFront
