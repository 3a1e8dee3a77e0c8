import SchemeFront.Parse.Expression

set_option autoImplicit false

/-! # Bodies

A body is a sequence of items, definitions first. An item that is out of place does not end it:
a definition behind an expression is recorded and stands as an error among the expressions, while
expressions that could not be parsed do not end the definitions. At top level also a closing
bracket or a word without its bracket is recorded and skipped, so that a program can be made of
any tokens.
-/

namespace SchemeFront

/-- A part of a body. -/
inductive BodyItem where
  | definition (d : Definition)
  | expression (e : Expr)
  /-- Tokens that were recorded and skipped. -/
  | nothing

namespace Parse

/-! ## Definitions -/

/-- `name value`, behind the word `define`. -/
def namedValue (inner : Inner) (opened : Token) : Parse Definition := do
  let name ← identifier
  let value ← inner.expr []
  let closed ← close
  return ⟨opened.span.join closed.span, name, value⟩

/-- `(name parameter …) body`, behind the word `define`. -/
def namedProcedure (inner : Inner) (opened : Token) : Parse Definition := do
  let _ ← advance
  let name ← identifier
  let params ← parameters
  let body ← inner.body
  let closed ← close
  let span := opened.span.join closed.span
  return ⟨span, name, .procedure span false params body⟩

/-- `(define name value)` or `(define (name parameter …) body)`, behind the bracket. -/
def definition (inner : Inner) (opened : Token) : Parse Definition := do
  let _ ← advance
  match ← peek 0 with
  | some t =>
      if t.name?.isSome then namedValue inner opened
      else if t.opens then namedProcedure inner opened
      else fail ["(", identifierName]
  | none => fail ["(", identifierName]

/-! ## Items -/

/-- The item that the form of a definition is. -/
def itemOfParsed : Parsed Definition → BodyItem
  | .whole d => .definition d
  | .broken span => .expression (.error span)

/-- The next two tokens begin a definition. -/
def atDefinition : Parse Bool := do
  let bracket ← peek 0
  let head ← peek 1
  return bracket.any Token.opens && head.any (Token.isKeyword .define)

/-- A definition, or else an expression. -/
def item (inner : Inner) (expr : Parse Expr) : Parse BodyItem := do
  if ← atDefinition then itemOfParsed <$> form "definition" (definition inner)
  else BodyItem.expression <$> expr

/-- What is said at a definition behind an expression. -/
def late (span : Span) : Diagnostic :=
  Diagnostic.remark span "Definitions must come before every expression of a body"
    (some "definition")

/-- Sort items into definitions and expressions until `next` gives no more, which takes at most
`rounds` steps. `started` says that there are expressions, `seen` that one of them is no error. -/
def items (next : (started : Bool) → Parse (Option BodyItem)) :
    (started seen : Bool) → (rounds : Nat) → Parse (List Definition × List Expr)
  | _, _, 0 => abort .indexOutOfRange
  | started, seen, rounds + 1 => do
      match ← next started with
      | none => return ([], [])
      | some .nothing => items next started seen rounds
      | some (.expression e) =>
          let (defs, exprs) ← items next true (seen || !e.isError) rounds
          return (defs, e :: exprs)
      | some (.definition d) =>
          if seen then
            note (late d.span)
            let (defs, exprs) ← items next true seen rounds
            return (defs, .error d.span :: exprs)
          else
            let (defs, exprs) ← items next started seen rounds
            return (d :: defs, exprs)

/-- All items that `next` gives, sorted. -/
def allItems (next : (started : Bool) → Parse (Option BodyItem)) :
    Parse (List Definition × List Expr) :=
  withRounds (items next false false)

/-- The body with the given definitions and expressions, if there is an expression. -/
def body? (defs : List Definition) (exprs : List Expr) : Option Body :=
  exprs.getLast?.map fun last => ⟨defs, exprs.dropLast, last⟩

/-! ## Bodies in brackets -/

/-- The next item up to a closing bracket. -/
def innerItem (inner : Inner) (started : Bool) : Parse (Option BodyItem) := do
  match ← peek 0 with
  | none => return none
  | some t =>
      if t.closes then return none
      some <$> item inner (expression inner (if started then [")"] else []))

/-- A body up to the bracket that closes its form, which is left. -/
def bracketedBody (inner : Inner) : Parse Body := do
  let (defs, exprs) ← allItems (innerItem inner)
  match body? defs exprs with
  | some body => return body
  | none => fail [definitionName, expressionName]

/-- The parsers that use `inner` one bracket further in. -/
def outward (inner : Inner) : Inner := ⟨expression inner, bracketedBody inner⟩

/-- The parsers for what is nested at most `level` brackets deep. -/
def nested : (level : Nat) → Inner
  | 0 => ⟨fun _ => abort .indexOutOfRange, abort .indexOutOfRange⟩
  | level + 1 => outward (nested level)

/-! ## Programs -/

/-- An expression; a failure is recorded, and the form that follows is skipped. -/
def recovered (expr : Parse Expr) : Parse Expr := fun ctx pos =>
  match expr ctx pos with
  | .failed why trace after =>
      ((ofParsed <$> recover after.rest why) ctx after).behind trace
  | reply => reply

/-- What is said at a closing bracket that closes nothing. -/
def strayClose (t : Token) : Diagnostic :=
  Diagnostic.unexpected t.span (some (.token t)) [definitionName, expressionName, endOfInputName]

/-- The next item at top level. -/
def outerItem (inner : Inner) (_started : Bool) : Parse (Option BodyItem) := do
  match ← peek 0 with
  | none => return none
  | some t =>
      if t.closes then
        note (strayClose t)
        let _ ← advance
        return some .nothing
      some <$> item inner (recovered (expression inner []))

/-- The program with the given definitions and expressions. If there is no expression, an error
at the end of the input takes its place. -/
def programOf (defs : List Definition) (exprs : List Expr) : Parse Program := fun ctx pos =>
  (match body? defs exprs with
    | some body => return body
    | none => do
        note (Diagnostic.unexpected ctx.endOfInput none [definitionName, expressionName])
        return ⟨defs, [], .error ctx.endOfInput⟩ : Parse Program) ctx pos

/-- A whole program, with parsers for as many levels as there are tokens. -/
def program : Parse Program := fun ctx pos =>
  (do
    let (defs, exprs) ← allItems (outerItem (nested pos.rest.length))
    programOf defs exprs : Parse Program) ctx pos

end Parse

/-- The program that a list of tokens in a source is, with the findings. A failure that passed
all boundaries would be no answer. -/
def Body.ofTokens (limit : Int) (src : Source) (ts : List Token) :
    Except Fault (Program × List Diagnostic) :=
  match Parse.program (Context.ofSource limit src) { rest := ts } with
  | .done program trace _ => .ok (program, trace.notes)
  | .failed _ _ _ => .error .indexOutOfRange
  | .fault fault _ _ => .error fault

end SchemeFront
