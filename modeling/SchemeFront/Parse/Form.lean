import SchemeFront.Parse
import SchemeFront.Token.Extent

set_option autoImplicit false

/-! # Forms

A form is parsed inside a recovery boundary (`Parse.form`). If parsing what is inside fails, the
failure is recorded, the form is skipped up to the bracket that closes it, and the answer is
`Parsed.broken`. One failure passes the boundary: when the input ends inside nested forms, only
the outermost of them reports it, as a bracket that is never closed. A form that is nested too
deeply is skipped at once.
-/

namespace SchemeFront

/-- What a form turned out to be. -/
inductive Parsed (α : Type) where
  | whole (value : α)
  | broken (span : Span)

namespace Parse

variable {α : Type}

/-- What is recorded about a form that could not be parsed because of `why`. -/
def explain (opened : Token) (construct : String) (why : Diagnostic) : Diagnostic :=
  if why.atEnd then (Diagnostic.unclosed why.span (some "(") opened.span).within construct
  else why.within construct

/-- Move behind the form that `start` begins with, and never backwards. Gives the span of the
tokens from `start` on that are then passed. -/
def skip (start : List Token) : Parse Span := fun ctx pos =>
  let count := max (Token.extent start) (start.length - pos.rest.length)
  let moved := pos.moveTo (start.drop count)
  match Token.cover (start.take count) ctx.endOfInput with
  | .ok span => .done span (.ofPosition moved) moved
  | .error fault => .fault fault (.ofPosition moved) moved

/-- Record a finding and skip the form that `start` begins with. -/
def recover (start : List Token) (d : Diagnostic) : Parse (Parsed α) := do
  note d
  let span ← skip start
  return .broken span

/-- Parse what is inside a form that was entered from `outer`, with the bracket `opened`. A
failure is recorded there, unless it is the end of the input and there is a form around. -/
def guarded (construct : String) (outer : Position) (opened : Token) (inner : Parse α) :
    Parse (Parsed α) := fun ctx pos =>
  match inner ctx pos with
  | .done a trace after => .done (.whole a) trace after
  | .failed why trace after =>
      if why.atEnd && !outer.forms.isEmpty then .failed why trace after
      else (recover outer.rest (explain opened construct why) ctx after).behind trace
  | .fault fault trace after => .fault fault trace after

/-- Parse the form that begins with the next token, which must be there: `inner` is given this
token and reads what follows it, the closing bracket included. -/
def form (construct : String) (inner : Token → Parse α) : Parse (Parsed α) := fun ctx pos =>
  match pos.rest with
  | [] => .fault .indexOutOfRange ∅ pos
  | opened :: tail =>
      let counted := ctx.counts pos opened
      if counted && decide (ctx.limit ≤ pos.depth) then
        recover pos.rest (Diagnostic.tooDeep ctx.limit opened.span construct) ctx pos
      else
        let inside := pos.enter counted tail
        ((guarded construct pos opened (inner opened) ctx inside).behind
          (.ofPosition inside)).leaving counted

end Parse

end SchemeFront
