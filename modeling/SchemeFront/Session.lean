import SchemeFront.Lexer
import SchemeFront.Parse.Body
import SchemeFront.Transformer.Begin

set_option autoImplicit false

/-! # Sessions

A `Session` is a parser in use: the registry of its transformers, which grows when an expansion
registers new ones, and the events so far. Its calls take a text to a program: they lex, expand
with the registry as it stands, add what was registered, and parse. The strict calls stop at the
first stage with findings; the recovering calls give a program and a report. What a call has
changed when it stops stays changed.
-/

namespace SchemeFront

/-- Why a call gives no answer. -/
inductive Stop where
  | fault (fault : Fault)
  | report (report : Report)

/-- How deeply forms may be nested, unless something else is said. -/
def defaultLimit : Int := 100

/-- A parser in use. -/
structure Session where
  registry : List Transformer := Transformer.builtin
  limit : Int := defaultLimit
  events : List Event := []

/-- A call of a session. -/
abbrev Call (α : Type) := ExceptT Stop (StateM Session) α

namespace Session

/-! ## Parts of calls -/

/-- Record events. -/
def record (events : List Event) : Call Unit := modify fun s =>
  { s with events := s.events ++ events }

/-- Go on with the value, or stop with the fault. -/
def liftFault {α : Type} : Except Fault α → Call α
  | .ok a => pure a
  | .error f => throw (.fault f)

/-- Stop if there is a report. -/
def strictly : Option Report → Call Unit
  | none => pure ()
  | some r => throw (.report r)

/-- Add a transformer to the registry. -/
def register (t : Transformer) : Call Unit := modify fun s =>
  { s with registry := s.registry ++ [t] }

/-- Add the transformers that an expansion has registered. -/
def enlist (new : List Transformer) : Call Unit := do
  if !new.isEmpty then record [.registered (new.map Transformer.name)]
  modify fun s => { s with registry := s.registry ++ new }

/-! ## Stages -/

/-- The tokens of a source, and the report on characters that belong to none. -/
def lex (src : Source) : Call (List Token × Option Report) := do
  let lexed ← liftFault (Lexed.ofSource src)
  record [.lexed src.path lexed.tokens.length lexed.diagnostics.length]
  return (lexed.tokens, lexed.report? src)

/-- The tokens after expansion with the transformers of the registry. -/
def expand (src : Source) (ts : List Token) : Call Expansion := do
  let s ← get
  let (events, result) := Expansion.ofTokens s.registry s.limit src ts
  record events
  liftFault result

/-- The program that expanded tokens are, with the findings. -/
def programOf (src : Source) (ts : List Token) : Call (Program × List Diagnostic) := do
  let s ← get
  let (program, notes) ← liftFault (Body.ofTokens s.limit src ts)
  record [.parsed src.path program.defs.length program.exprs.length notes.length]
  return (program, notes)

/-! ## Calls -/

/-- The program that tokens are; stop at the first stage with findings. -/
def parseStrictTokens (src : Source) (ts : List Token) : Call Program := do
  let expansion ← expand src ts
  strictly expansion.report?
  enlist expansion.registered
  let (program, notes) ← programOf src expansion.tokens
  strictly (Report.of? .syntactic notes src)
  return program

/-- The program that a source is; stop at the first stage with findings. -/
def parseStrict (src : Source) : Call Program := do
  let (tokens, report?) ← lex src
  strictly report?
  parseStrictTokens src tokens

/-- The program that tokens are, and the report on what is wrong with it. Malformed data are
reported only if parsing finds nothing: it sees the same brackets. -/
def parseLenientTokens (src : Source) (ts : List Token) : Call (Program × Option Report) := do
  let expansion ← expand src ts
  enlist expansion.registered
  let (program, notes) ← programOf src expansion.tokens
  return (program, (Report.of? .syntactic notes src).or expansion.report?)

/-- The program that a source is, and the report on what is wrong with it. A text with characters
that belong to no token gives no program. -/
def parseLenient (src : Source) : Call (Option Program × Option Report) := do
  let (tokens, report?) ← lex src
  match report? with
  | some report => return (none, some report)
  | none =>
      let (program, report?) ← parseLenientTokens src tokens
      return (some program, report?)

end Session

end SchemeFront
