import SchemeFront.Datum
import SchemeFront.Report
import SchemeFront.Token.Extent

set_option autoImplicit false

/-! # Reading data

`Datum.readAll` groups a list of tokens into data and never gives up: a closing bracket without
an opening one, a list that is nested too deeply and a list that is never closed become malformed
regions, with a finding each (of lists that are never closed only the outermost is reported).
Reading a datum leaves exactly the tokens behind its form (`Token.extent`).
-/

namespace SchemeFront.Datum

/-- What was read, the findings, how many lists are then open, and the tokens that are left. -/
structure Reading (α : Type) where
  value : α
  notes : List Diagnostic := []
  depth : Nat
  rest : List Token

/-- The elements of a list, and the bracket that closes it. -/
structure Elements where
  children : List Datum
  closing : Option Token

/-- What lists are called in findings. -/
def listName : String := "( ... )"

/-- What a datum can begin with. -/
def beginnings : List String := ["<keyword>", "<primitive>", "("]

/-- What is said at a closing bracket without an opening one. -/
def strayClose (t : Token) : Diagnostic :=
  Diagnostic.unexpected t.span (some (.token t)) (beginnings ++ [endOfInputName])

/-- A list that is nested too deeply, as a malformed region. -/
def refuse (limit : Int) (endOfInput : Span) (depth : Nat) (t : Token) (ts : List Token) :
    Except Fault (Reading Datum) := do
  let form := (t :: ts).take (Token.extent (t :: ts))
  let span ← Token.cover form endOfInput
  return {
    value := broken form span
    notes := [Diagnostic.tooDeep limit t.span listName]
    depth
    rest := (t :: ts).drop (Token.extent (t :: ts)) }

/-- A list that begins with the bracket `t`, from its elements. Without a closing bracket it
is a malformed region with all the tokens `t :: ts`, reported if nothing is around it. -/
def finish (endOfInput : Span) (t : Token) (ts : List Token) (elements : Reading Elements) :
    Except Fault (Reading Datum) :=
  let depth := elements.depth - 1
  match elements.value.closing with
  | some close =>
      .ok {
        value := list elements.value.children (t.span.join close.span)
        notes := elements.notes
        depth
        rest := elements.rest }
  | none => do
      let span ← Token.cover (t :: ts) endOfInput
      let note := Diagnostic.unclosed endOfInput (some "(") t.span none (some listName)
      return {
        value := broken (t :: ts) span
        notes := elements.notes ++ if elements.depth = 1 then [note] else []
        depth
        rest := elements.rest }

/-! ## The reader -/

mutual

/-- The datum that begins with the token `t`, inside `depth` lists. -/
def read (limit : Int) (endOfInput : Span) :
    (fuel depth : Nat) → Token → List Token → Except Fault (Reading Datum)
  | 0, _, _, _ => .error .indexOutOfRange
  | fuel + 1, depth, t, ts =>
      if !t.opens then .ok { value := leaf t.lexeme t.span, depth, rest := ts }
      else if limit ≤ depth then refuse limit endOfInput depth t ts
      else do
        let elements ← readElements limit endOfInput fuel (depth + 1) ts
        finish endOfInput t ts elements

/-- The elements up to the closing bracket, inside `depth` lists. -/
def readElements (limit : Int) (endOfInput : Span) :
    (fuel depth : Nat) → List Token → Except Fault (Reading Elements)
  | 0, _, _ => .error .indexOutOfRange
  | _ + 1, depth, [] => .ok { value := ⟨[], none⟩, depth, rest := [] }
  | fuel + 1, depth, t :: ts =>
      if t.closes then .ok { value := ⟨[], some t⟩, depth, rest := ts }
      else do
        let first ← read limit endOfInput fuel depth t ts
        let more ← readElements limit endOfInput fuel first.depth first.rest
        return {
          value := { more.value with children := first.value :: more.value.children }
          notes := first.notes ++ more.notes
          depth := more.depth
          rest := more.rest }

end

/-- Enough fuel to read anything from `ts`. -/
def fuelFor (ts : List Token) : Nat := 2 * ts.length

/-- The first datum at top level. -/
def readNext (limit : Int) (endOfInput : Span) (depth : Nat) (t : Token) (ts : List Token) :
    Except Fault (Reading Datum) :=
  if t.closes then
    .ok { value := broken [t] t.span, notes := [strayClose t], depth, rest := ts }
  else read limit endOfInput (fuelFor (t :: ts)) depth t ts

/-- All data of a list of tokens, in at most `rounds` steps, inside `depth` lists. -/
def readFrom (limit : Int) (endOfInput : Span) :
    (rounds depth : Nat) → List Token → Except Fault (Reading (List Datum))
  | _, depth, [] => .ok { value := [], depth, rest := [] }
  | 0, _, _ :: _ => .error .indexOutOfRange
  | rounds + 1, depth, t :: ts => do
      let first ← readNext limit endOfInput depth t ts
      let more ← readFrom limit endOfInput rounds first.depth first.rest
      return {
        value := first.value :: more.value
        notes := first.notes ++ more.notes
        depth := more.depth
        rest := more.rest }

/-- All data of a list of tokens. -/
def readAll (limit : Int) (endOfInput : Span) (ts : List Token) :
    Except Fault (Reading (List Datum)) :=
  readFrom limit endOfInput ts.length 0 ts

/-- All data of a list of tokens that stand in a source, with the report on malformed ones. -/
def ofTokens (limit : Int) (src : Source) (ts : List Token) :
    Except Fault (List Datum × Option Report) := do
  let reading ← readAll limit src.endOfInput ts
  return (reading.value, Report.of? .syntactic reading.notes src)

end SchemeFront.Datum
