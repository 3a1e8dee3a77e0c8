import SchemeFront.Diagnostic
import SchemeFront.Text.Lines

set_option autoImplicit false

/-! # Layout of diagnostics

A diagnostic is shown as a summary, the place it points at, and for each of its labels the
source line with a row of carets below. `layout` gives the lines. Colour adds escape sequences
around parts of the text (`styled`) and changes nothing else: widths and the order of labels are
computed from the uncoloured text.
-/

namespace SchemeFront

/-! ## Colour -/

/-- The colours of a report. -/
inductive Colour where
  | red
  | yellow
deriving DecidableEq

/-- The sequence that switches a colour on. -/
def Colour.code : Colour → String
  | red => "\x1b[31m"
  | yellow => "\x1b[33m"

/-- The sequence that switches bold type on. -/
def boldCode : String := "\x1b[1m"

/-- The sequence that ends colour and bold type. -/
def resetCode : String := "\x1b[0m"

/-- `text`, switched to the style `code` if there is colour. -/
def styled (text code : String) (colourful : Bool) : String :=
  if colourful then code ++ text ++ resetCode else text

/-! ## Wording -/

/-- What the input of a stage consists of. -/
inductive Item where
  | char
  | token
deriving DecidableEq

/-- The word for an item. -/
def Item.word : Item → String
  | char => "char"
  | token => "token"

/-- An absent text is shown as `None`. -/
def shown (text : Option String) : String := text.getD "None"

namespace Diagnostic

/-- The summary of a diagnostic. -/
def summary (d : Diagnostic) (item : Item) (colourful : Bool := false) : String :=
  let parsing :=
    match d.construct with
    | none | some "" => ""
    | some construct => ", parsing " ++ construct
  match d.cause with
  | .unexpected found expected =>
      let met :=
        if found.isNone then "Unexpected end of input"
        else "Unexpected " ++ item.word ++ " in input"
      let wanted :=
        if !expected.isEmpty then ", expected " ++ Text.joined ", " expected
        else if item = .char then ""
        else ", expected something else"
      met ++ wanted ++ parsing
  | .unclosed delimiter _ _ =>
      "Unclosed delimiter " ++ styled (shown delimiter) Colour.yellow.code colourful ++ parsing
  | .remark message => shown message ++ parsing

/-! ## Labels -/

/-- A part of the source, with what there is to say about it. -/
structure Label where
  span : Span
  message : String
  colour : Colour
deriving DecidableEq

/-- The labels of a diagnostic; that of its own span comes last. -/
def labels (d : Diagnostic) (item : Item) (colourful : Bool := false) : List Label :=
  match d.cause with
  | .unexpected found _ =>
      let met :=
        match found with
        | none => "end of file"
        | some f => item.word ++ " " ++ f.display
      [⟨d.span, "Unexpected " ++ styled met Colour.red.code colourful, .red⟩]
  | .unclosed delimiter opened found =>
      let met := (found.map Found.display).getD "end of file"
      [⟨opened, "Unclosed delimiter " ++ styled (shown delimiter) Colour.yellow.code colourful,
          .yellow⟩,
       ⟨d.span, "Must be closed before this " ++ styled met Colour.red.code colourful, .red⟩]
  | .remark message => [⟨d.span, styled (shown message) Colour.red.code colourful, .red⟩]

/-- Insert a label in front of those that start no earlier. -/
def insertLabel (label : Label) : List Label → List Label
  | [] => [label]
  | other :: rest =>
      if label.span.start ≤ other.span.start then label :: other :: rest
      else other :: insertLabel label rest

/-- The labels by increasing start, those with equal starts in their given order. -/
def sortLabels (ls : List Label) : List Label := ls.foldr insertLabel []

/-- How many characters of the line to underline, from the given column on: those of the span,
up to the end of the line, and at least one. -/
def underlineWidth (line : List Char) (column : Nat) (span : Span) : Nat :=
  let left : Nat := line.length + 1 - column
  max 1 (min span.stop (span.start + left) - span.start).toNat

/-- The margin of a source line. -/
def gutter (line : Nat) : String :=
  String.ofList ((Nat.toDigits 10 line).leftpad 4 ' ') ++ " | "

/-- The source line that a label points into, and the underlining with the label's message. -/
def Label.layout (label : Label) (src : Source) (colourful : Bool := false) : List String :=
  let place := src.location label.span.start
  let line := src.line place.line
  let margin := gutter place.line
  let carets := String.ofList (List.replicate (underlineWidth line place.column label.span) '^')
  [margin ++ String.ofList line,
   Text.blanks (margin.length - 2) ++ "| " ++ Text.blanks (place.column - 1)
     ++ styled carets label.colour.code colourful ++ " " ++ label.message]

/-! ## The whole -/

/-- The lines that show a diagnostic. -/
def layout (d : Diagnostic) (src : Source) (item : Item := .token) (colourful : Bool := false) :
    List String :=
  let place := src.location d.span.start
  let title := styled "Error" (Colour.red.code ++ boldCode) colourful
  [title ++ ": " ++ d.summary item colourful,
   s!"  --> {src.path}:{place.line}:{place.column}"]
    ++ (sortLabels (d.labels item colourful)).flatMap (Label.layout · src colourful)

/-- A diagnostic as text. -/
def text (d : Diagnostic) (src : Source) (item : Item := .token) (colourful : Bool := false) :
    String :=
  Text.unlines (d.layout src item colourful)

end Diagnostic

end SchemeFront
