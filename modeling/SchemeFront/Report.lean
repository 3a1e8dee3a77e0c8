import SchemeFront.Diagnostic.Layout

set_option autoImplicit false

/-! # Reports

A `Report` collects the diagnostics of one stage about one source. Its summary is the summary
of the first diagnostic, its text shows all of them; colour is a property of the report that
`Report.coloured` changes.
-/

namespace SchemeFront

/-- Which stage a report comes from. -/
inductive Stage where
  | general
  | lexical
  | syntactic
deriving DecidableEq

/-- What the input of a stage consists of. -/
def Stage.item : Stage → Item
  | lexical => .char
  | general | syntactic => .token

/-- The findings of a stage about a source. -/
structure Report where
  stage : Stage
  diagnostics : List Diagnostic
  source : Source
  colourful : Bool := false
deriving DecidableEq

namespace Report

/-- The summary of the first diagnostic. -/
def summary (r : Report) : String :=
  match r.diagnostics with
  | [] => "no diagnostics"
  | d :: _ => d.summary r.stage.item

/-- The lines that show all diagnostics. -/
def lines (r : Report) : List String :=
  r.diagnostics.flatMap (·.layout r.source r.stage.item r.colourful)

/-- All diagnostics as text. -/
def text (r : Report) : String := Text.unlines r.lines

/-- All diagnostics as text, if they can be shown. -/
def write (r : Report) : Except Fault String :=
  writeIf (r.diagnostics.all Diagnostic.isWritable) r.text

/-- The same findings, with or without colour. -/
def coloured (r : Report) (colourful : Bool) : Report := { r with colourful }

/-- The report on the given findings, if there are any. -/
def of? (stage : Stage) (diagnostics : List Diagnostic) (source : Source) : Option Report :=
  if diagnostics.isEmpty then none else some { stage, diagnostics, source }

end Report

end SchemeFront
