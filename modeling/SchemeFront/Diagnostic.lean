import SchemeFront.Token

set_option autoImplicit false

/-! # Diagnostics

A `Diagnostic` is one finding about a Scheme text: where it is, what is wrong there, and
optionally which construct was being parsed. The three kinds of finding are the constructors of
`Cause`. The alternatives that would have been accepted are kept in order and without
repetitions (`alternatives`).
-/

namespace SchemeFront

/-- What was met instead of what was expected. -/
inductive Found where
  | text (shown : String)
  | token (t : Token)
deriving DecidableEq

namespace Found

/-- How the thing met is displayed. -/
def display : Found → String
  | text shown => shown
  | token t => t.text

/-- The thing met can be displayed. -/
def isWritable : Found → Bool
  | text _ => true
  | token t => t.lexeme.isWritable

end Found

/-- What is wrong. -/
inductive Cause where
  /-- Something was met that cannot stand there; nothing is met at the end of the input. -/
  | unexpected (found : Option Found) (expected : List String)
  /-- The delimiter opened at `opened` was never closed. -/
  | unclosed (delimiter : Option String) (opened : Span) (found : Option Found)
  /-- A finding with a text of its own. -/
  | remark (message : Option String)
deriving DecidableEq

/-- One finding about a text. -/
structure Diagnostic where
  span : Span
  cause : Cause
  /-- The construct that was being parsed. -/
  construct : Option String := none
deriving DecidableEq

/-! ## Expected alternatives -/

/-- How the end of the input is called among what was expected. -/
def endOfInputName : String := "end of input"

/-- Insert a text into a list that is in order, unless it is there. -/
def insertAlternative (s : String) : List String → List String
  | [] => [s]
  | t :: ts =>
      if s = t then t :: ts
      else if s < t then s :: t :: ts
      else t :: insertAlternative s ts

/-- The texts in order, without repetitions. -/
def alternatives : List String → List String
  | [] => []
  | s :: ss => insertAlternative s (alternatives ss)

theorem mem_insertAlternative {s t : String} {ts : List String} :
    t ∈ insertAlternative s ts ↔ t = s ∨ t ∈ ts := by
  induction ts with
  | nil => simp [insertAlternative]
  | cons u us ih =>
      rw [insertAlternative]
      split
      · rename_i h
        subst h
        simp
      · split
        · simp
        · simp only [List.mem_cons, ih]
          grind

/-- Ordering neither adds an alternative nor loses one. -/
theorem mem_alternatives {t : String} {ss : List String} : t ∈ alternatives ss ↔ t ∈ ss := by
  induction ss with
  | nil => simp [alternatives]
  | cons s ss ih => rw [alternatives, mem_insertAlternative, ih, List.mem_cons]

namespace Diagnostic

/-! ## Making diagnostics -/

/-- Something, or the end of the input, was met where only certain alternatives can stand. -/
def unexpected (span : Span) (found : Option Found) (expected : List String := [])
    (construct : Option String := none) : Diagnostic :=
  ⟨span, .unexpected found (alternatives expected), construct⟩

/-- A delimiter was not closed before `span`. -/
def unclosed (span : Span) (delimiter : Option String) (opened : Span)
    (found : Option Found := none) (construct : Option String := none) : Diagnostic :=
  ⟨span, .unclosed delimiter opened found, construct⟩

/-- A finding with a text of its own. -/
def remark (span : Span) (message : String) (construct : Option String := none) : Diagnostic :=
  ⟨span, .remark (some message), construct⟩

/-- Name the construct, unless one is named already. -/
def within (construct : String) (d : Diagnostic) : Diagnostic :=
  { d with construct := some (d.construct.getD construct) }

/-- A bracket is nested more deeply than `limit` allows. -/
def tooDeep (limit : Int) (bracket : Span) (construct : String) : Diagnostic :=
  remark bracket s!"Nesting deeper than {limit} levels" (some construct)

/-! ## Questions -/

/-- What was met, if anything was. -/
def found? (d : Diagnostic) : Option Found :=
  match d.cause with
  | .unexpected found _ => found
  | .unclosed _ _ found => found
  | .remark _ => none

/-- The diagnostic can be shown. -/
def isWritable (d : Diagnostic) : Bool := d.found?.all Found.isWritable

/-- The finding is that the input ended too early. -/
def atEnd (d : Diagnostic) : Bool :=
  match d.cause with
  | .unexpected none _ => true
  | _ => false

end Diagnostic

end SchemeFront
