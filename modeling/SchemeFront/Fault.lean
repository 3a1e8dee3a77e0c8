import SchemeFront.Text.Quoted

set_option autoImplicit false

/-! # Faults

A fault ends a computation without an answer. It is no finding about the Scheme text: those are
diagnostics, and parsing goes on after them. `Fault.message` is the text of a fault.
-/

namespace SchemeFront

/-- Why a computation gives no answer. -/
inductive Fault where
  /-- A span would end before it starts. -/
  | reversedSpan (start stop : Int)
  /-- A token was asked for at a place where the list has none. -/
  | indexOutOfRange
  /-- A transformer has no expansion rule. -/
  | noRule
  /-- A text that should spell an integer does not. -/
  | badNumeral (text : List Char)
  /-- A numeral has `count` digits, more than can be read. -/
  | tooManyDigits (count : Nat)
  /-- A number has more digits than can be written. -/
  | unwritable
deriving DecidableEq

/-- The most digits that one numeral may have, read or written. -/
def digitLimit : Nat := 4300

/-- The text, if all numbers in it can be written. -/
def writeIf {α : Type} (writable : Bool) (text : α) : Except Fault α :=
  if writable then .ok text else .error .unwritable

/-- A step that gives a value has had one to go on with. -/
theorem exists_of_bind_eq_ok {α β : Type} {x : Except Fault α} {f : α → Except Fault β} {b : β}
    (h : x >>= f = .ok b) : ∃ a, x = .ok a ∧ f a = .ok b := by
  cases x with
  | error fault => cases h
  | ok a => exact ⟨a, rfl, h⟩

/-- How much of a quoted unreadable numeral is shown. -/
def shownNumeral : Nat := 200

/-- The text of a fault. -/
def Fault.message : Fault → String
  | .reversedSpan start stop => s!"Span start {start} is after end {stop}"
  | .indexOutOfRange => "list index out of range"
  | .noRule => ""
  | .badNumeral text =>
      "invalid literal for int() with base 10: "
        ++ String.ofList ((Text.quoted text).take shownNumeral)
  | .tooManyDigits count =>
      s!"Exceeds the limit ({digitLimit} digits) for integer string conversion: value has "
        ++ s!"{count} digits; use sys.set_int_max_str_digits() to increase the limit"
  | .unwritable =>
      s!"Exceeds the limit ({digitLimit} digits) for integer string conversion; "
        ++ "use sys.set_int_max_str_digits() to increase the limit"

end SchemeFront
