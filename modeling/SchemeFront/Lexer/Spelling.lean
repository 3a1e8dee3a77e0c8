import SchemeFront.Diagnostic

set_option autoImplicit false

/-! # Spellings

A spelling is how a lexeme is written, and `Spelling.lexeme` reads it. The numbers are read only
there: a numeral with too many digits is recognised like any other.
-/

namespace SchemeFront

/-- How a lexeme is written. -/
inductive Spelling where
  | keyword (word : Keyword)
  | boolean (value : Bool)
  | integer (text : List Char)
  /-- Digits with an optional sign, and the digits behind the point. -/
  | real (whole part : List Char)
  | ident (name : List Char)
deriving DecidableEq

namespace Spelling

/-- The characters of a spelling. -/
def text : Spelling → List Char
  | keyword k => k.text.toList
  | boolean b => ['#', if b then 't' else 'f']
  | integer cs => cs
  | real whole part => whole ++ '.' :: part
  | ident name => name

/-- The number with a point that is spelled by the text. -/
def ofReal (text : List Char) : Spelling :=
  real (text.takeWhile (· != '.')) (text.dropWhile (· != '.')).tail

/-- The number of characters. -/
def length (s : Spelling) : Nat := s.text.length

/-- The digits of each number that has to be read, without their sign. -/
def numerals : Spelling → List (List Char)
  | integer cs => [(Text.splitSign cs).2]
  | real whole part => [(Text.splitSign whole).2, part]
  | _ => []

/-- Some number has more digits than can be read. -/
def isOverlong (s : Spelling) : Bool := s.numerals.any fun ds => decide (digitLimit < ds.length)

/-- The lexeme that is spelled. -/
def lexeme : Spelling → Except Fault Lexeme
  | keyword k => .ok (.keyword k)
  | boolean b => .ok (.atom (.boolean b))
  | integer cs => (Text.readInteger cs).map fun n => .atom (.integer n)
  | real whole part => (Decimal.ofText (whole ++ '.' :: part)).map fun d => .atom (.real d)
  | ident name => .ok (.atom (.ident (String.ofList name)))

end Spelling

end SchemeFront
