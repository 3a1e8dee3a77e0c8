import SchemeFront.Fault
import SchemeFront.Text.CharClass

set_option autoImplicit false

/-! # Written integers

`readInteger` gives the value of a numeral: an optional sign, then decimal digits of any script,
with single underscores between digits allowed, and blanks around the whole. A text of another
form is a `Fault.badNumeral`, and a numeral of more than `digitLimit` digits a
`Fault.tooManyDigits`, also when it stands before characters that belong to no numeral.
-/

namespace SchemeFront.Text

/-! ## Digits -/

/-- The zeros of the decimal digits of all scripts (general category Nd of Unicode 14); each is
followed by the other nine digits in order. -/
def digitZeros : List Nat :=
  [0x30, 0x660, 0x6F0, 0x7C0, 0x966, 0x9E6, 0xA66, 0xAE6, 0xB66, 0xBE6, 0xC66, 0xCE6, 0xD66,
   0xDE6, 0xE50, 0xED0, 0xF20, 0x1040, 0x1090, 0x17E0, 0x1810, 0x1946, 0x19D0, 0x1A80, 0x1A90,
   0x1B50, 0x1BB0, 0x1C40, 0x1C50, 0xA620, 0xA8D0, 0xA900, 0xA9D0, 0xA9F0, 0xAA50, 0xABF0,
   0xFF10, 0x104A0, 0x10D30, 0x11066, 0x110F0, 0x11136, 0x111D0, 0x112F0, 0x11450, 0x114D0,
   0x11650, 0x116C0, 0x11730, 0x118E0, 0x11950, 0x11C50, 0x11D50, 0x11DA0, 0x16A60, 0x16AC0,
   0x16B50, 0x1D7CE, 0x1D7D8, 0x1D7E2, 0x1D7EC, 0x1D7F6, 0x1E140, 0x1E2F0, 0x1E950, 0x1FBF0]

/-- The value of a decimal digit. -/
def digitValue? (c : Char) : Option Nat :=
  (digitZeros.find? fun z => decide (z ≤ c.toNat) && decide (c.toNat < z + 10)).map
    (c.toNat - ·)

/-- The number with the given digits, the first of them the most significant. -/
def valueOf (digits : List Nat) : Nat := digits.foldl (fun n d => 10 * n + d) 0

/-! ## Numerals -/

/-- `c` may stand before or after a numeral: a blank other than an information separator. -/
def isMargin (c : Char) : Bool := isBlank c && !inRanges [(0x1C, 0x1F)] c

/-- Take a sign off the front, and tell whether it was a minus. -/
def splitSign : List Char → Bool × List Char
  | '-' :: cs => (true, cs)
  | '+' :: cs => (false, cs)
  | cs => (false, cs)

/-- `c` may stand inside a numeral: a digit or an underscore. -/
def isGroupChar (c : Char) : Bool := c == '_' || (digitValue? c).isSome

/-- In a text of digits and underscores, every underscore stands between two digits, and there
is a digit. -/
def wellGrouped : List Char → Bool
  | [] => false
  | '_' :: _ => false
  | [_] => true
  | _ :: '_' :: cs => wellGrouped cs
  | _ :: c :: cs => wellGrouped (c :: cs)

/-- The integer that `text` spells. -/
def readInteger (text : List Char) : Except Fault Int :=
  let (negative, unsigned) := splitSign (text.dropWhile isMargin)
  let group := unsigned.takeWhile isGroupChar
  let digits := group.filterMap digitValue?
  if !wellGrouped group then .error (.badNumeral text)
  else if digitLimit < digits.length then .error (.tooManyDigits digits.length)
  else if !(unsigned.dropWhile isGroupChar).all isMargin then .error (.badNumeral text)
  else .ok (if negative then -(valueOf digits) else valueOf digits)

end SchemeFront.Text
