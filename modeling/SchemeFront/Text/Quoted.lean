import SchemeFront.Text.Printable

set_option autoImplicit false

/-! # Quoted text

`quoted` writes a text between quotes so that it fits on one line: the quote, the backslash and
every character that cannot be printed are escaped. Excerpts of a source and unreadable
numerals are shown this way.
-/

namespace SchemeFront.Text

/-- The digits of `n` to the base sixteen, in lower case, at least `width` of them. -/
def hex (width n : Nat) : List Char := (Nat.toDigits 16 n).leftpad width '0'

/-- The quote to put around a text: a plain one, unless the text holds plain quotes and no
double ones. -/
def quoteFor (text : List Char) : Char :=
  if text.contains '\'' && !text.contains '"' then '"' else '\''

/-- One character as it stands between the quotes `quote`. -/
def escaped (quote c : Char) : List Char :=
  if c = quote ∨ c = '\\' then ['\\', c]
  else if c = '\t' then ['\\', 't']
  else if c = '\n' then ['\\', 'n']
  else if c = '\r' then ['\\', 'r']
  else if isPrintable c then [c]
  else if c.toNat < 0x100 then '\\' :: 'x' :: hex 2 c.toNat
  else if c.toNat < 0x10000 then '\\' :: 'u' :: hex 4 c.toNat
  else '\\' :: 'U' :: hex 8 c.toNat

/-- The text between quotes, on one line. -/
def quoted (text : List Char) : List Char :=
  let quote := quoteFor text
  quote :: text.flatMap (escaped quote) ++ [quote]

end SchemeFront.Text
