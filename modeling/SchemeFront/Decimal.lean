import SchemeFront.Text.Numeral

set_option autoImplicit false

/-! # Decimals

A `Decimal` is a fixed-point number that remembers its spelling: the number of digits written
after the point, and whether a minus sign was written, which a zero cannot carry in its
numerator. `Decimal.ofText` reads a spelling and `Decimal.text` writes one; `Decimal.write` also
respects the limit on digits.
-/

namespace SchemeFront

/-- The number `numerator / 10 ^ digits`. -/
structure Decimal where
  numerator : Int
  /-- How many digits stand after the point. -/
  digits : Nat
  /-- A minus sign was written. -/
  negative : Bool := false
deriving DecidableEq

namespace Decimal

/-- The number without the record of its sign's spelling: two decimals with the same value and
the same number of written digits have equal `bare` forms. -/
def bare (d : Decimal) : Decimal := { d with negative := false }

/-- The denominator of the written fraction. -/
def denominator (d : Decimal) : Nat := Nat.pow 10 d.digits

/-- Numerator and denominator in lowest terms. -/
def fraction (d : Decimal) : Int × Nat :=
  let common := Nat.gcd d.numerator.natAbs d.denominator
  (d.numerator / common, d.denominator / common)

/-! ## Writing -/

/-- The spelling: the sign, the whole part without superfluous zeros, the point, and as many
digits after it as were written. -/
def text (d : Decimal) : List Char :=
  let sign := if d.numerator < 0 ∨ d.negative then ['-'] else []
  let size := d.numerator.natAbs
  let whole := Nat.toDigits 10 (size / d.denominator)
  let part :=
    if d.digits = 0 then []
    else (Nat.toDigits 10 (size % d.denominator)).leftpad d.digits '0'
  sign ++ whole ++ '.' :: part

/-- Neither the whole part nor the digits after the point, superfluous zeros aside, are more
than can be written. -/
def isWritable (d : Decimal) : Bool :=
  let size := d.numerator.natAbs
  decide (size / d.denominator < Nat.pow 10 digitLimit)
    && decide (size % d.denominator < Nat.pow 10 digitLimit)

/-- The spelling, if it can be written. -/
def write (d : Decimal) : Except Fault (List Char) := writeIf d.isWritable d.text

/-! ## Reading -/

/-- `c` is a sign. -/
def isSign (c : Char) : Bool := c == '+' || c == '-'

/-- The decimal with the spelling `text`. Signs in front are dropped, the first one deciding
whether the number is negative; the rest is split at its first point, and the two parts are read
as integers, an absent fraction being zero. -/
def ofText (text : List Char) : Except Fault Decimal := do
  let negative := text.head? == some '-'
  let unsigned := text.dropWhile isSign
  let part := (unsigned.dropWhile (· != '.')).tail
  let whole ← Text.readInteger (unsigned.takeWhile (· != '.'))
  let rest ← if part.isEmpty then pure 0 else Text.readInteger part
  let size := whole * Nat.pow 10 part.length + rest
  return ⟨if negative then -size else size, part.length, negative⟩

end Decimal

end SchemeFront
