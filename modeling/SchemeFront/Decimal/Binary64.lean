import SchemeFront.Decimal

set_option autoImplicit false

/-! # The nearest double

`nearest` rounds a positive fraction to the nearest number of the binary64 format, a tie going
to the even neighbour, and gives the encoding of that number in 63 bits. Encodings of finite
numbers grow with the number, so one formula covers normal and subnormal numbers, and rounding
up to the next power of two carries into the exponent by itself.
-/

namespace SchemeFront.Binary64

/-- The quotient `n / d` to the nearest integer, a tie going to the even one. -/
def roundDiv (n d : Nat) : Nat :=
  let q := n / d
  let r := n % d
  if 2 * r < d then q else if d < 2 * r then q + 1 else q + q % 2

/-- Is `n / d` at least `2 ^ e`? -/
def reaches (n d : Nat) (e : Int) : Bool :=
  decide (d * Nat.pow 2 e.toNat ≤ n * Nat.pow 2 (-e).toNat)

/-- The binary exponent of `n / d`, both positive: the largest `e` with `2 ^ e ≤ n / d`. -/
def exponent (n d : Nat) : Int :=
  let e : Int := n.log2 - d.log2
  if reaches n d e then e else e - 1

/-- The exponent of the least positive number. -/
def leastUnit : Int := -1074

/-- The encoding of the first number that is too large. -/
def infinity : Nat := 0x7FF0000000000000

/-- The encoding of the number nearest to `n / d`, for positive `d`, or nothing if it is too
large. The unit in the last place is `2 ^ u`. -/
def nearest (n d : Nat) : Option Nat :=
  if n = 0 then some 0
  else
    let u := max (exponent n d - 52) leastUnit
    let size := roundDiv (n * Nat.pow 2 (-u).toNat) (d * Nat.pow 2 u.toNat)
    let bits := (u - leastUnit).toNat * Nat.pow 2 52 + size
    if bits < infinity then some bits else none

/-- The encoding of a decimal in 64 bits, or nothing if it is too large. A zero is negative if
it was written so. -/
def ofDecimal (d : Decimal) : Option Nat :=
  let minus := decide (d.numerator < 0) || (d.negative && d.numerator == 0)
  (nearest d.numerator.natAbs d.denominator).map fun bits =>
    if minus then Nat.pow 2 63 + bits else bits

end SchemeFront.Binary64
