import SchemeFront.Span

set_option autoImplicit false

/-! # Source texts

A `Source` is a text with the name it was read from. `Source.excerpt` cuts out the characters of
a span, and `Source.location` gives line and column of an offset. Both accept any offset: an
excerpt counts negative ones from the end, and a location moves to the nearer end.
-/

namespace SchemeFront

/-- A named text. -/
structure Source where
  path : String
  text : List Char
deriving DecidableEq

/-- A place in a text, both numbers counted from one. -/
structure Location where
  line : Nat
  column : Nat
deriving DecidableEq

namespace Source

/-- The empty span behind the last character. -/
def endOfInput (src : Source) : Span := Span.point src.path src.text.length

/-! ## Excerpts -/

/-- The place in a sequence of `length` elements that the offset `i` means: counted from the end
if negative, and never outside. -/
def clampIndex (length : Nat) (i : Int) : Nat :=
  if i < 0 then (i + length).toNat else min i.toNat length

/-- The characters from `start` to `stop`, none if these are out of order. -/
def slice (text : List Char) (start stop : Int) : List Char :=
  let i := clampIndex text.length start
  (text.drop i).take (clampIndex text.length stop - i)

/-- The characters of a span. -/
def excerpt (src : Source) (s : Span) : List Char := slice src.text s.start s.stop

/-! ## Lines -/

/-- The lines of a text: the pieces between its newlines, at least one. -/
def lines : List Char → List (List Char)
  | [] => [[]]
  | c :: cs =>
      match lines cs with
      | [] => [[c]]
      | line :: rest => if c = '\n' then [] :: line :: rest else (c :: line) :: rest

theorem lines_ne_nil (cs : List Char) : lines cs ≠ [] := by
  cases cs with
  | nil => simp [lines]
  | cons c cs =>
      rw [lines]
      split
      · simp
      · split <;> simp

theorem lines_cons {c : Char} {cs line : List Char} {rest : List (List Char)}
    (h : lines cs = line :: rest) :
    lines (c :: cs) = if c = '\n' then [] :: line :: rest else (c :: line) :: rest := by
  rw [lines, h]

/-- There is one line more than there are newlines. -/
theorem length_lines (cs : List Char) : (lines cs).length = cs.count '\n' + 1 := by
  induction cs with
  | nil => rfl
  | cons c cs ih =>
      obtain ⟨line, rest, h⟩ := List.exists_cons_of_ne_nil (lines_ne_nil cs)
      rw [h] at ih
      rw [lines_cons h, List.count_cons]
      by_cases hc : c = '\n'
      · subst hc
        simpa using ih
      · simpa [hc] using ih

/-- Line and column behind the characters `before`. -/
def locationAfter (before : List Char) : Location :=
  let line := (before.reverse.takeWhile (· != '\n')).length
  ⟨before.count '\n' + 1, line + 1⟩

/-- Line and column of an offset, which is first moved into the text. -/
def location (src : Source) (offset : Int) : Location :=
  locationAfter (src.text.take offset.toNat)

/-- The line with the given number, counted from one. -/
def line (src : Source) (number : Nat) : List Char := (lines src.text).getD (number - 1) []

end Source

end SchemeFront
