import SchemeFront.Token.Extent

set_option autoImplicit false

/-! # Cursors

A `Cursor` is a position in a list of tokens. Positions before the first token count from the
last one; where there is no token at all, `Fault.indexOutOfRange` arises. `Cursor.passForm`
moves behind a form and never backwards.
-/

namespace SchemeFront

namespace Token

/-- The tokens from the index `i` on. A negative index counts from the end, and the list then
starts over with its first token. -/
def fromIndex (ts : List Token) (i : Int) : List Token :=
  if i < 0 then ts.drop (i + ts.length).toNat ++ ts else ts.drop i.toNat

/-- The token with the index `i`, a negative one counting from the end. -/
def atIndex (ts : List Token) (i : Int) : Except Fault Token :=
  if i < -ts.length then .error .indexOutOfRange
  else match (fromIndex ts i).head? with
    | some t => .ok t
    | none => .error .indexOutOfRange

/-- The index behind the form that begins at the index `i`: the length of the list if that form
is never closed or `i` is no index. -/
def afterForm (ts : List Token) (i : Int) : Except Fault Int :=
  if ts.length ≤ i then .ok ts.length
  else if i < -ts.length then .error .indexOutOfRange
  else .ok (i + extent (fromIndex ts i))

/-- The span of the tokens with indices from `start` up to `stop`, or `fallback` if there are
none. -/
def coverRange (ts : List Token) (start stop : Int) (fallback : Span) : Except Fault Span := do
  if stop ≤ start then return fallback
  let first ← atIndex ts start
  let last ← atIndex ts (stop - 1)
  first.span.between last.span

end Token

/-- A position in a list of tokens, and the span of the end of the input. -/
structure Cursor where
  tokens : List Token
  endOfInput : Span
  pos : Nat := 0

namespace Cursor

/-- The token `offset` places after the position, or nothing behind the last one. -/
def look (c : Cursor) (offset : Int) : Except Fault (Option Token) :=
  let i := c.pos + offset
  if i < c.tokens.length then (Token.atIndex c.tokens i).map some else .ok none

/-- Take the token at the position. -/
def next (c : Cursor) : Except Fault (Token × Cursor) :=
  (Token.atIndex c.tokens c.pos).map fun t => (t, { c with pos := c.pos + 1 })

/-- No token is left. -/
def isAtEnd (c : Cursor) : Bool := decide (c.tokens.length ≤ c.pos)

/-- The span of the token at the position, or of the end of the input. -/
def here (c : Cursor) : Span :=
  match c.tokens[c.pos]? with
  | some t => t.span
  | none => c.endOfInput

/-- Move behind the form at the index `i`, at least one token behind `i` and never backwards.
Gives the span of the skipped tokens; the position is reached even where there is no such
span. -/
def passForm (c : Cursor) (i : Int) : Except Fault Span × Cursor :=
  match Token.afterForm c.tokens i with
  | .error fault => (.error fault, c)
  | .ok stop =>
      let least := if i < c.tokens.length then max stop (i + 1) else stop
      let pos := min (max least c.pos).toNat c.tokens.length
      (Token.coverRange c.tokens i pos c.endOfInput, { c with pos := pos })

end Cursor

end SchemeFront
