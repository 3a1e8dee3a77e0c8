import SchemeFront.Lexer.Pattern
import SchemeFront.Lexer.Spelling

set_option autoImplicit false

/-! # Scanning

The lexical grammar is a list of alternatives, and at each place the first one counts that matches
there (`Scanned.choose?`). The scan goes through a text from left to right: it goes on behind a
match, and where nothing matches, one character further on. A character that is passed in this way
and is not blank is a stray one. Comments are matched, but not kept, and numbers are not read yet.
-/

namespace SchemeFront

/-! ## The lexical grammar -/

namespace Pattern

/-- `[0-9]+` -/
def digits : Pattern := .seq (.one Char.isDigit) (.many Char.isDigit)

/-- `[+-]?[0-9]+` -/
def signedDigits : Pattern := .seq (.optional (.one fun c => c == '+' || c == '-')) digits

/-- Where no identifier goes on. -/
def wordEnd : Pattern := .boundary Text.isIdentifier

/-- A semicolon and the rest of its line. -/
def comment : Pattern := .seq (.one (· == ';')) (.many (· != '\n'))

/-- `#t` or `#f`, where no identifier goes on. -/
def boolean : Pattern :=
  .seq (.one (· == '#')) (.seq (.one fun c => c == 't' || c == 'f') wordEnd)

/-- Digits before and behind a point, where no identifier goes on. -/
def real : Pattern := .seq signedDigits (.seq (.one (· == '.')) (.seq digits wordEnd))

/-- Digits where no identifier goes on. -/
def integer : Pattern := .seq signedDigits wordEnd

/-- Identifier characters, one or more. -/
def ident : Pattern := .seq (.one Text.isIdentifier) (.many Text.isIdentifier)

end Pattern

/-- A choice of the lexical grammar. -/
structure Choice where
  element : Element
  /-- What the matched characters spell, unless they are a comment. -/
  spelling? : List Char → Option Spelling

namespace Choice

/-- What the alternative takes at the beginning of the text `cs`, behind the character `before?`:
the number of characters, and what they spell. -/
def match? (before? : Option Char) (cs : List Char) (a : Choice) :
    Option (Nat × Option Spelling) :=
  (a.element.length? before? cs).map fun n => (n, a.spelling? (cs.take n))

/-- The bracket or point, wherever it stands. -/
def mark (k : Keyword) : Choice := ⟨.literal k.text.toList, fun _ => some (.keyword k)⟩

/-- The reserved word, where it is no part of a longer identifier. -/
def word (k : Keyword) : Choice := ⟨.word k.text.toList, fun _ => some (.keyword k)⟩

def comment : Choice := ⟨.pattern .comment, fun _ => none⟩

def boolean : Choice :=
  ⟨.pattern .boolean, fun text => some (.boolean (text == ['#', 't']))⟩

def real : Choice := ⟨.pattern .real, fun text => some (.ofReal text)⟩

def integer : Choice := ⟨.pattern .integer, fun text => some (.integer text)⟩

def ident : Choice := ⟨.pattern .ident, fun text => some (.ident text)⟩

/-- The lexical grammar. Keywords and numbers come before identifiers, and numbers with a point
before integers and before the point. -/
def all : List Choice :=
  [comment, mark .opening, mark .closing] ++ Keyword.words.map word ++
    [boolean, real, integer, mark .point, ident]

end Choice

/-! ## The scan -/

/-- Something recognised at an offset. -/
inductive Scanned where
  | token (start : Nat) (spelling : Spelling)
  /-- A character that belongs to no token and is not blank. -/
  | stray (start : Nat) (char : Char)
deriving DecidableEq

namespace Scanned

/-- What the first alternative that matches takes. -/
def choose? (before? : Option Char) (cs : List Char) : Option (Nat × Option Spelling) :=
  Choice.all.findSome? (·.match? before? cs)

/-- A character that belongs to no match. -/
def gap (start : Nat) (c : Char) : List Scanned :=
  if Text.isBlank c then [] else [stray start c]

/-- What is recognised in a text that begins at the offset `start`, behind the character
`before?`. The first `taken` characters belong to a match that was made before. -/
def scan : (before? : Option Char) → (start taken : Nat) → List Char → List Scanned
  | _, _, _, [] => []
  | _, start, taken + 1, c :: cs => scan (some c) (start + 1) taken cs
  | before?, start, 0, c :: cs =>
      match choose? before? (c :: cs) with
      | some (n + 1, spelling?) =>
          (spelling?.map (token start)).toList ++ scan (some c) (start + 1) n cs
      | _ => gap start c ++ scan (some c) (start + 1) 0 cs

/-- What is recognised in a text. -/
def ofText (text : List Char) : List Scanned := scan none 0 0 text

end Scanned

end SchemeFront
