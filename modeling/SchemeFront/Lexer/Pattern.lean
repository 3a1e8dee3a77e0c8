import SchemeFront.Text.CharClass

set_option autoImplicit false

/-! # Patterns and elements

A `Pattern` is matched at the beginning of a text. What it allows is tried in a fixed order, as
many characters as possible first, and where the rest of the pattern does not match, the next
possibility is tried (`Pattern.take`). The first match counts, and it need not be the longest one.

An `Element` of the lexical grammar is a fixed text, a reserved word, or a pattern. Whether a
reserved word is matched depends on the character before it, too.
-/

namespace SchemeFront

/-! ## Patterns -/

/-- What a part of a text may be. -/
inductive Pattern where
  /-- A character of a class. -/
  | one (which : Char → Bool)
  /-- Characters of a class, as many as possible first, or none. -/
  | many (which : Char → Bool)
  /-- What `p` allows first, or nothing. -/
  | optional (p : Pattern)
  /-- What `p` allows, and behind it what `q` allows. -/
  | seq (p q : Pattern)
  /-- Nothing, where no character of the class follows. -/
  | boundary (which : Char → Bool)

namespace Pattern

/-- Characters of a class, as many as leave a text that `next` takes something of. -/
def takeMany (which : Char → Bool) (next : List Char → Option Nat) : List Char → Option Nat
  | [] => next []
  | c :: cs =>
      if which c then ((takeMany which next cs).map (· + 1)).or (next (c :: cs))
      else next (c :: cs)

/-- The number of characters that the pattern takes off a text together with `next`, which goes on
with what the pattern leaves. -/
def take : Pattern → (next : List Char → Option Nat) → List Char → Option Nat
  | one _, _, [] => none
  | one which, next, c :: cs => if which c then (next cs).map (· + 1) else none
  | many which, next, cs => takeMany which next cs
  | optional p, next, cs => (p.take next cs).or (next cs)
  | seq p q, next, cs => p.take (q.take next) cs
  | boundary which, next, cs => if cs.head?.any which then none else next cs

/-- The length of the first match at the beginning of a text. -/
def length? (p : Pattern) (cs : List Char) : Option Nat := p.take (fun _ => some 0) cs

end Pattern

/-! ## Elements -/

/-- An element of the lexical grammar. -/
inductive Element where
  | literal (text : List Char)
  /-- A text with no identifier character right before or behind it. -/
  | word (text : List Char)
  | pattern (p : Pattern)

/-- The number of characters that the element matches at the beginning of the text `cs`;
`before?` is the character in front of the text. -/
def Element.length? (before? : Option Char) (cs : List Char) : Element → Option Nat
  | literal text => if text.isPrefixOf cs then some text.length else none
  | word text =>
      if text.isPrefixOf cs && !before?.any Text.isIdentifier &&
          !(cs.drop text.length).head?.any Text.isIdentifier then
        some text.length
      else none
  | pattern p => p.length? cs

end SchemeFront
