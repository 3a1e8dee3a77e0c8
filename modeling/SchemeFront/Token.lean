import SchemeFront.Decimal
import SchemeFront.Source

set_option autoImplicit false

/-! # Tokens

A token is a `Lexeme` with the `Span` it was written at. A lexeme is a `Keyword` (a bracket, the
point or a reserved word) or an `Atom` (a literal or an identifier). `Lexeme.text` is how a
lexeme is displayed, and `Token.bare` is what two tokens must share to count as equal: spans and
the spelling of a decimal's sign are left out.
-/

namespace SchemeFront

/-! ## Keywords -/

/-- The brackets, the point and the reserved words. -/
inductive Keyword where
  | opening
  | closing
  | point
  | define
  | lambda
  | conditional
  | assign
deriving DecidableEq

namespace Keyword

/-- The spelling of a keyword. -/
def text : Keyword → String
  | opening => "("
  | closing => ")"
  | point => "."
  | define => "define"
  | lambda => "lambda"
  | conditional => "if"
  | assign => "set!"

/-- The keywords that are spelled like identifiers. -/
def words : List Keyword := [define, lambda, conditional, assign]

/-- The reserved word with the given spelling. -/
def ofWord? (word : List Char) : Option Keyword := words.find? fun k => k.text.toList == word

end Keyword

/-! ## Atoms -/

/-- A literal or an identifier. -/
inductive Atom where
  | integer (value : Int)
  | boolean (value : Bool)
  | real (value : Decimal)
  | ident (name : String)
deriving DecidableEq

namespace Atom

/-- The word for the kind of an atom. -/
def kind : Atom → String
  | integer _ => "INTEGER"
  | boolean _ => "BOOL"
  | real _ => "REAL"
  | ident _ => "IDENT"

/-- How an atom is displayed. -/
def text : Atom → String
  | integer n => toString n
  | boolean b => if b then "#t" else "#f"
  | real d => String.ofList d.text
  | ident name => name

/-- The atom holds no number with more digits than can be written. -/
def isWritable : Atom → Bool
  | integer n => decide (n.natAbs < Nat.pow 10 digitLimit)
  | real d => d.isWritable
  | _ => true

/-- The atom without the record of a decimal's written sign. -/
def bare : Atom → Atom
  | real d => real d.bare
  | a => a

/-- The name, if the atom is an identifier. -/
def name? : Atom → Option String
  | ident name => some name
  | _ => none

end Atom

/-! ## Lexemes and tokens -/

/-- What a token says, wherever it stands. -/
inductive Lexeme where
  | keyword (word : Keyword)
  | atom (value : Atom)
deriving DecidableEq

namespace Lexeme

/-- The word for the kind of a lexeme. -/
def kind : Lexeme → String
  | keyword _ => "KEYWORD"
  | atom _ => "PRIMITIVE"

/-- How a lexeme is displayed. -/
def text : Lexeme → String
  | keyword k => k.text
  | atom a => a.text

/-- The lexeme holds no number with more digits than can be written. -/
def isWritable : Lexeme → Bool
  | keyword _ => true
  | atom a => a.isWritable

/-- The lexeme without the record of a decimal's written sign. -/
def bare : Lexeme → Lexeme
  | keyword k => keyword k
  | atom a => atom a.bare

/-- The name, if the lexeme is an identifier. -/
def name? : Lexeme → Option String
  | keyword _ => none
  | atom a => a.name?

end Lexeme

/-- A lexeme where it stands. -/
structure Token where
  lexeme : Lexeme
  span : Span
deriving DecidableEq

namespace Token

/-- What a token says, up to the spelling of a decimal's sign. -/
def bare (t : Token) : Lexeme := t.lexeme.bare

/-- How a token is displayed. -/
def text (t : Token) : String := t.lexeme.text

/-- The token is the keyword `k`. -/
def isKeyword (k : Keyword) (t : Token) : Bool := t.lexeme == .keyword k

/-- The token opens a bracket. -/
def opens (t : Token) : Bool := t.isKeyword .opening

/-- The token closes a bracket. -/
def closes (t : Token) : Bool := t.isKeyword .closing

/-- The name, if the token is an identifier. -/
def name? (t : Token) : Option String := t.lexeme.name?

/-- Two lists of tokens say the same. -/
def sameAll (ts us : List Token) : Bool := ts.map bare == us.map bare

end Token

end SchemeFront
