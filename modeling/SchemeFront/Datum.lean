import SchemeFront.Token

set_option autoImplicit false

/-! # Data

A `Datum` is a token other than a bracket, a bracketed list of data, or a malformed region, which
keeps its tokens as they are. `Datum.flatten` writes a datum back as tokens, deriving the
brackets of a list from the ends of its span; `Datum.subdata` lists all data within a datum.
-/

namespace SchemeFront

/-- A tree of brackets. -/
inductive Datum where
  | leaf (lexeme : Lexeme) (span : Span)
  | list (children : List Datum) (span : Span)
  | broken (tokens : List Token) (span : Span)

namespace Datum

/-- Where a datum stands. -/
def span : Datum → Span
  | leaf _ s => s
  | list _ s => s
  | broken _ s => s

/-- The word for the kind of a datum. -/
def kind : Datum → String
  | leaf l _ => l.kind
  | list _ _ => "LIST"
  | broken _ _ => "ERROR"

/-- How a datum is displayed; a list or a malformed region without what is in it. -/
def text : Datum → String
  | leaf l _ => l.text
  | list _ _ => "( ... )"
  | broken _ _ => "<error>"

/-- The datum can be displayed. -/
def isWritable : Datum → Bool
  | leaf l _ => l.isWritable
  | _ => true

/-- The name, if the datum is an identifier. -/
def name? : Datum → Option String
  | leaf l _ => l.name?
  | _ => none

/-- The datum is a list whose first element is the identifier `name`. -/
def isHeadedBy (name : String) : Datum → Bool
  | list (head :: _) _ => head.name? == some name
  | _ => false

/-! ## Flattening -/

mutual

/-- The tokens of a datum. -/
def flatten : Datum → List Token
  | leaf l s => [⟨l, s⟩]
  | list ds s =>
      ⟨.keyword .opening, s.first⟩ :: flattenAll ds ++ [⟨.keyword .closing, s.final⟩]
  | broken ts _ => ts

/-- The tokens of a list of data. -/
def flattenAll : List Datum → List Token
  | [] => []
  | d :: ds => flatten d ++ flattenAll ds

end

/-! ## Walking -/

mutual

/-- A datum and all data within it, each before its parts. -/
def subdata : Datum → List Datum
  | leaf l s => [leaf l s]
  | list ds s => list ds s :: subdataAll ds
  | broken ts s => [broken ts s]

/-- The data of a list and all data within them. -/
def subdataAll : List Datum → List Datum
  | [] => []
  | d :: ds => subdata d ++ subdataAll ds

end

/-! ## Equality up to spans -/

mutual

/-- Two data say the same, wherever they stand. -/
def same : Datum → Datum → Bool
  | leaf l _, leaf m _ => l.bare == m.bare
  | list ds _, list es _ => sameAll ds es
  | broken ts _, broken us _ => Token.sameAll ts us
  | _, _ => false

/-- Two lists of data say the same. -/
def sameAll : List Datum → List Datum → Bool
  | [], [] => true
  | d :: ds, e :: es => same d e && sameAll ds es
  | _, _ => false

end

end Datum

end SchemeFront
