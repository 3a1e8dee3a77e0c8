import SchemeFront.Lexer.Scan
import SchemeFront.Report

set_option autoImplicit false

/-! # The lexer

`Lexed.ofSource` gives the tokens of a source and a finding for every stray character. Only a
numeral with too many digits is in its way.
-/

namespace SchemeFront

/-- The tokens of a text, and the findings about characters that belong to none. -/
structure Lexed where
  tokens : List Token := []
  diagnostics : List Diagnostic := []
deriving DecidableEq

namespace Lexed

/-- The finding about a stray character. -/
def strayChar (path : String) (start : Nat) (c : Char) : Diagnostic :=
  Diagnostic.unexpected (Span.ofLength path start 1) (some (.text (String.ofList [c])))

/-- The tokens that were recognised, in order. The first number that cannot be read is a fault. -/
def ofScanned (path : String) : List Scanned → Except Fault Lexed
  | [] => .ok {}
  | .token start spelling :: more => do
      let lexeme ← spelling.lexeme
      let l ← ofScanned path more
      return { l with
        tokens := ⟨lexeme, Span.ofLength path start spelling.length⟩ :: l.tokens }
  | .stray start c :: more => do
      let l ← ofScanned path more
      return { l with diagnostics := strayChar path start c :: l.diagnostics }

/-- The tokens of a source. -/
def ofSource (src : Source) : Except Fault Lexed :=
  ofScanned src.path (Scanned.ofText src.text)

/-- The report on the findings, if there are any. -/
def report? (l : Lexed) (src : Source) : Option Report := Report.of? .lexical l.diagnostics src

end Lexed

end SchemeFront
