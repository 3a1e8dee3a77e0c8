import SchemeFront.Text.Lines

set_option autoImplicit false

/-! # Events

An `Event` records that a stage has done something. Stages give their events beside their
results, also where they end in a fault; whether anybody sees them is decided outside.
-/

namespace SchemeFront

/-- What a stage has done. -/
inductive Event where
  /-- The text named `path` was split into tokens. -/
  | lexed (path : String) (tokens errors : Nat)
  /-- A transformer is about to be applied. -/
  | applying (transformer : String)
  /-- The transformers that an expansion registered were added to the registry. -/
  | registered (names : List String)
  /-- The text named `path` was parsed. -/
  | parsed (path : String) (definitions expressions errors : Nat)
deriving DecidableEq

namespace Event

/-- An event as a line of a log. -/
def line : Event → String
  | lexed path tokens errors => s!"[lexer] {path}: {tokens} tokens, {errors} errors"
  | applying transformer => "[expander] applying " ++ transformer
  | registered names => "[parser] registered transformers: " ++ Text.joined ", " names
  | parsed path definitions expressions errors =>
      s!"[parser] {path}: {definitions} definitions, {expressions} expressions, "
        ++ s!"{errors} errors"

end Event

end SchemeFront
