import SchemeFront.Token

set_option autoImplicit false

/-! # Programs

A program is a `Body`: definitions, then expressions, the last of which gives its value. A
`Definition` gives a name to the value of an expression, and the bodies of procedures are bodies
again, so the three types are defined together. An expression that could not be parsed is an
`Expr.error` in the place of its form.
-/

namespace SchemeFront

/-- A name where it is written. -/
structure Identifier where
  name : String
  span : Span
deriving DecidableEq

mutual

/-- An expression. -/
inductive Expr where
  /-- The call of a procedure. -/
  | call (span : Span) (operator : Expr) (args : List Expr)
  /-- A literal, or the use of a variable. -/
  | atom (span : Span) (value : Atom)
  /-- A procedure. A variadic one has a single parameter for the list of all arguments. -/
  | procedure (span : Span) (variadic : Bool) (params : List Identifier) (body : Body)
  /-- A choice between two expressions, the second of which may be absent. -/
  | conditional (span : Span) (test conseq : Expr) (alter : Option Expr)
  /-- The assignment of a new value to a variable. -/
  | assignment (span : Span) (target : Identifier) (value : Expr)
  /-- A form that could not be parsed. -/
  | error (span : Span)

/-- The definition of a name. -/
structure Definition where
  span : Span
  name : Identifier
  value : Expr

/-- Definitions, then expressions; `last` is the one in tail position. -/
structure Body where
  defs : List Definition
  init : List Expr
  last : Expr

end

/-- A program is a body at top level. -/
abbrev Program := Body

namespace Expr

/-- Where an expression stands. -/
def span : Expr → Span
  | call s _ _ => s
  | atom s _ => s
  | procedure s _ _ _ => s
  | conditional s _ _ _ => s
  | assignment s _ _ => s
  | error s => s

/-- The expression stands for a form that could not be parsed. -/
def isError : Expr → Bool
  | error _ => true
  | _ => false

end Expr

/-- The expressions of a body, that in tail position last. -/
def Body.exprs (b : Body) : List Expr := b.init ++ [b.last]

/-! ## Equality up to spans -/

/-- Two identifiers have the same name. -/
def Identifier.same (i j : Identifier) : Bool := i.name == j.name

/-- Two lists of identifiers have the same names. -/
def Identifier.sameAll (is js : List Identifier) : Bool := is.map name == js.map name

mutual

/-- Two expressions say the same, wherever they stand. -/
def Expr.same : Expr → Expr → Bool
  | .call _ f as, .call _ g bs => Expr.same f g && Expr.sameAll as bs
  | .atom _ a, .atom _ b => a.bare == b.bare
  | .procedure _ v ps b, .procedure _ w qs c =>
      v == w && Identifier.sameAll ps qs && Body.same b c
  | .conditional _ t c a, .conditional _ u d b =>
      Expr.same t u && Expr.same c d && Expr.sameOption a b
  | .assignment _ i e, .assignment _ j f => i.same j && Expr.same e f
  | .error _, .error _ => true
  | _, _ => false
termination_by structural x => x

/-- Two optional expressions say the same. -/
def Expr.sameOption : Option Expr → Option Expr → Bool
  | none, none => true
  | some e, some f => Expr.same e f
  | _, _ => false
termination_by structural x => x

/-- Two lists of expressions say the same. -/
def Expr.sameAll : List Expr → List Expr → Bool
  | [], [] => true
  | e :: es, f :: fs => Expr.same e f && Expr.sameAll es fs
  | _, _ => false
termination_by structural x => x

/-- Two definitions say the same. -/
def Definition.same : Definition → Definition → Bool
  | ⟨_, i, e⟩, ⟨_, j, f⟩ => i.same j && Expr.same e f
termination_by structural x => x

/-- Two lists of definitions say the same. -/
def Definition.sameAll : List Definition → List Definition → Bool
  | [], [] => true
  | d :: ds, e :: es => Definition.same d e && Definition.sameAll ds es
  | _, _ => false
termination_by structural x => x

/-- Two bodies say the same. -/
def Body.same : Body → Body → Bool
  | ⟨ds, es, e⟩, ⟨ds', es', e'⟩ =>
      Definition.sameAll ds ds' && Expr.sameAll es es' && Expr.same e e'
termination_by structural x => x

end

end SchemeFront
