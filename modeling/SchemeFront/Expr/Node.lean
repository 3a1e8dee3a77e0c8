import SchemeFront.Expr

set_option autoImplicit false

/-! # Nodes

A `Node` is anything of a program that stands somewhere: an expression, a definition or an
identifier; a body is none. `Node.children` gives the nodes right below a node, and
`Body.nodes` all nodes of a body, each before the ones below it.
-/

namespace SchemeFront

/-- A part of a program that has a span. -/
inductive Node where
  | expr (e : Expr)
  | definition (d : Definition)
  | identifier (i : Identifier)

namespace Node

/-- Where a node stands. -/
def span : Node → Span
  | expr e => e.span
  | definition d => d.span
  | identifier i => i.span

/-- The word for the kind of a node. -/
def kind : Node → String
  | expr (.call _ _ _) => "ProcedureCall"
  | expr (.atom _ _) => "PrimitiveExpression"
  | expr (.procedure _ _ _ _) => "Procedure"
  | expr (.conditional _ _ _ _) => "Conditional"
  | expr (.assignment _ _ _) => "Assignment"
  | expr (.error _) => "ErrorExpression"
  | definition _ => "Definition"
  | identifier _ => "Identifier"

end Node

/-! ## Children -/

/-- The nodes right below a body. -/
def Body.children (b : Body) : List Node :=
  b.defs.map .definition ++ b.init.map .expr ++ [.expr b.last]

/-- The nodes right below an expression. Those of the body of a procedure are its own. -/
def Expr.children : Expr → List Node
  | call _ f args => .expr f :: args.map .expr
  | atom _ _ => []
  | procedure _ _ params body => params.map .identifier ++ body.children
  | conditional _ test conseq none => [.expr test, .expr conseq]
  | conditional _ test conseq (some alter) => [.expr test, .expr conseq, .expr alter]
  | assignment _ target value => [.identifier target, .expr value]
  | error _ => []

/-- The nodes right below a node. -/
def Node.children : Node → List Node
  | expr e => e.children
  | definition d => [.identifier d.name, .expr d.value]
  | identifier _ => []

/-! ## Walking -/

mutual

/-- An expression and all nodes below it. -/
def Expr.nodes : Expr → List Node
  | .call s f args => .expr (.call s f args) :: Expr.nodes f ++ Expr.nodesAll args
  | .atom s a => [.expr (.atom s a)]
  | .procedure s v params body =>
      .expr (.procedure s v params body) :: params.map .identifier ++ Body.nodes body
  | .conditional s t c none =>
      .expr (.conditional s t c none) :: Expr.nodes t ++ Expr.nodes c
  | .conditional s t c (some a) =>
      .expr (.conditional s t c (some a)) :: Expr.nodes t ++ Expr.nodes c ++ Expr.nodes a
  | .assignment s i e => .expr (.assignment s i e) :: .identifier i :: Expr.nodes e
  | .error s => [.expr (.error s)]

/-- The nodes of a list of expressions. -/
def Expr.nodesAll : List Expr → List Node
  | [] => []
  | e :: es => Expr.nodes e ++ Expr.nodesAll es

/-- A definition and all nodes below it. -/
def Definition.nodes : Definition → List Node
  | ⟨s, i, e⟩ => .definition ⟨s, i, e⟩ :: .identifier i :: Expr.nodes e

/-- The nodes of a list of definitions. -/
def Definition.nodesAll : List Definition → List Node
  | [] => []
  | d :: ds => Definition.nodes d ++ Definition.nodesAll ds

/-- The nodes of a body. -/
def Body.nodes : Body → List Node
  | ⟨ds, es, e⟩ => Definition.nodesAll ds ++ Expr.nodesAll es ++ Expr.nodes e

end

/-- The node is an expression of the given kind. -/
def Node.isErrorExpr : Node → Bool
  | expr e => e.isError
  | _ => false

/-- Some form of a body could not be parsed. -/
def Body.hasErrors (b : Body) : Bool := b.nodes.any Node.isErrorExpr

end SchemeFront
