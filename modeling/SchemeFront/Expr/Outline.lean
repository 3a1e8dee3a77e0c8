import SchemeFront.Expr.Node
import SchemeFront.Text.Lines
import SchemeFront.Text.Quoted

set_option autoImplicit false

/-! # Outlines

An outline shows a program with one line a node, indented by depth, and two further lines a body,
one that begins it and one before its tail expression. If the source is at hand, each node's line
ends with an excerpt of it, quoted and so on one line.
-/

namespace SchemeFront

/-! ## The line of a node -/

/-- What is said about a node. -/
def Node.caption : Node → String
  | identifier i => "Identifier(" ++ i.name ++ ")"
  | expr (.atom _ a) => "Primitive(" ++ a.kind ++ " " ++ a.text ++ ")"
  | expr (.procedure _ variadic _ _) => if variadic then "Procedure(variadic)" else "Procedure"
  | expr (.conditional _ _ _ alter) =>
      if alter.isSome then "Conditional" else "Conditional(no alternative)"
  | n => n.kind

/-- What is said about the node can be written. -/
def Node.isWritable : Node → Bool
  | expr (.atom _ a) => a.isWritable
  | _ => true

/-- The longest excerpt that is shown whole. -/
def longestExcerpt : Nat := 40

/-- A text cut down to one line of at most `longestExcerpt` characters. -/
def shorten (text : List Char) : List Char :=
  if text.contains '\n' || decide (longestExcerpt < text.length) then
    (text.takeWhile (· != '\n')).take (longestExcerpt - 3) ++ ['.', '.', '.']
  else text

/-- The line of a node, with an excerpt if there is a source. -/
def Node.entry (src : Option Source) (n : Node) : String :=
  match src with
  | none => n.caption
  | some src => n.caption ++ "  " ++ String.ofList (Text.quoted (shorten (src.excerpt n.span)))

/-- The line of a node at the given depth. -/
def Node.line (src : Option Source) (level : Nat) (n : Node) : String :=
  Text.indented level (n.entry src)

/-! ## The outline -/

mutual

/-- The lines of an expression. -/
def Expr.outline (src : Option Source) (level : Nat) : Expr → List String
  | .call s f args =>
      Node.line src level (.expr (.call s f args)) :: Expr.outline src (level + 1) f
        ++ Expr.outlineAll src (level + 1) args
  | .atom s a => [Node.line src level (.expr (.atom s a))]
  | .procedure s v params body =>
      Node.line src level (.expr (.procedure s v params body))
        :: params.map (fun i => Node.line src (level + 1) (.identifier i))
        ++ Body.outline src (level + 1) body
  | .conditional s t c none =>
      Node.line src level (.expr (.conditional s t c none)) :: Expr.outline src (level + 1) t
        ++ Expr.outline src (level + 1) c
  | .conditional s t c (some a) =>
      Node.line src level (.expr (.conditional s t c (some a))) :: Expr.outline src (level + 1) t
        ++ Expr.outline src (level + 1) c ++ Expr.outline src (level + 1) a
  | .assignment s i e =>
      Node.line src level (.expr (.assignment s i e)) :: Node.line src (level + 1) (.identifier i)
        :: Expr.outline src (level + 1) e
  | .error s => [Node.line src level (.expr (.error s))]

/-- The lines of a list of expressions. -/
def Expr.outlineAll (src : Option Source) (level : Nat) : List Expr → List String
  | [] => []
  | e :: es => Expr.outline src level e ++ Expr.outlineAll src level es

/-- The lines of a definition. -/
def Definition.outline (src : Option Source) (level : Nat) : Definition → List String
  | ⟨s, i, e⟩ =>
      Node.line src level (.definition ⟨s, i, e⟩) :: Node.line src (level + 1) (.identifier i)
        :: Expr.outline src (level + 1) e

/-- The lines of a list of definitions. -/
def Definition.outlineAll (src : Option Source) (level : Nat) : List Definition → List String
  | [] => []
  | d :: ds => Definition.outline src level d ++ Definition.outlineAll src level ds

/-- The lines of a body. -/
def Body.outline (src : Option Source) (level : Nat) : Body → List String
  | ⟨ds, es, e⟩ =>
      Text.indented level "ProcedureBody" :: Definition.outlineAll src (level + 1) ds
        ++ Expr.outlineAll src (level + 1) es
        ++ Text.indented (level + 1) "tail:" :: Expr.outline src (level + 2) e

end

/-- A program as text. -/
def Body.text (src : Option Source) (program : Program) : String :=
  Text.unlines (program.outline src 0)

/-- A program as text, if it can be written. -/
def Body.write (src : Option Source) (program : Program) : Except Fault String :=
  writeIf (program.nodes.all Node.isWritable) (program.text src)

end SchemeFront
