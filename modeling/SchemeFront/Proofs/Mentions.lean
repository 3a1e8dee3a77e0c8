import SchemeFront.Diagnostic
import SchemeFront.Expr.Node

set_option autoImplicit false

/-! # What is mentioned

Findings mention the token that was met, and programs mention literals and variables. `Mentions P`
says that `P` holds of all that is mentioned, so that a property of the tokens of the input can be
followed through the stages.
-/

namespace SchemeFront

variable {P : Lexeme → Prop}

/-! ## Findings -/

/-- If the finding mentions a token, `P` holds of what the token says. -/
def Diagnostic.Mentions (P : Lexeme → Prop) (d : Diagnostic) : Prop :=
  ∀ t, d.found? = some (.token t) → P t.lexeme

theorem Diagnostic.mentions_of_found?_eq_none {d : Diagnostic} (h : d.found? = none) :
    d.Mentions P := by
  intro t ht
  simp [h] at ht

@[simp] theorem Diagnostic.mentions_within {d : Diagnostic} {construct : String} :
    (d.within construct).Mentions P ↔ d.Mentions P := Iff.rfl

/-! ## Programs -/

/-- If the node is a literal or a variable, `P` holds of it. -/
def Node.Mentions (P : Lexeme → Prop) : Node → Prop
  | expr (.atom _ a) => P (.atom a)
  | _ => True

/-- `P` holds of the literals and variables in the expression. -/
def Expr.Mentions (P : Lexeme → Prop) (e : Expr) : Prop := ∀ n ∈ e.nodes, n.Mentions P

/-- `P` holds of the literals and variables in the definition. -/
def Definition.Mentions (P : Lexeme → Prop) (d : Definition) : Prop := ∀ n ∈ d.nodes, n.Mentions P

/-- `P` holds of the literals and variables in the body. -/
def Body.Mentions (P : Lexeme → Prop) (b : Body) : Prop := ∀ n ∈ b.nodes, n.Mentions P

theorem Expr.nodesAll_eq (es : List Expr) : Expr.nodesAll es = es.flatMap Expr.nodes := by
  induction es with
  | nil => rfl
  | cons e es ih => rw [Expr.nodesAll, List.flatMap_cons, ih]

theorem Definition.nodesAll_eq (ds : List Definition) :
    Definition.nodesAll ds = ds.flatMap Definition.nodes := by
  induction ds with
  | nil => rfl
  | cons d ds ih => rw [Definition.nodesAll, List.flatMap_cons, ih]

theorem Expr.mem_nodesAll {n : Node} {es : List Expr} :
    n ∈ Expr.nodesAll es ↔ ∃ e ∈ es, n ∈ e.nodes := by
  rw [Expr.nodesAll_eq, List.mem_flatMap]

theorem Definition.mem_nodesAll {n : Node} {ds : List Definition} :
    n ∈ Definition.nodesAll ds ↔ ∃ d ∈ ds, n ∈ d.nodes := by
  rw [Definition.nodesAll_eq, List.mem_flatMap]

theorem Expr.mentions_atom {s : Span} {a : Atom} (h : P (.atom a)) :
    (Expr.atom s a).Mentions P := by
  simpa [Mentions, Expr.nodes, Node.Mentions] using h

theorem Expr.mentions_error (s : Span) : (Expr.error s).Mentions P := by
  simp [Mentions, Expr.nodes, Node.Mentions]

theorem Expr.mentions_call {s : Span} {f : Expr} {args : List Expr} (hf : f.Mentions P)
    (hargs : ∀ e ∈ args, e.Mentions P) : (Expr.call s f args).Mentions P := by
  intro n hn
  simp only [Expr.nodes, List.cons_append, List.mem_cons, List.mem_append,
    Expr.mem_nodesAll] at hn
  rcases hn with rfl | hn | ⟨e, he, hn⟩
  · trivial
  · exact hf n hn
  · exact hargs e he n hn

theorem Expr.mentions_procedure {s : Span} {variadic : Bool} {params : List Identifier}
    {body : Body} (hbody : body.Mentions P) :
    (Expr.procedure s variadic params body).Mentions P := by
  intro n hn
  simp only [Expr.nodes, List.cons_append, List.mem_cons, List.mem_append, List.mem_map] at hn
  rcases hn with rfl | ⟨i, -, rfl⟩ | hn
  · trivial
  · trivial
  · exact hbody n hn

theorem Expr.mentions_conditional {s : Span} {test conseq : Expr} {alter : Option Expr}
    (htest : test.Mentions P) (hconseq : conseq.Mentions P)
    (halter : ∀ e ∈ alter, e.Mentions P) :
    (Expr.conditional s test conseq alter).Mentions P := by
  intro n hn
  cases alter with
  | none =>
      simp only [Expr.nodes, List.cons_append, List.mem_cons, List.mem_append] at hn
      rcases hn with rfl | hn | hn
      · trivial
      · exact htest n hn
      · exact hconseq n hn
  | some alter =>
      simp only [Expr.nodes, List.cons_append, List.mem_cons, List.mem_append] at hn
      rcases hn with rfl | (hn | hn) | hn
      · trivial
      · exact htest n hn
      · exact hconseq n hn
      · exact halter alter rfl n hn

theorem Expr.mentions_assignment {s : Span} {target : Identifier} {value : Expr}
    (hvalue : value.Mentions P) : (Expr.assignment s target value).Mentions P := by
  intro n hn
  simp only [Expr.nodes, List.mem_cons] at hn
  rcases hn with rfl | rfl | hn
  · trivial
  · trivial
  · exact hvalue n hn

theorem Definition.mentions_mk {s : Span} {name : Identifier} {value : Expr}
    (hvalue : value.Mentions P) : (Definition.mk s name value).Mentions P := by
  intro n hn
  simp only [Definition.nodes, List.mem_cons] at hn
  rcases hn with rfl | rfl | hn
  · trivial
  · trivial
  · exact hvalue n hn

theorem Body.mentions_mk {defs : List Definition} {init : List Expr} {last : Expr}
    (hdefs : ∀ d ∈ defs, d.Mentions P) (hinit : ∀ e ∈ init, e.Mentions P)
    (hlast : last.Mentions P) : (Body.mk defs init last).Mentions P := by
  intro n hn
  simp only [Body.nodes, List.mem_append, Expr.mem_nodesAll, Definition.mem_nodesAll] at hn
  rcases hn with (⟨d, hd, hn⟩ | ⟨e, he, hn⟩) | hn
  · exact hdefs d hd n hn
  · exact hinit e he n hn
  · exact hlast n hn

end SchemeFront
