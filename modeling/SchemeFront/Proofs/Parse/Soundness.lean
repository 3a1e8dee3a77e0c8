import SchemeFront.Expr.Node
import SchemeFront.Proofs.Parse.Contract

set_option autoImplicit false

/-! # Programs without findings

Every error in a program stands for something that was recorded. So what a parser gives is without
errors unless it found something: this is a lenient contract (`Contract.sound`) of parsers that
begin anywhere, whichever tokens they read, however these lie and however deeply forms may be
nested.
-/

namespace SchemeFront

/-! ## Errors in programs -/

/-- Some form of an expression could not be parsed. -/
def Expr.hasErrors (e : Expr) : Bool := e.nodes.any Node.isErrorExpr

/-- Some form of a definition could not be parsed. -/
def Definition.hasErrors (d : Definition) : Bool := d.nodes.any Node.isErrorExpr

theorem Expr.any_nodesAll (es : List Expr) :
    (Expr.nodesAll es).any Node.isErrorExpr = es.any Expr.hasErrors := by
  induction es with
  | nil => rfl
  | cons e es ih => rw [nodesAll, List.any_append, ih, List.any_cons, hasErrors]

theorem Definition.any_nodesAll (ds : List Definition) :
    (Definition.nodesAll ds).any Node.isErrorExpr = ds.any Definition.hasErrors := by
  induction ds with
  | nil => rfl
  | cons d ds ih => rw [nodesAll, List.any_append, ih, List.any_cons, hasErrors]

@[simp] theorem Expr.hasErrors_atom (s : Span) (a : Atom) :
    (Expr.atom s a).hasErrors = false := rfl

@[simp] theorem Expr.hasErrors_call (s : Span) (f : Expr) (args : List Expr) :
    (Expr.call s f args).hasErrors = (f.hasErrors || args.any Expr.hasErrors) := by
  simp [hasErrors, nodes, any_nodesAll, Node.isErrorExpr, isError]

@[simp] theorem Expr.hasErrors_procedure (s : Span) (variadic : Bool)
    (params : List Identifier) (b : Body) :
    (Expr.procedure s variadic params b).hasErrors = b.hasErrors := by
  simp [hasErrors, Body.hasErrors, nodes, Node.isErrorExpr, isError, Function.comp_def]

@[simp] theorem Expr.hasErrors_conditional (s : Span) (test conseq : Expr)
    (alter : Option Expr) : (Expr.conditional s test conseq alter).hasErrors =
      (test.hasErrors || conseq.hasErrors || alter.any Expr.hasErrors) := by
  cases alter <;> simp [hasErrors, nodes, Node.isErrorExpr, isError, Bool.or_assoc]

@[simp] theorem Expr.hasErrors_assignment (s : Span) (target : Identifier) (value : Expr) :
    (Expr.assignment s target value).hasErrors = value.hasErrors := by
  simp [hasErrors, nodes, Node.isErrorExpr, isError]

@[simp] theorem Definition.hasErrors_mk (s : Span) (name : Identifier) (value : Expr) :
    (Definition.mk s name value).hasErrors = value.hasErrors := by
  simp [hasErrors, Expr.hasErrors, nodes, Node.isErrorExpr]

@[simp] theorem Body.hasErrors_mk (defs : List Definition) (init : List Expr) (last : Expr) :
    (Body.mk defs init last).hasErrors =
      (defs.any Definition.hasErrors || init.any Expr.hasErrors || last.hasErrors) := by
  simp [hasErrors, Expr.hasErrors, nodes, Definition.any_nodesAll, Expr.any_nodesAll,
    Bool.or_assoc]

/-- A body is without errors if all of its parts are. -/
theorem Body.hasErrors_of_parts {b : Body} (hdefs : ∀ d ∈ b.defs, d.hasErrors = false)
    (hexprs : ∀ e ∈ b.exprs, e.hasErrors = false) : b.hasErrors = false := by
  obtain ⟨ds, es, e⟩ := b
  rw [exprs, List.forall_mem_append, List.forall_mem_singleton] at hexprs
  have hds : ds.any Definition.hasErrors = false :=
    List.any_eq_false.2 fun d hd => by simp [hdefs d hd]
  have hes : es.any Expr.hasErrors = false :=
    List.any_eq_false.2 fun e he => by simp [hexprs.1 e he]
  rw [hasErrors_mk, hds, hes, hexprs.2]
  rfl

/-! ## Parsers that find nothing -/

/-- What is given is without errors, unless something was found. -/
def Contract.sound (ctx : Context) : Contract ctx where
  place _ := True
  lenient := True
  name _ := True
  expr _ e := e.hasErrors = false
  definition _ d := d.hasErrors = false
  moveTo _ _ := trivial
  enter _ _ _ := trivial
  name_of_mem _ _ _ _ := trivial
  atom _ _ _ _ := Expr.hasErrors_atom _ _
  error _ hstrict _ := (hstrict trivial).elim
  conditional {forms counted test conseq alter} htest hconseq halter s := by
    have halter : alter.any Expr.hasErrors = false := by
      cases alter with
      | none => rfl
      | some a => exact halter a rfl
    rw [Expr.hasErrors_conditional, htest, hconseq, halter]
    rfl
  procedure _ _ hdefs hexprs _ := by
    rw [Expr.hasErrors_procedure]
    exact Body.hasErrors_of_parts hdefs hexprs
  assignment _ hvalue _ := by rwa [Expr.hasErrors_assignment]
  call {forms counted operator args} hoperator hargs s := by
    have hargs : args.any Expr.hasErrors = false :=
      List.any_eq_false.2 fun e he => by simp [hargs e he]
    rw [Expr.hasErrors_call, hoperator, hargs]
    rfl
  namedValue _ hvalue _ := by rwa [Definition.hasErrors_mk]
  namedProcedure _ _ hdefs hexprs _ := by
    rw [Definition.hasErrors_mk, Expr.hasErrors_procedure]
    exact Body.hasErrors_of_parts hdefs hexprs

/-- **No finding, no error**: where the parser finds nothing to be wrong, all forms of the program
were parsed, whatever the tokens are and however deeply they may be nested. -/
theorem Body.hasErrors_of_ofTokens {limit : Int} {src : Source} {ts : List Token} {p : Program}
    (h : Body.ofTokens limit src ts = .ok (p, [])) : p.hasErrors = false := by
  obtain ⟨-, hnotes⟩ | hbody :=
    (Contract.sound (Context.ofSource limit src)).of_ofTokens trivial h
  · exact (hnotes rfl).elim
  · exact Body.hasErrors_of_parts hbody.1 hbody.2

end SchemeFront
