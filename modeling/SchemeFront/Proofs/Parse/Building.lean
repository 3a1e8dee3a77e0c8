import SchemeFront.Proofs.Parse.Contract
import SchemeFront.Proofs.Standing

set_option autoImplicit false

/-! # What programs are built of

The names and literals of a program are tokens that were read, and parameters are distinct, one of
them if the procedure is variadic (`Node.IsBuilt`). This holds of all nodes of a program, whatever
is wrong with the tokens and in whatever order they stand (`Body.isBuilt_of_ofTokens`): it is a
contract (`Contract.building`) of parsers that begin at tokens which say what they should.
-/

namespace SchemeFront

variable {P : Lexeme → Prop}

/-! ## Nodes -/

/-- `P` holds of the name or literal that the node is. If it is a procedure, no two parameters have
the same name, and a variadic one has a single parameter. -/
def Node.IsBuilt (P : Lexeme → Prop) : Node → Prop
  | identifier i => P (.atom (.ident i.name))
  | expr (.atom _ a) => P (.atom a)
  | expr (.procedure _ variadic params _) =>
      Identifier.Distinct params ∧ (variadic = true → params.length = 1)
  | _ => True

/-- All nodes from the node downwards are built as they should be. -/
def Node.AllBuilt (P : Lexeme → Prop) (n : Node) : Prop := ∀ m ∈ n.nodes, m.IsBuilt P

theorem Node.allBuilt_iff {n : Node} :
    n.AllBuilt P ↔ n.IsBuilt P ∧ ∀ c ∈ n.children, c.AllBuilt P := by
  rw [AllBuilt, nodes_eq, List.forall_mem_cons, List.forall_mem_flatMap]
  rfl

/-- All nodes of the body are built as they should be. -/
def Body.IsBuilt (P : Lexeme → Prop) (b : Body) : Prop := ∀ m ∈ b.nodes, m.IsBuilt P

theorem Body.isBuilt_iff {b : Body} : b.IsBuilt P ↔ ∀ c ∈ b.children, c.AllBuilt P := by
  rw [IsBuilt, nodes_eq, List.forall_mem_flatMap]
  rfl

/-- A body is built of its definitions and its expressions. -/
theorem Body.isBuilt_iff_of_parts {b : Body} :
    b.IsBuilt P ↔ (∀ d ∈ b.defs, (Node.definition d).AllBuilt P) ∧
      ∀ e ∈ b.exprs, (Node.expr e).AllBuilt P := by
  simp only [isBuilt_iff, children, exprs, List.forall_mem_append, List.forall_mem_map,
    List.forall_mem_singleton, and_assoc]

theorem Node.allBuilt_error (s : Span) : (expr (.error s)).AllBuilt P :=
  allBuilt_iff.2 ⟨trivial, by simp [children, Expr.children]⟩

theorem Node.allBuilt_identifier {i : Identifier} (h : (identifier i).IsBuilt P) :
    (identifier i).AllBuilt P :=
  allBuilt_iff.2 ⟨h, by simp [children]⟩

/-- A procedure is built of its parameters and its body. -/
theorem Node.allBuilt_procedure {s : Span} {variadic : Bool} {params : List Identifier}
    {body : Body} (hdistinct : Identifier.Distinct params)
    (hnames : ∀ i ∈ params, (identifier i).IsBuilt P) (hone : variadic = true → params.length = 1)
    (hbody : body.IsBuilt P) : (expr (.procedure s variadic params body)).AllBuilt P := by
  refine allBuilt_iff.2 ⟨⟨hdistinct, hone⟩, ?_⟩
  rw [children, Expr.children, List.forall_mem_append, List.forall_mem_map]
  exact ⟨fun i hi => allBuilt_identifier (hnames i hi), Body.isBuilt_iff.1 hbody⟩

/-- A definition is built of its name and its value. -/
theorem Node.allBuilt_definition {s : Span} {name : Identifier} {value : Expr}
    (hname : (identifier name).IsBuilt P) (hvalue : (expr value).AllBuilt P) :
    (definition ⟨s, name, value⟩).AllBuilt P := by
  have hname := allBuilt_identifier hname
  exact allBuilt_iff.2 ⟨trivial, by simpa [children] using ⟨hname, hvalue⟩⟩

/-! ## Parsers that build them -/

/-- From tokens of which `P` holds, all is built as it should be. -/
def Contract.building (P : Lexeme → Prop) (ctx : Context) : Contract ctx where
  place pos := ∀ t ∈ pos.rest, P t.lexeme
  lenient := False
  name i := (Node.identifier i).IsBuilt P
  expr _ e := (Node.expr e).AllBuilt P
  definition _ d := (Node.definition d).AllBuilt P
  moveTo hpos hts t ht := hpos t (hts.subset ht)
  enter hpos hrest _ t ht := hpos t (hrest ▸ List.mem_cons_of_mem _ ht)
  name_of_mem {pos t text} hpos ht hname s := by
    have ht := hpos t ht
    rwa [Token.lexeme_of_name? hname] at ht
  atom {pos t a} hpos ht ha s := by
    have ht := hpos t ht
    rw [ha] at ht
    exact Node.allBuilt_iff.2 ⟨ht, by simp [Node.children, Expr.children]⟩
  error _ _ s := Node.allBuilt_error s
  conditional {forms counted test conseq alter} htest hconseq halter s := by
    refine Node.allBuilt_iff.2 ⟨trivial, ?_⟩
    cases alter with
    | none => simpa [Node.children, Expr.children] using ⟨htest, hconseq⟩
    | some a => simpa [Node.children, Expr.children] using ⟨htest, hconseq, halter a rfl⟩
  procedure hparams hone hdefs hexprs _ :=
    Node.allBuilt_procedure hparams.1 hparams.2 hone (Body.isBuilt_iff_of_parts.2 ⟨hdefs, hexprs⟩)
  assignment htarget hvalue _ := by
    have htarget := Node.allBuilt_identifier htarget
    refine Node.allBuilt_iff.2 ⟨trivial, ?_⟩
    simpa [Node.children, Expr.children] using ⟨htarget, hvalue⟩
  call hoperator hargs _ := by
    refine Node.allBuilt_iff.2 ⟨trivial, ?_⟩
    simpa [Node.children, Expr.children] using ⟨hoperator, hargs⟩
  namedValue hname hvalue _ := Node.allBuilt_definition hname hvalue
  namedProcedure hname hparams hdefs hexprs _ := by
    have hbody := Body.isBuilt_iff_of_parts.2 ⟨hdefs, hexprs⟩
    exact Node.allBuilt_definition hname
      (Node.allBuilt_procedure hparams.1 hparams.2 (by simp) hbody)

/-- **Programs are built of the tokens that were read.** Whatever is wrong with the tokens, what
holds of them holds of all names and literals of the program. Parameters are distinct, and variadic
procedures have one. -/
theorem Body.isBuilt_of_ofTokens {limit : Int} {src : Source} {ts : List Token} {p : Program}
    {notes : List Diagnostic} (hts : ∀ t ∈ ts, P t.lexeme)
    (hp : ofTokens limit src ts = .ok (p, notes)) : p.IsBuilt P := by
  obtain ⟨hlenient, -⟩ | hbody :=
    (Contract.building P (Context.ofSource limit src)).of_ofTokens hts hp
  · exact hlenient.elim
  · exact isBuilt_iff_of_parts.2 hbody

end SchemeFront
