import Mathlib.Algebra.GroupWithZero.Nat
import SchemeFront.Expr.Outline
import SchemeFront.Proofs.Standing

set_option autoImplicit false

/-! # Rows of outlines

An outline is a list of lines, each of which belongs to a node or is one of the two further lines
of a body (`Row`); `Body.outline_eq` gives it as the lines of rows, each at its level. The rows of
nodes are the nodes, in the order of the walk and each once (`Body.map_snd_nodeRows`), and there are
as many rows of either further kind as there are bodies (`Body.count_rows`). The nodes right below a
node are at higher levels (`Body.deepens`).
-/

namespace SchemeFront

/-- What a line of an outline belongs to. -/
inductive Row where
  | node (n : Node)
  /-- The beginning of a body. -/
  | body
  /-- What comes before the tail expression of a body. -/
  | tail

namespace Row

/-- What the line says. -/
def entry (src : Option Source) : Row → String
  | node n => n.entry src
  | body => "ProcedureBody"
  | tail => "tail:"

/-- The node, if the row belongs to one. -/
def node? : Row → Option Node
  | node n => some n
  | _ => none

/-- The line of a row at its level. -/
def line (src : Option Source) (r : Nat × Row) : String := Text.indented r.1 (r.2.entry src)

/-- The nodes that rows belong to, with their levels. -/
def nodeRows (rs : List (Nat × Row)) : List (Nat × Node) :=
  rs.filterMap fun r => r.2.node?.map (r.1, ·)

@[simp] theorem nodeRows_nil : nodeRows [] = [] := rfl

@[simp] theorem nodeRows_node (level : Nat) (n : Node) (rs : List (Nat × Row)) :
    nodeRows ((level, node n) :: rs) = (level, n) :: nodeRows rs := rfl

@[simp] theorem nodeRows_body (level : Nat) (rs : List (Nat × Row)) :
    nodeRows ((level, body) :: rs) = nodeRows rs := rfl

@[simp] theorem nodeRows_tail (level : Nat) (rs : List (Nat × Row)) :
    nodeRows ((level, tail) :: rs) = nodeRows rs := rfl

@[simp] theorem nodeRows_append (rs rs' : List (Nat × Row)) :
    nodeRows (rs ++ rs') = nodeRows rs ++ nodeRows rs' := List.filterMap_append

@[simp] theorem nodeRows_flatMap {α : Type} (f : α → List (Nat × Row)) (as : List α) :
    nodeRows (as.flatMap f) = as.flatMap fun a => nodeRows (f a) := List.filterMap_flatMap

end Row

/-! ## Rows of programs -/

mutual

/-- The rows of an expression. -/
def Expr.rows (level : Nat) : Expr → List (Nat × Row)
  | .call s f args =>
      (level, .node (.expr (.call s f args))) :: Expr.rows (level + 1) f
        ++ Expr.rowsAll (level + 1) args
  | .atom s a => [(level, .node (.expr (.atom s a)))]
  | .procedure s v params body =>
      (level, .node (.expr (.procedure s v params body)))
        :: params.map (fun i => (level + 1, .node (.identifier i))) ++ Body.rows (level + 1) body
  | .conditional s t c none =>
      (level, .node (.expr (.conditional s t c none))) :: Expr.rows (level + 1) t
        ++ Expr.rows (level + 1) c
  | .conditional s t c (some a) =>
      (level, .node (.expr (.conditional s t c (some a)))) :: Expr.rows (level + 1) t
        ++ Expr.rows (level + 1) c ++ Expr.rows (level + 1) a
  | .assignment s i e =>
      (level, .node (.expr (.assignment s i e))) :: (level + 1, .node (.identifier i))
        :: Expr.rows (level + 1) e
  | .error s => [(level, .node (.expr (.error s)))]

/-- The rows of a list of expressions. -/
def Expr.rowsAll (level : Nat) : List Expr → List (Nat × Row)
  | [] => []
  | e :: es => Expr.rows level e ++ Expr.rowsAll level es

/-- The rows of a definition. -/
def Definition.rows (level : Nat) : Definition → List (Nat × Row)
  | ⟨s, i, e⟩ =>
      (level, .node (.definition ⟨s, i, e⟩)) :: (level + 1, .node (.identifier i))
        :: Expr.rows (level + 1) e

/-- The rows of a list of definitions. -/
def Definition.rowsAll (level : Nat) : List Definition → List (Nat × Row)
  | [] => []
  | d :: ds => Definition.rows level d ++ Definition.rowsAll level ds

/-- The rows of a body. -/
def Body.rows (level : Nat) : Body → List (Nat × Row)
  | ⟨ds, es, e⟩ =>
      (level, .body) :: Definition.rowsAll (level + 1) ds ++ Expr.rowsAll (level + 1) es
        ++ (level + 1, .tail) :: Expr.rows (level + 2) e

end

mutual

theorem Expr.outline_eq (src : Option Source) (level : Nat) (e : Expr) :
    e.outline src level = (e.rows level).map (Row.line src) := by
  match e with
  | .call s f args =>
      simp [Expr.outline, Expr.rows, Expr.outline_eq src _ f, Expr.outlineAll_eq src _ args,
        Row.line, Row.entry, Node.line]
  | .atom s a => rfl
  | .procedure s v params body =>
      simp [Expr.outline, Expr.rows, Body.outline_eq src _ body, Row.line, Row.entry, Node.line,
        Function.comp_def]
  | .conditional s t c none =>
      simp [Expr.outline, Expr.rows, Expr.outline_eq src _ t, Expr.outline_eq src _ c,
        Row.line, Row.entry, Node.line]
  | .conditional s t c (some a) =>
      simp [Expr.outline, Expr.rows, Expr.outline_eq src _ t, Expr.outline_eq src _ c,
        Expr.outline_eq src _ a, Row.line, Row.entry, Node.line]
  | .assignment s i e =>
      simp [Expr.outline, Expr.rows, Expr.outline_eq src _ e, Row.line, Row.entry, Node.line]
  | .error s => rfl

theorem Expr.outlineAll_eq (src : Option Source) (level : Nat) (es : List Expr) :
    Expr.outlineAll src level es = (Expr.rowsAll level es).map (Row.line src) := by
  match es with
  | [] => rfl
  | e :: es =>
      simp [Expr.outlineAll, Expr.rowsAll, Expr.outline_eq src _ e, Expr.outlineAll_eq src _ es]

theorem Definition.outline_eq (src : Option Source) (level : Nat) (d : Definition) :
    d.outline src level = (d.rows level).map (Row.line src) := by
  match d with
  | ⟨s, i, e⟩ =>
      simp [Definition.outline, Definition.rows, Expr.outline_eq src _ e, Row.line, Row.entry,
        Node.line]

theorem Definition.outlineAll_eq (src : Option Source) (level : Nat) (ds : List Definition) :
    Definition.outlineAll src level ds = (Definition.rowsAll level ds).map (Row.line src) := by
  match ds with
  | [] => rfl
  | d :: ds =>
      simp [Definition.outlineAll, Definition.rowsAll, Definition.outline_eq src _ d,
        Definition.outlineAll_eq src _ ds]

/-- The outline of a body is made of the lines of its rows. -/
theorem Body.outline_eq (src : Option Source) (level : Nat) (b : Body) :
    b.outline src level = (b.rows level).map (Row.line src) := by
  match b with
  | ⟨ds, es, e⟩ =>
      simp [Body.outline, Body.rows, Definition.outlineAll_eq src _ ds, Expr.outlineAll_eq src _ es,
        Expr.outline_eq src _ e, Row.line, Row.entry]

end

theorem Expr.rowsAll_eq (level : Nat) (es : List Expr) :
    Expr.rowsAll level es = es.flatMap (Expr.rows level) := by
  induction es with
  | nil => rfl
  | cons e es ih => rw [rowsAll, List.flatMap_cons, ih]

theorem Definition.rowsAll_eq (level : Nat) (ds : List Definition) :
    Definition.rowsAll level ds = ds.flatMap (Definition.rows level) := by
  induction ds with
  | nil => rfl
  | cons d ds ih => rw [rowsAll, List.flatMap_cons, ih]

/-! ## Nodes at their levels -/

/-- The nodes right below a body, with the levels of their lines. -/
def Body.placed (level : Nat) (b : Body) : List (Nat × Node) :=
  b.defs.map (fun d => (level + 1, .definition d)) ++ b.init.map (fun e => (level + 1, .expr e))
    ++ [(level + 2, .expr b.last)]

theorem Body.map_snd_placed (level : Nat) (b : Body) :
    (b.placed level).map Prod.snd = b.children := by
  simp [placed, children, Function.comp_def]

theorem Body.lt_of_mem_placed {level : Nat} {b : Body} {c : Nat × Node} (h : c ∈ b.placed level) :
    level < c.1 := by
  simp only [placed, List.mem_append, List.mem_map, List.mem_singleton] at h
  rcases h with (⟨d, -, rfl⟩ | ⟨e, -, rfl⟩) | rfl <;> simp

namespace Node

/-- The rows of a node. -/
def rows (level : Nat) : Node → List (Nat × Row)
  | expr e => e.rows level
  | definition d => d.rows level
  | identifier i => [(level, .node (.identifier i))]

@[simp] theorem rows_expr (level : Nat) (e : Expr) : (expr e).rows level = e.rows level := rfl

@[simp] theorem rows_definition (level : Nat) (d : Definition) :
    (definition d).rows level = d.rows level := rfl

@[simp] theorem rows_identifier (level : Nat) (i : Identifier) :
    (identifier i).rows level = [(level, .node (.identifier i))] := rfl

/-- The nodes right below a node, with the levels of their lines. -/
def placed (level : Nat) : Node → List (Nat × Node)
  | expr (.procedure _ _ params body) =>
      params.map (fun i => (level + 1, .identifier i)) ++ body.placed (level + 1)
  | n => n.children.map (level + 1, ·)

/-- The node is a procedure. -/
def isProcedure : Node → Bool
  | expr (.procedure _ _ _ _) => true
  | _ => false

theorem map_snd_placed (level : Nat) (n : Node) : (n.placed level).map Prod.snd = n.children := by
  unfold placed
  split
  · simp [children, Expr.children, Body.map_snd_placed, Function.comp_def]
  · simp [Function.comp_def]

theorem mem_children_of_mem_placed {level : Nat} {n : Node} {c : Nat × Node}
    (h : c ∈ n.placed level) : c.2 ∈ n.children := by
  rw [← map_snd_placed level]
  exact List.mem_map_of_mem h

theorem lt_of_mem_placed {level : Nat} {n : Node} {c : Nat × Node} (h : c ∈ n.placed level) :
    level < c.1 := by
  unfold placed at h
  split at h
  · rcases List.mem_append.1 h with h | h
    · obtain ⟨i, -, rfl⟩ := List.mem_map.1 h
      exact Nat.lt_succ_self level
    · exact Nat.lt_of_succ_lt (Body.lt_of_mem_placed h)
  · obtain ⟨m, -, rfl⟩ := List.mem_map.1 h
    exact Nat.lt_succ_self level

theorem length_nodes_lt {c n : Node} (h : c ∈ n.children) : c.nodes.length < n.nodes.length := by
  obtain ⟨before, after, hsplit⟩ := List.append_of_mem h
  rw [nodes_eq n, hsplit]
  simp only [List.length_cons, List.flatMap_append, List.flatMap_cons, List.length_append]
  omega

/-- What holds of a node if it holds of all nodes right below it holds of every node. -/
theorem induction_children {M : Node → Prop} (h : ∀ n, (∀ c ∈ n.children, M c) → M n)
    (n : Node) : M n :=
  h n fun c _ => induction_children h c
termination_by n.nodes.length
decreasing_by exact length_nodes_lt ‹_›

end Node

/-! ## The walk and its levels -/

/-- The rows of a body that belong to nodes are those of the nodes right below it. -/
theorem Body.nodeRows_rows (level : Nat) (b : Body) :
    Row.nodeRows (b.rows level) =
      (b.placed level).flatMap fun c => Row.nodeRows (c.2.rows c.1) := by
  obtain ⟨ds, es, e⟩ := b
  simp [rows, placed, Expr.rowsAll_eq, Definition.rowsAll_eq, Node.rows, List.flatMap_map]

/-- The first row of a node is its own. -/
theorem Node.nodeRows_rows (level : Nat) (n : Node) :
    Row.nodeRows (n.rows level) =
      (level, n) :: (n.placed level).flatMap fun c => Row.nodeRows (c.2.rows c.1) := by
  cases n with
  | expr e =>
      cases e with
      | conditional s test conseq alter =>
          cases alter <;> simp [Expr.rows, placed, children, Expr.children]
      | procedure s variadic params body =>
          simp [Expr.rows, placed, Body.nodeRows_rows, List.map_eq_flatMap, List.flatMap_assoc]
      | _ => simp [Expr.rows, placed, children, Expr.children, Expr.rowsAll_eq, List.flatMap_map]
  | definition d =>
      obtain ⟨s, name, value⟩ := d
      simp [Definition.rows, placed, children]
  | identifier i => simp [placed, children]

/-- The rows of a node belong to the nodes of the walk, in the same order. -/
theorem Node.map_snd_nodeRows (level : Nat) (n : Node) :
    (Row.nodeRows (n.rows level)).map Prod.snd = n.nodes := by
  induction n using Node.induction_children generalizing level with
  | h n ih =>
      rw [nodeRows_rows, nodes_eq, List.map_cons, ← map_snd_placed level, List.map_flatMap,
        List.flatMap_map]
      exact congrArg _ (List.flatMap_congr fun c hc => ih c.2 (mem_children_of_mem_placed hc) c.1)

theorem Body.map_snd_nodeRows (level : Nat) (b : Body) :
    (Row.nodeRows (b.rows level)).map Prod.snd = b.nodes := by
  rw [nodeRows_rows, nodes_eq, ← map_snd_placed level, List.map_flatMap, List.flatMap_map]
  exact List.flatMap_congr fun c _ => Node.map_snd_nodeRows c.1 c.2

/-- In a walk with levels, each node is followed by the nodes right below it and all that is below
those, at higher levels. -/
def Row.Deepens (ns : List (Nat × Node)) : Prop :=
  ∀ i level n, ns[i]? = some (level, n) → ∀ before m after, n.children = before ++ m :: after →
    ∃ deeper, level < deeper ∧
      ns[i + 1 + (before.flatMap Node.nodes).length]? = some (deeper, m)

namespace Row

variable {ns ns' : List (Nat × Node)}

theorem deepens_nil : Deepens [] := by
  intro i level n h
  simp at h

theorem Deepens.append (h : Deepens ns) (h' : Deepens ns') : Deepens (ns ++ ns') := by
  intro i level n hi before m after hsplit
  -- What is below a node is found in the part of the walk in which the node is.
  by_cases hlt : i < ns.length
  · rw [List.getElem?_append_left hlt] at hi
    obtain ⟨deeper, hdeeper, hm⟩ := h i level n hi before m after hsplit
    obtain ⟨hbound, -⟩ := List.getElem?_eq_some_iff.1 hm
    exact ⟨deeper, hdeeper, by rw [List.getElem?_append_left hbound, hm]⟩
  · rw [List.getElem?_append_right (by omega)] at hi
    obtain ⟨deeper, hdeeper, hm⟩ := h' (i - ns.length) level n hi before m after hsplit
    refine ⟨deeper, hdeeper, ?_⟩
    rw [List.getElem?_append_right (by omega), ← hm]
    congr 1
    omega

theorem deepens_flatMap {α : Type} {f : α → List (Nat × Node)} {as : List α}
    (h : ∀ a ∈ as, Deepens (f a)) : Deepens (as.flatMap f) := by
  induction as with
  | nil => exact deepens_nil
  | cons a as ih =>
      rw [List.forall_mem_cons] at h
      exact h.1.append (ih h.2)

/-- The node in front is followed by those below it. -/
theorem Deepens.cons {level : Nat} {n : Node} (h : Deepens ns)
    (hns : ns = (n.placed level).flatMap fun c => nodeRows (c.2.rows c.1)) :
    Deepens ((level, n) :: ns) := by
  intro i k m hi before c after hsplit
  cases i with
  | succ i =>
      obtain ⟨deeper, hdeeper, hc⟩ := h i k m (by simpa using hi) before c after hsplit
      have hindex : i + 1 + 1 + (before.flatMap Node.nodes).length =
          i + 1 + (before.flatMap Node.nodes).length + 1 := by omega
      exact ⟨deeper, hdeeper, by rw [hindex, List.getElem?_cons_succ, hc]⟩
  | zero =>
      cases hi
      rw [← Node.map_snd_placed level] at hsplit
      obtain ⟨front, behind, hplaced, rfl, hbehind⟩ := List.map_eq_append_iff.1 hsplit
      obtain ⟨⟨deeper, m⟩, rest, rfl, rfl, -⟩ := List.map_eq_cons_iff.1 hbehind
      have hmem : (deeper, m) ∈ n.placed level := by simp [hplaced]
      have hlevel : level < deeper := Node.lt_of_mem_placed hmem
      refine ⟨deeper, hlevel, ?_⟩
      -- The nodes before it take up as many places as their walks are long.
      have hlength : ((front.map Prod.snd).flatMap Node.nodes).length =
          (front.flatMap fun c => nodeRows (c.2.rows c.1)).length := by
        rw [← List.length_map Prod.snd, List.map_flatMap, List.flatMap_map]
        simp only [Node.map_snd_nodeRows]
      rw [hlength, hns, hplaced, List.flatMap_append, List.flatMap_cons, Nat.add_comm 0 1,
        Nat.add_comm 1, List.getElem?_cons_succ, List.getElem?_append_right (Nat.le_refl _),
        Node.nodeRows_rows]
      simp

end Row

theorem Node.deepens (level : Nat) (n : Node) : Row.Deepens (Row.nodeRows (n.rows level)) := by
  induction n using Node.induction_children generalizing level with
  | h n ih =>
      rw [nodeRows_rows]
      refine .cons (Row.deepens_flatMap fun c hc => ?_) rfl
      exact ih c.2 (mem_children_of_mem_placed hc) c.1

/-- The levels of a program go down with its nodes. -/
theorem Body.deepens (level : Nat) (b : Body) : Row.Deepens (Row.nodeRows (b.rows level)) := by
  rw [nodeRows_rows]
  exact Row.deepens_flatMap fun c _ => Node.deepens c.1 c.2

/-! ## Further rows -/

/-- How many rows have the property `q`. -/
def Row.count (q : Row → Bool) (rs : List (Nat × Row)) : Nat := rs.countP fun r => q r.2

section

variable {q : Row → Bool} (hq : ∀ n, q (.node n) = false)
  (hone : [Row.body, Row.tail].countP q = 1)

include hq hone

omit hq in
/-- A body has one of the rows, besides those of the nodes right below it. -/
theorem Body.count_rows_eq (level : Nat) (b : Body) :
    Row.count q (b.rows level) =
      1 + ((b.placed level).map fun c => Row.count q (c.2.rows c.1)).sum := by
  obtain ⟨ds, es, e⟩ := b
  simp only [List.countP_cons, List.countP_nil] at hone
  simp [rows, Row.count, placed, Expr.rowsAll_eq, Definition.rowsAll_eq, Node.rows,
    List.countP_flatMap, Function.comp_def, List.countP_cons]
  omega

theorem Node.count_rows_eq (level : Nat) (n : Node) :
    Row.count q (n.rows level) = (if n.isProcedure then 1 else 0) +
      ((n.placed level).map fun c => Row.count q (c.2.rows c.1)).sum := by
  cases n with
  | expr e =>
      cases e with
      | conditional s test conseq alter =>
          cases alter <;>
            simp [Expr.rows, placed, children, Expr.children, Row.count, isProcedure, hq]
      | procedure s variadic params body =>
          have hbody := Body.count_rows_eq hone (level + 1) body
          simp only [Row.count] at hbody
          simp [Expr.rows, placed, Row.count, isProcedure, hq, Function.comp_def, hbody]
      | _ =>
          simp [Expr.rows, placed, children, Expr.children, Expr.rowsAll_eq, Row.count,
            isProcedure, hq, Function.comp_def, List.countP_flatMap]
  | definition d =>
      obtain ⟨s, name, value⟩ := d
      simp [Definition.rows, placed, children, Row.count, isProcedure, hq]
  | identifier i => simp [placed, children, Row.count, isProcedure, hq]

/-- There are as many of the rows as there are procedures from the node downwards. -/
theorem Node.count_rows (level : Nat) (n : Node) :
    Row.count q (n.rows level) = n.nodes.countP isProcedure := by
  induction n using Node.induction_children generalizing level with
  | h n ih =>
      rw [count_rows_eq hq hone, nodes_eq, List.countP_cons, List.countP_flatMap, Nat.add_comm,
        ← map_snd_placed level, List.map_map]
      refine congrArg (List.sum · + _) (List.map_congr_left fun c hc => ?_)
      exact ih c.2 (mem_children_of_mem_placed hc) c.1

/-- There is one of the rows for the body and for each procedure in it. -/
theorem Body.count_rows (level : Nat) (b : Body) :
    Row.count q (b.rows level) = 1 + b.nodes.countP Node.isProcedure := by
  rw [count_rows_eq hone, nodes_eq, List.countP_flatMap, ← map_snd_placed level, List.map_map]
  exact congrArg (1 + List.sum ·)
    (List.map_congr_left fun c _ => Node.count_rows hq hone c.1 c.2)

end

end SchemeFront
