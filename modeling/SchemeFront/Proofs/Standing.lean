import Mathlib.Data.List.Basic
import SchemeFront.Proofs.Mentions
import SchemeFront.Proofs.Token.Nesting

set_option autoImplicit false

/-! # Nodes and the tokens they stand on

Tokens are in order (`Token.Orderly`) if their starts never decrease and none ends behind a bracket
that is closed later. A node that reaches from one bracket to another then contains all that stands
on the tokens between them (`Node.Lies.of_brackets`), and so it lies as it should with all nodes
below it.
-/

namespace SchemeFront

open Token

variable {lo hi : Int} {ts us : List Token}

/-! ## Tokens and spans -/

/-- Tokens between two offsets, in order and within their brackets. -/
structure Token.Orderly (lo hi : Int) (ts : List Token) : Prop where
  bounds : ∀ t ∈ ts, lo ≤ t.span.start ∧ t.span.stop ≤ hi
  ascending : Ascending ts
  enclosing : Enclosing ts

theorem Token.Orderly.of_sublist (h : Orderly lo hi ts) (hs : us.Sublist ts) :
    Orderly lo hi us where
  bounds t ht := h.bounds t (hs.mem ht)
  ascending := h.ascending.sublist hs
  enclosing := h.enclosing.sublist hs

/-- The span begins behind the start of a token of `ts`, and ends before the end of one. -/
structure Span.StandsOn (ts : List Token) (s : Span) : Prop where
  start : ∃ t ∈ ts, t.span.start ≤ s.start
  stop : ∃ t ∈ ts, s.stop ≤ t.span.stop

theorem Span.StandsOn.mono {s : Span} (h : s.StandsOn ts) (hs : ts ⊆ us) : s.StandsOn us where
  start := by
    obtain ⟨t, ht, hle⟩ := h.start
    exact ⟨t, hs ht, hle⟩
  stop := by
    obtain ⟨t, ht, hle⟩ := h.stop
    exact ⟨t, hs ht, hle⟩

theorem Span.StandsOn.bounds {s : Span} (h : s.StandsOn ts) (hts : Orderly lo hi ts) :
    lo ≤ s.start ∧ s.stop ≤ hi := by
  obtain ⟨t, ht, hstart⟩ := h.start
  obtain ⟨u, hu, hstop⟩ := h.stop
  have := hts.bounds t ht
  have := hts.bounds u hu
  omega

/-- The span that covers tokens stands on them. -/
theorem Span.standsOn_of_cover {s fallback : Span} (hne : ts ≠ [])
    (h : cover ts fallback = .ok s) : s.StandsOn ts := by
  obtain ⟨hstart, hstop⟩ := ends_of_cover hne h
  exact ⟨⟨_, List.head_mem hne, Int.le_of_eq hstart.symm⟩,
    ⟨_, List.getLast_mem hne, Int.le_of_eq hstop⟩⟩

/-! ## Nodes -/

namespace Node

/-- A node and all nodes below it. -/
def nodes : Node → List Node
  | expr e => e.nodes
  | definition d => d.nodes
  | identifier i => [identifier i]

/-- The node lies between two offsets, and the nodes right below it lie within it. -/
structure Nests (lo hi : Int) (n : Node) : Prop where
  start : lo ≤ n.span.start
  stop : n.span.stop ≤ hi
  contains : ∀ m ∈ n.children, n.span.contains m.span = true

/-- The node and all below it lie as they should. -/
def NestsAll (lo hi : Int) (n : Node) : Prop := ∀ m ∈ n.nodes, m.Nests lo hi

/-- The node stands on the tokens `ts`, and all below it lie as they should. -/
structure Lies (lo hi : Int) (ts : List Token) (n : Node) : Prop where
  on : n.span.StandsOn ts
  nests : n.NestsAll lo hi

@[simp] theorem nodes_expr (e : Expr) : (expr e).nodes = e.nodes := rfl

@[simp] theorem nodes_definition (d : Definition) : (definition d).nodes = d.nodes := rfl

@[simp] theorem nodes_identifier (i : Identifier) : (identifier i).nodes = [identifier i] := rfl

end Node

/-- The nodes of a body are those of the nodes right below it. -/
theorem Body.nodes_eq (b : Body) : b.nodes = b.children.flatMap Node.nodes := by
  obtain ⟨defs, init, last⟩ := b
  simp only [Body.nodes, Body.children, Definition.nodesAll_eq, Expr.nodesAll_eq,
    List.flatMap_append, List.flatMap_map, Node.nodes_definition, Node.nodes_expr,
    List.flatMap_singleton]

theorem Body.mem_nodes_iff {m : Node} {b : Body} :
    m ∈ b.nodes ↔ ∃ c ∈ b.children, m ∈ c.nodes := by
  rw [Body.nodes_eq, List.mem_flatMap]

namespace Node

/-- The nodes of a node are itself and those of the nodes right below it. -/
theorem nodes_eq (n : Node) : n.nodes = n :: n.children.flatMap Node.nodes := by
  cases n with
  | expr e =>
      cases e with
      | conditional s test conseq alter =>
          cases alter <;> simp [Expr.nodes, children, Expr.children]
      | procedure s variadic params body =>
          have hparams : (params.map identifier).flatMap nodes = params.map identifier := by
            rw [List.flatMap_map, List.map_eq_flatMap]
            rfl
          simp [Expr.nodes, children, Expr.children, Body.nodes_eq, hparams]
      | _ => simp [Expr.nodes, children, Expr.children, Expr.nodesAll_eq, List.flatMap_map]
  | definition d =>
      obtain ⟨s, name, value⟩ := d
      simp [Definition.nodes, children]
  | identifier i => simp [children]

theorem mem_nodes_iff {m n : Node} :
    m ∈ n.nodes ↔ m = n ∨ ∃ c ∈ n.children, m ∈ c.nodes := by
  rw [nodes_eq, List.mem_cons, List.mem_flatMap]

variable {n : Node}

theorem Lies.mono (h : n.Lies lo hi ts) (hs : ts ⊆ us) : n.Lies lo hi us where
  on := h.on.mono hs
  nests := h.nests

/-- A node lies as it should if those right below it do and it contains them. -/
theorem Lies.of_children (hts : Orderly lo hi ts) (hon : n.span.StandsOn ts)
    (hall : ∀ m ∈ n.children, m.NestsAll lo hi ∧ n.span.contains m.span = true) :
    n.Lies lo hi ts where
  on := hon
  nests := by
    intro m hm
    rcases mem_nodes_iff.1 hm with rfl | ⟨c, hc, hm⟩
    · obtain ⟨hstart, hstop⟩ := hon.bounds hts
      exact ⟨hstart, hstop, fun c hc => (hall c hc).2⟩
    · exact (hall c hc).1 m hm

/-- A node without others below it lies as it should. -/
theorem Lies.of_childless (hts : Orderly lo hi ts) (hon : n.span.StandsOn ts)
    (hnone : n.children = []) : n.Lies lo hi ts := by
  refine .of_children hts hon ?_
  intro m hm
  rw [hnone] at hm
  cases hm

/-- A node that reaches from an opening to a closing bracket lies as it should if the nodes right
below it stand on the tokens from the one to the other. -/
theorem Lies.of_brackets {opened closed : Token}
    (hts : Orderly lo hi (opened :: (ts ++ [closed]))) (hc : closed.closes = true)
    (hspan : n.span = opened.span.join closed.span)
    (hall : ∀ m ∈ n.children, m.Lies lo hi (opened :: (ts ++ [closed]))) :
    n.Lies lo hi (opened :: (ts ++ [closed])) := by
  obtain ⟨hbehind, -⟩ := List.pairwise_cons.1 hts.ascending
  have hfirst : ∀ t ∈ opened :: (ts ++ [closed]), opened.span.start ≤ t.span.start := by
    intro t ht
    rcases List.mem_cons.1 ht with rfl | ht
    · exact Int.le_refl _
    · exact hbehind t ht
  have hlast : ∀ t ∈ opened :: (ts ++ [closed]), t.span.stop ≤ closed.span.stop := by
    intro t ht
    have henc := hts.enclosing
    rw [← List.cons_append] at ht henc
    rcases List.mem_append.1 ht with ht | ht
    · exact (List.pairwise_append.1 henc).2.2 t ht closed (by simp) hc
    · cases List.mem_singleton.1 ht
      exact Int.le_refl _
  -- So the node reaches from the start of its first bracket to the end of its last.
  have hstart : n.span.start = opened.span.start := by
    rw [hspan]
    exact Int.min_eq_left (hfirst closed (by simp))
  have hstop : n.span.stop = closed.span.stop := by
    rw [hspan]
    exact Int.max_eq_right (hlast opened (by simp))
  refine .of_children hts
    ⟨⟨opened, by simp, Int.le_of_eq hstart.symm⟩, closed, by simp, Int.le_of_eq hstop⟩ ?_
  intro m hm
  refine ⟨(hall m hm).nests, ?_⟩
  obtain ⟨⟨t, ht, hlow⟩, u, hu, hhigh⟩ := (hall m hm).on
  have := hfirst t ht
  have := hlast u hu
  simp only [Span.contains, Bool.and_eq_true, decide_eq_true_eq]
  omega

end Node

/-! ## Nodes in brackets -/

/-- If the bracket `opened` and the tokens `xs` behind it are in order, the node lies on them. -/
def Node.LiesBehind (lo hi : Int) (opened : Token) (n : Node) (xs : List Token) : Prop :=
  Orderly lo hi (opened :: xs) → n.Lies lo hi (opened :: xs)

theorem Node.LiesBehind.of_children {n : Node} {opened closed : Token} {xs : List Token}
    (front : List Token) (hxs : xs = front ++ [closed]) (hc : closed.closes = true)
    (hspan : n.span = opened.span.join closed.span)
    (hall : ∀ m ∈ n.children, m.Lies lo hi front) : n.LiesBehind lo hi opened xs := by
  subst hxs
  intro hord
  exact .of_brackets hord hc hspan fun m hm => (hall m hm).mono fun t ht => by simp [ht]

/-! ## Errors -/

theorem Node.nestsAll_error {s : Span} (hstart : lo ≤ s.start) (hstop : s.stop ≤ hi) :
    (Node.expr (.error s)).NestsAll lo hi := by
  intro m hm
  cases List.mem_singleton.1 hm
  exact ⟨hstart, hstop, by simp [children, Expr.children]⟩

/-- An error in the place of a definition lies as the definition does. -/
theorem Node.NestsAll.late {d : Definition} (h : (Node.definition d).NestsAll lo hi) :
    (Node.expr (.error d.span)).NestsAll lo hi := by
  have hd := h (.definition d) (mem_nodes_iff.2 (.inl rfl))
  exact nestsAll_error hd.start hd.stop

theorem Node.Lies.late {d : Definition} (h : (Node.definition d).Lies lo hi ts) :
    (Node.expr (.error d.span)).Lies lo hi ts := ⟨h.on, h.nests.late⟩

end SchemeFront
