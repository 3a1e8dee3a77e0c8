import Mathlib.Data.List.Perm.Subperm
import SchemeFront.Proofs.Parse.Accounted

set_option autoImplicit false

/-! # Errors and what explains them

What cannot be parsed leaves an error that covers its tokens, and a finding at one of them. The
error may be lost with the form around it, but not the finding, so each error of a program has a
finding of its own that points into it (`Body.exists_ofTokens_explained`). For this, a form must
cover all of its tokens (`Token.Snug`): it reaches no further than its last one does.
-/

namespace SchemeFront

open Token

variable {ctx : Context} {t : Token} {ts us : List Token} {s : Span} {es fs : List Node}
  {ms ns : List Diagnostic}

/-! ## Forms that cover their tokens -/

namespace Token

/-- Tokens in order. None of them ends behind a bracket that is closed later, nor behind the last
one. -/
structure Snug (ts : List Token) : Prop where
  ascending : Ascending ts
  enclosing : Enclosing ts
  last : ∀ t ∈ ts, ∀ u ∈ ts.getLast?, t.span.stop ≤ u.span.stop

theorem Snug.of_suffix (h : Snug ts) (hs : us <:+ ts) : Snug us where
  ascending := h.ascending.of_suffix hs
  enclosing := h.enclosing.sublist hs.sublist
  last := by
    obtain ⟨xs, rfl⟩ := hs
    intro t ht u hu
    have hlast : u ∈ (xs ++ us).getLast? := by
      rw [List.getLast?_append, Option.mem_def.1 hu]
      rfl
    exact h.last t (List.mem_append_right xs ht) u hlast

/-- A form begins with its first token. -/
theorem mem_form (t : Token) (ts : List Token) : t ∈ (t :: ts).take (extent (t :: ts)) := by
  rw [extent, Nat.add_comm, List.take_succ_cons]
  exact List.mem_cons_self

/-- The last token of a form is the bracket that closes it, or the last one of all. -/
theorem Snug.form (h : Snug ts) : Snug (ts.take (extent ts)) where
  ascending := h.ascending.of_prefix (List.take_prefix _ ts)
  enclosing := h.enclosing.sublist (List.take_sublist _ ts)
  last := by
    cases ts with
    | nil => simp
    | cons t ts =>
        cases ho : t.opens with
        | false =>
            rw [extent_cons_of_not_opens ho]
            simp
        | true =>
            rcases closed_or_confined ts with ⟨xs, c, us, rfl, hx, hc⟩ | hconfined
            · -- The form ends with the bracket `c`, and what is before it does not end behind it.
              rw [take_extent_of_balanced ho hx hc us]
              intro u hu v hv
              rw [← List.cons_append, List.getLast?_concat] at hv
              cases hv
              have henc : Enclosing (t :: (xs ++ [c])) :=
                h.enclosing.sublist (by simp)
              rw [← List.cons_append] at henc hu
              rcases List.mem_append.1 hu with hu | hu
              · exact (List.pairwise_append.1 henc).2.2 u hu c (by simp) hc
              · cases List.mem_singleton.1 hu
                exact Int.le_refl _
            · rw [take_extent_of_confined ho hconfined]
              exact h.last

/-- The span from the first token to the last contains those between them. -/
theorem Snug.contains {fallback : Span} (h : Snug ts) (hs : cover ts fallback = .ok s)
    (ht : t ∈ ts) : s.contains t.span = true := by
  obtain ⟨first, more, rfl⟩ := List.exists_cons_of_ne_nil (List.ne_nil_of_mem ht)
  obtain ⟨hfirst, hfinal⟩ := ends_of_cover (List.cons_ne_nil first more) hs
  have hstop := h.last t ht _ (List.getLast?_eq_some_getLast (List.cons_ne_nil first more))
  have hstart : first.span.start ≤ t.span.start := by
    rcases List.mem_cons.1 ht with rfl | ht
    · exact Int.le_refl _
    · exact (List.pairwise_cons.1 h.ascending).1 t ht
  rw [List.head_cons] at hfirst
  simp [Span.contains, hfirst, hfinal, hstart, hstop]

end Token

/-! ## Where findings point -/

namespace Diagnostic

/-- Where a finding points: where it was made, or at the delimiter that was never closed. -/
def place (d : Diagnostic) : Span :=
  match d.cause with
  | .unclosed _ opened _ => opened
  | _ => d.span

@[simp] theorem place_unexpected (span : Span) (found : Option Found) (expected : List String)
    (construct : Option String) : (unexpected span found expected construct).place = span := rfl

@[simp] theorem place_remark (span : Span) (message : String) (construct : Option String) :
    (remark span message construct).place = span := rfl

end Diagnostic

/-- A failure inside a form points at a token of the form. -/
theorem Parse.Blames.exists_place {why : Diagnostic} (h : Blames ctx ts why) (ht : t ∈ ts)
    (construct : String) : ∃ u ∈ ts, (explain t construct why).place = u.span := by
  cases h with
  | ended expected => exact ⟨t, ht, rfl⟩
  | token hu expected => exact ⟨_, hu, rfl⟩
  | misplaced hu => exact ⟨_, hu, rfl⟩
  | duplicate hu hi => exact ⟨_, hu, hi.symm⟩

/-! ## Errors -/

namespace Node

/-- The errors among nodes and those below them. -/
def errors (ns : List Node) : List Node := (ns.flatMap nodes).filter isErrorExpr

theorem errors_append (ms ns : List Node) : errors (ms ++ ns) = errors ms ++ errors ns := by
  rw [errors, List.flatMap_append, List.filter_append]
  rfl

theorem errors_perm {ms ns : List Node} (h : ms.Perm ns) : (errors ms).Perm (errors ns) :=
  (h.flatMap_right nodes).filter isErrorExpr

/-- A node that is no error has the errors of the nodes right below it. -/
theorem errors_singleton {n : Node} (h : n.isErrorExpr = false) :
    errors [n] = errors n.children := by
  rw [errors, List.flatMap_singleton, nodes_eq, List.filter_cons_of_neg (by simp [h])]
  rfl

end Node

theorem Body.errors_eq (b : Body) : b.nodes.filter Node.isErrorExpr = Node.errors b.children := by
  rw [Body.nodes_eq, Node.errors]

/-! ## Explanations -/

/-- Each error has a finding of its own that points into it. -/
def Explained (es : List Node) (ms : List Diagnostic) : Prop :=
  ∃ own : List Diagnostic, own.Subperm ms ∧
    List.Forall₂ (fun e m => e.span.contains m.place = true) es own

namespace Explained

theorem nil (ms : List Diagnostic) : Explained [] ms := ⟨[], List.nil_subperm, .nil⟩

theorem singleton {m : Diagnostic} (h : s.contains m.place = true) :
    Explained [.expr (.error s)] [m] :=
  ⟨[m], List.Subperm.refl _, .cons h .nil⟩

theorem append (h : Explained es ms) (h' : Explained fs ns) : Explained (es ++ fs) (ms ++ ns) := by
  obtain ⟨own, hown, hall⟩ := h
  obtain ⟨own', hown', hall'⟩ := h'
  exact ⟨own ++ own', hown.append hown', List.rel_append hall hall'⟩

theorem perm (h : Explained es ms) (hes : fs.Perm es) : Explained fs ms := by
  obtain ⟨own, hown, hall⟩ := h
  obtain ⟨own', hall', hperm⟩ := List.perm_comp_forall₂ hes hall
  exact ⟨own', hperm.subperm.trans hown, hall'⟩

theorem length_le (h : Explained es ms) : es.length ≤ ms.length := by
  obtain ⟨own, hown, hall⟩ := h
  rw [hall.length_eq]
  exact hown.length_le

/-- The findings of the errors, as a map between their places in the two lists. -/
theorem exists_injective (h : Explained es ms) :
    ∃ f : Fin es.length → Fin ms.length, Function.Injective f ∧
      ∀ i : Fin es.length, es[i].span.contains ms[f i].place = true := by
  obtain ⟨own, hown, hall⟩ := h
  -- The errors and their own findings go side by side, and the latter are a part of all.
  have hlen := hall.length_eq
  have hcast : Function.Injective (Fin.cast hlen) := fun i j hij =>
    Fin.ext (Fin.mk.inj hij)
  refine ⟨hown.idxInj ∘ Fin.cast hlen, hown.idxInj_injective.comp hcast, ?_⟩
  intro i
  have hi := hall.get i.2 (hlen ▸ i.2)
  have hsame : ms[hown.idxInj (Fin.cast hlen i)] = own[i.1] := hown.getElem_idxInj_eq_getElem
  simpa [hsame] using hi

end Explained

/-! ## Programs -/

namespace Parse

/-- The span of an error contains each token of the form in whose place it stands. -/
theorem explained_form {ts : List Token} {m : Diagnostic} (hsnug : Snug ts)
    (hs : cover (ts.take (extent ts)) ctx.endOfInput = .ok s)
    (hm : ∃ u ∈ ts.take (extent ts), m.place = u.span) :
    Explained (Node.errors [.expr (.error s)]) [m] := by
  obtain ⟨u, hu, hplace⟩ := hm
  refine .singleton ?_
  rw [hplace]
  exact hsnug.form.contains hs hu

/-- Errors are set against their findings. -/
theorem ledger_explained (ctx : Context) :
    Ledger ctx (fun pos => Snug pos.rest) (fun ns ms => Explained (Node.errors ns) ms) where
  nil := .nil _
  append h h' := by
    rw [Node.errors_append]
    exact h.append h'
  perm hperm h := h.perm (Node.errors_perm hperm.symm)
  discard _ := .nil _
  node hn h := by rwa [Node.errors_singleton hn]
  refused pos t ts construct s hsnug hrest _ _ hs :=
    explained_form hsnug hs ⟨t, hrest ▸ mem_form t ts, rfl⟩
  broken pos t ts construct why s hsnug hrest _ hwhy hs :=
    explained_form hsnug hs (hwhy.exists_place (hrest ▸ mem_form t ts) construct)
  word t := .singleton (by simp [Span.contains])
  late d := .singleton (by simp [late, Span.contains])
  stray t := .nil _
  missing := .singleton (by simp [Span.contains])

/-- A property of the tokens that are left which suffixes keep holds wherever a parser comes. -/
theorem route_of_suffix {Q : List Token → Prop}
    (hQ : ∀ {ts us : List Token}, Q ts → us <:+ ts → Q us) :
    Route ctx (fun pos => Q pos.rest) (fun pos => Q pos.rest) (fun pos => Q pos.rest) where
  formals _ h := h
  plain _ _ _ h hrest _ _ := hQ h (hrest ▸ List.suffix_cons _ _)
  form _ _ _ h _ _ := hQ h (List.drop_suffix _ _)
  enter _ _ _ h hrest _ _ := hQ h (hrest ▸ List.suffix_cons _ _)
  inside _ h _ := h
  word _ _ _ h hrest _ := hQ h (hrest ▸ List.suffix_cons _ _)
  stray _ _ _ h _ hrest _ := hQ h (hrest ▸ List.suffix_cons _ _)

end Parse

/-- Tokens whose forms cover them give a program, each error of which has a finding of its own that
points into it. -/
theorem Body.exists_ofTokens_explained (limit : Int) (src : Source) (h : Snug ts) :
    ∃ p notes, ofTokens limit src ts = .ok (p, notes) ∧
      Explained (p.nodes.filter Node.isErrorExpr) notes := by
  obtain ⟨p, notes, hp, hexplained⟩ := exists_ofTokens_of_ledger
    (Parse.ledger_explained (Context.ofSource limit src))
    (Parse.route_of_suffix fun hts hus => hts.of_suffix hus) h h.ascending
  exact ⟨p, notes, hp, by rwa [errors_eq]⟩

end SchemeFront
