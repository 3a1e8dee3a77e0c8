import SchemeFront.Parse.Body

set_option autoImplicit false

/-! # Outcomes of forms

An `Outcome` is what a form in a body comes to: its item and the findings about it. The parts of a
body are told by the outcomes of its forms (`Outcome.Makes`): the first sound expression, one that
is no error, divides them. Parsing items until there are no more sorts them in this way
(`Parse.items_of_feeds`).
-/

namespace SchemeFront

namespace BodyItem

/-- The definition that the item is. -/
def definition? : BodyItem → Option Definition
  | definition d => some d
  | _ => none

/-- The expression that the item is. -/
def expression? : BodyItem → Option Expr
  | expression e => some e
  | _ => none

/-- The item is an expression, and no error. -/
def isSound (i : BodyItem) : Bool := i.expression?.any fun e => !e.isError

/-- The expression that the item is behind a sound one, where a definition is an error. -/
def late? : BodyItem → Option Expr
  | definition d => some (.error d.span)
  | expression e => some e
  | nothing => none

/-- What is said of the item behind a sound expression. -/
def lateNotes : BodyItem → List Diagnostic
  | definition d => [Parse.late d.span]
  | _ => []

end BodyItem

/-- What a form comes to: its item, and the findings about it. -/
structure Outcome where
  item : BodyItem
  notes : List Diagnostic

namespace Outcome

/-- The outcomes before the first sound expression. -/
def early (os : List Outcome) : List Outcome := os.takeWhile fun o => !o.item.isSound

/-- The outcomes from the first sound expression on. -/
def later (os : List Outcome) : List Outcome := os.dropWhile fun o => !o.item.isSound

/-- The definitions of a body: those before the first sound expression. -/
def defs (os : List Outcome) : List Definition := (early os).filterMap (·.item.definition?)

/-- The expressions of a body, among them the definitions that come too late. -/
def exprs (os : List Outcome) : List Expr :=
  (early os).filterMap (·.item.expression?) ++ (later os).filterMap (·.item.late?)

/-- The findings about the forms, and behind those about a definition that it comes too late. -/
def findings (os : List Outcome) : List Diagnostic :=
  (early os).flatMap (·.notes) ++ (later os).flatMap fun o => o.notes ++ o.item.lateNotes

/-- Some form is an expression. -/
def hasExpression (os : List Outcome) : Bool := os.any fun o => o.item.expression?.isSome

/-- What is said when there is no expression. -/
def missing (endOfInput : Span) : Diagnostic :=
  Diagnostic.unexpected endOfInput none [Parse.definitionName, Parse.expressionName]

/-- The program and the findings that the forms of a source come to. If no form is an expression,
an error at the end of the input takes its place. -/
structure Makes (endOfInput : Span) (os : List Outcome) (p : Program) (notes : List Diagnostic) :
    Prop where
  defs : p.defs = defs os
  exprs : p.exprs = if hasExpression os then exprs os else [.error endOfInput]
  notes : notes = findings os ++ if hasExpression os then [] else [missing endOfInput]

variable {o : Outcome} {os : List Outcome}

/-! The parts of a body, outcome by outcome. -/

theorem defs_cons (h : o.item.isSound = false) :
    defs (o :: os) = o.item.definition?.toList ++ defs os := by
  simp only [defs, early, List.takeWhile_cons, h, Bool.not_false, if_true, List.filterMap_cons]
  cases o.item.definition? <;> rfl

theorem exprs_cons (h : o.item.isSound = false) :
    exprs (o :: os) = o.item.expression?.toList ++ exprs os := by
  simp only [exprs, early, later, List.takeWhile_cons, List.dropWhile_cons, h, Bool.not_false,
    if_true, List.filterMap_cons]
  cases o.item.expression? <;> rfl

theorem findings_cons (h : o.item.isSound = false) :
    findings (o :: os) = o.notes ++ findings os := by
  simp [findings, early, later, h]

theorem defs_cons_of_sound (h : o.item.isSound = true) : defs (o :: os) = [] := by
  simp [defs, early, h]

theorem exprs_cons_of_sound (h : o.item.isSound = true) :
    exprs (o :: os) = (o :: os).filterMap (·.item.late?) := by
  simp [exprs, early, later, h]

theorem findings_cons_of_sound (h : o.item.isSound = true) :
    findings (o :: os) = (o :: os).flatMap fun o => o.notes ++ o.item.lateNotes := by
  simp [findings, early, later, h]

/-- A sound expression is an expression. -/
theorem exists_of_isSound (h : o.item.isSound = true) :
    ∃ e, o.item = .expression e := by
  obtain ⟨item, notes⟩ := o
  cases item with
  | expression e => exact ⟨e, rfl⟩
  | _ => cases h

theorem defs_singleton (o : Outcome) : defs [o] = o.item.definition?.toList := by
  cases ho : o.item.isSound with
  | true =>
      obtain ⟨e, he⟩ := exists_of_isSound ho
      rw [defs_cons_of_sound ho, he]
      rfl
  | false =>
      rw [defs_cons ho]
      exact List.append_nil _

theorem exprs_singleton (o : Outcome) : exprs [o] = o.item.expression?.toList := by
  cases ho : o.item.isSound with
  | true =>
      obtain ⟨e, he⟩ := exists_of_isSound ho
      rw [exprs_cons_of_sound ho, List.filterMap_cons, he]
      rfl
  | false =>
      rw [exprs_cons ho]
      exact List.append_nil _

theorem findings_singleton (o : Outcome) : findings [o] = o.notes := by
  cases ho : o.item.isSound with
  | true =>
      obtain ⟨e, he⟩ := exists_of_isSound ho
      rw [findings_cons_of_sound ho]
      simp [he, BodyItem.lateNotes]
  | false =>
      rw [findings_cons ho]
      exact List.append_nil _

/-- There are expressions if and only if some item is one. -/
theorem exprs_eq_nil_iff : exprs os = [] ↔ hasExpression os = false := by
  induction os with
  | nil => simp [exprs, early, later, hasExpression]
  | cons o os ih =>
      cases ho : o.item.isSound with
      | true =>
          obtain ⟨e, he⟩ := exists_of_isSound ho
          rw [exprs_cons_of_sound ho, List.filterMap_cons, he]
          simp [hasExpression, BodyItem.expression?, BodyItem.late?, he]
      | false =>
          rw [exprs_cons ho, hasExpression, List.any_cons, ← hasExpression]
          cases o.item.expression? with
          | none => simpa using ih
          | some e => simp

/-! What is found, form by form. -/

/-- What is found about a form is among the findings. -/
theorem mem_findings {m : Diagnostic} (ho : o ∈ os) (hm : m ∈ o.notes) : m ∈ findings os := by
  rw [← List.takeWhile_append_dropWhile (l := os) (p := fun o => !o.item.isSound)] at ho
  rw [findings, List.mem_append, List.mem_flatMap, List.mem_flatMap]
  rcases List.mem_append.1 ho with ho | ho
  · exact .inl ⟨o, ho, hm⟩
  · exact .inr ⟨o, ho, List.mem_append_left _ hm⟩

/-- All that is found is found about some form, or says that it comes too late. -/
theorem exists_of_mem_findings {m : Diagnostic} (hm : m ∈ findings os) :
    ∃ o ∈ os, m ∈ o.notes ∨ m ∈ o.item.lateNotes := by
  rw [findings, List.mem_append, List.mem_flatMap, List.mem_flatMap] at hm
  rcases hm with ⟨o, ho, hm⟩ | ⟨o, ho, hm⟩
  · exact ⟨o, (List.takeWhile_prefix _).mem ho, .inl hm⟩
  · exact ⟨o, (List.dropWhile_suffix _).mem ho, List.mem_append.1 hm⟩

/-- Findings other than that a definition comes too late stand in the order of the forms. -/
theorem filter_findings {p : Diagnostic → Bool}
    (hp : ∀ o ∈ os, ∀ m ∈ o.item.lateNotes, p m = false) :
    (findings os).filter p = (os.flatMap (·.notes)).filter p := by
  have hlater : ((later os).flatMap fun o => o.notes ++ o.item.lateNotes).filter p
      = ((later os).flatMap (·.notes)).filter p := by
    have hmem : ∀ o ∈ later os, ∀ m ∈ o.item.lateNotes, p m = false :=
      fun o ho => hp o ((List.dropWhile_suffix _).mem ho)
    generalize later os = us at hmem ⊢
    induction us with
    | nil => rfl
    | cons o us ih =>
        have hnone : o.item.lateNotes.filter p = [] :=
          List.filter_eq_nil_iff.2 fun m hm => by simp [hmem o (by simp) m hm]
        simp only [List.flatMap_cons, List.filter_append, hnone, List.append_nil,
          ih fun o ho => hmem o (by simp [ho])]
  rw [findings, List.filter_append, hlater, ← List.filter_append, ← List.flatMap_append, early,
    later, List.takeWhile_append_dropWhile]

/-- What is found about a last expression is found last. -/
theorem exists_findings_eq_append (os : List Outcome) {e : Expr} (he : o.item = .expression e) :
    ∃ before, findings (os ++ [o]) = before ++ o.notes ∧
      ∀ m ∈ before, ∃ o' ∈ os, m ∈ o'.notes ∨ m ∈ o'.item.lateNotes := by
  induction os with
  | nil => exact ⟨[], findings_singleton o, by simp⟩
  | cons o' os ih =>
      cases ho : o'.item.isSound with
      | true =>
          refine ⟨(o' :: os).flatMap fun o => o.notes ++ o.item.lateNotes, ?_, ?_⟩
          · rw [List.cons_append, findings_cons_of_sound ho, ← List.cons_append,
              List.flatMap_append]
            simp [he, BodyItem.lateNotes]
          · intro m hm
            obtain ⟨o, ho, hm⟩ := List.mem_flatMap.1 hm
            exact ⟨o, ho, List.mem_append.1 hm⟩
      | false =>
          obtain ⟨before, hbefore, hmem⟩ := ih
          refine ⟨o'.notes ++ before, ?_, ?_⟩
          · rw [List.cons_append, findings_cons ho, hbefore, List.append_assoc]
          · intro m hm
            rcases List.mem_append.1 hm with hm | hm
            · exact ⟨o', by simp, .inl hm⟩
            · obtain ⟨o, ho, hm⟩ := hmem m hm
              exact ⟨o, by simp [ho], hm⟩

end Outcome

namespace Parse

variable {next : Bool → Parse (Option BodyItem)} {ctx : Context} {pos : Position}
  {os : List Outcome} {rounds : Nat}

/-- From the position on, `next` gives items with the given outcomes, and then no more. -/
inductive Feeds (next : Bool → Parse (Option BodyItem)) (ctx : Context) :
    Position → List Outcome → Prop
  | nil {pos : Position} (h : ∀ started, next started ctx pos = .done none ∅ pos) :
      Feeds next ctx pos []
  | cons {pos after : Position} {i : BodyItem} {trace : Trace} {os : List Outcome}
      (h : ∀ started, next started ctx pos = .done (some i) trace after)
      (more : Feeds next ctx after os) : Feeds next ctx pos (⟨i, trace.notes⟩ :: os)

/-- Items behind a sound expression are all expressions. -/
theorem items_behind_sound (h : Feeds next ctx pos os) (started : Bool)
    (hrounds : os.length < rounds) :
    ∃ trace after, items next started true rounds ctx pos
      = .done ([], os.filterMap (·.item.late?)) trace after ∧
      trace.notes = os.flatMap fun o => o.notes ++ o.item.lateNotes := by
  induction h generalizing started rounds with
  | nil hnone =>
      cases rounds with
      | zero => cases hrounds
      | succ rounds =>
          rw [items, bind_apply, hnone]
          exact ⟨_, _, rfl, rfl⟩
  | @cons pos after i trace os hnext more ih =>
      cases rounds with
      | zero => cases hrounds
      | succ rounds =>
          have hlt : os.length < rounds := Nat.lt_of_succ_lt_succ hrounds
          rw [items, bind_apply, hnext]
          cases i with
          | nothing =>
              obtain ⟨behind, last, hitems, hnotes⟩ := ih started hlt
              dsimp only
              rw [hitems]
              exact ⟨_, _, rfl, by simp [hnotes, BodyItem.lateNotes]⟩
          | expression e =>
              obtain ⟨behind, last, hitems, hnotes⟩ := ih true hlt
              simp only [Bool.true_or, bind_apply, hitems, pure_apply, Reply.behind]
              exact ⟨_, _, rfl, by simp [hnotes, BodyItem.lateNotes]⟩
          | definition d =>
              obtain ⟨behind, last, hitems, hnotes⟩ := ih true hlt
              simp only [if_true, bind_apply, note, hitems, pure_apply, Reply.behind]
              exact ⟨_, _, rfl, by simp [hnotes, BodyItem.lateNotes]⟩

/-- Items are sorted as their outcomes say. -/
theorem items_of_feeds (h : Feeds next ctx pos os) (started : Bool)
    (hrounds : os.length < rounds) :
    ∃ trace after, items next started false rounds ctx pos
      = .done (Outcome.defs os, Outcome.exprs os) trace after ∧
      trace.notes = Outcome.findings os := by
  induction h generalizing started rounds with
  | nil hnone =>
      cases rounds with
      | zero => cases hrounds
      | succ rounds =>
          rw [items, bind_apply, hnone]
          exact ⟨_, _, rfl, rfl⟩
  | @cons pos after i trace os hnext more ih =>
      cases rounds with
      | zero => cases hrounds
      | succ rounds =>
          have hlt : os.length < rounds := Nat.lt_of_succ_lt_succ hrounds
          rw [items, bind_apply, hnext]
          cases i with
          | nothing =>
              obtain ⟨behind, last, hitems, hnotes⟩ := ih started hlt
              dsimp only
              rw [hitems, Outcome.defs_cons rfl, Outcome.exprs_cons rfl, Outcome.findings_cons rfl]
              exact ⟨_, _, rfl, by simp [hnotes]⟩
          | definition d =>
              obtain ⟨behind, last, hitems, hnotes⟩ := ih started hlt
              simp only [Bool.false_eq_true, if_false, bind_apply, hitems, pure_apply, Reply.behind]
              rw [Outcome.defs_cons rfl, Outcome.exprs_cons rfl, Outcome.findings_cons rfl]
              exact ⟨_, _, rfl, by simp [hnotes]⟩
          | expression e =>
              cases he : e.isError with
              | true =>
                  obtain ⟨behind, last, hitems, hnotes⟩ := ih true hlt
                  have hsound : (BodyItem.expression e).isSound = false := by
                    simp [BodyItem.isSound, BodyItem.expression?, he]
                  simp only [he, Bool.not_true, Bool.or_false, bind_apply, hitems, pure_apply,
                    Reply.behind]
                  rw [Outcome.defs_cons hsound, Outcome.exprs_cons hsound,
                    Outcome.findings_cons hsound]
                  exact ⟨_, _, rfl, by simp [hnotes]⟩
              | false =>
                  obtain ⟨behind, last, hitems, hnotes⟩ := items_behind_sound more true hlt
                  have hsound : (BodyItem.expression e).isSound = true := by
                    simp [BodyItem.isSound, BodyItem.expression?, he]
                  simp only [he, Bool.not_false, Bool.or_true, bind_apply, hitems, pure_apply,
                    Reply.behind]
                  rw [Outcome.defs_cons_of_sound hsound, Outcome.exprs_cons_of_sound hsound,
                    Outcome.findings_cons_of_sound hsound]
                  exact ⟨_, _, rfl, by simp [hnotes, BodyItem.lateNotes]⟩

/-- With expressions, the program has these. -/
theorem exists_programOf_eq_done {defs : List Definition} {exprs : List Expr}
    (hne : exprs ≠ []) (ctx : Context) (pos : Position) :
    ∃ p, programOf defs exprs ctx pos = .done p ∅ pos ∧ p.defs = defs ∧ p.exprs = exprs := by
  refine ⟨⟨defs, exprs.dropLast, exprs.getLast hne⟩, ?_, rfl, List.dropLast_concat_getLast hne⟩
  simp only [programOf, body?, List.getLast?_eq_some_getLast hne, Option.map_some, pure_apply]

end Parse

/-- The program of tokens that give items with known outcomes. -/
theorem Body.ofTokens_of_feeds {limit : Int} {src : Source} {ts : List Token} {os : List Outcome}
    (h : Parse.Feeds (Parse.outerItem (Parse.nested ts.length)) (Context.ofSource limit src)
      { rest := ts } os) (hlen : os.length ≤ ts.length) :
    ∃ p notes, ofTokens limit src ts = .ok (p, notes) ∧
      Outcome.Makes src.endOfInput os p notes := by
  obtain ⟨trace, after, hitems, hnotes⟩ := Parse.items_of_feeds h false (Nat.lt_succ_of_le hlen)
  -- The program is what the sorted items make, and nothing else is found.
  have hprogram : ∀ {p more last}, Parse.programOf (Outcome.defs os) (Outcome.exprs os)
      (Context.ofSource limit src) after = .done p more last →
      ofTokens limit src ts = .ok (p, Outcome.findings os ++ more.notes) := by
    intro p more last hp
    have hall : Parse.allItems (Parse.outerItem (Parse.nested ts.length))
        (Context.ofSource limit src) { rest := ts }
          = .done (Outcome.defs os, Outcome.exprs os) trace after := hitems
    rw [ofTokens, Parse.program, Parse.bind_apply, hall]
    dsimp only
    rw [hp, ← hnotes]
    rfl
  cases hhas : Outcome.hasExpression os with
  | true =>
      have hne : Outcome.exprs os ≠ [] := mt Outcome.exprs_eq_nil_iff.1 (by simp [hhas])
      obtain ⟨p, hp, hdefs, hexprs⟩ := Parse.exists_programOf_eq_done hne _ after
      exact ⟨p, _, hprogram hp, hdefs, by simp [hhas, hexprs], by simp [hhas]⟩
  | false =>
      rw [Outcome.exprs_eq_nil_iff.2 hhas] at hprogram
      exact ⟨_, _, hprogram rfl, rfl, by simp [hhas, exprs, Context.ofSource],
        by simp [hhas, Outcome.missing, Context.ofSource]⟩

end SchemeFront
