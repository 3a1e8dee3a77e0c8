import SchemeFront.Proofs.Parse.Forms
import SchemeFront.Proofs.Parse.Places

set_option autoImplicit false

/-! # Contracts of parsers

What all parsers keep to, whatever is wrong with the tokens, is stated as a contract (`Contract`):
where they begin, and what holds of the values that they give inside the open forms. Its laws are
about one step each. Tokens may be passed, and a form may be entered; and what is built of parts
that may be given one form further in may be given as well. From these the rules for the parsers,
in their order, show that the contract is kept from any place where it says that they may begin
(`Parse.Meets`), also by answers that are failures or faults, and so it is kept by programs
(`Contract.of_ofTokens`).

An error may be given in the place of any form. A contract that does not allow this is lenient: it
asks nothing any more of a parser that has recorded a finding.
-/

namespace SchemeFront

variable {α β : Type} {ctx : Context}

/-- What parsers keep to. -/
structure Contract (ctx : Context) where
  /-- A parser may begin here. -/
  place : Position → Prop
  /-- Behind a finding, nothing is asked any more. -/
  lenient : Prop
  /-- The identifier may be given. -/
  name : Identifier → Prop
  /-- The expression may be given inside these forms. -/
  expr : (forms : List Bool) → Expr → Prop
  /-- The definition may be given inside these forms. -/
  definition : (forms : List Bool) → Definition → Prop
  moveTo {pos : Position} {ts : List Token} (hpos : place pos) (hts : ts <:+ pos.rest) :
    place (pos.moveTo ts)
  enter {pos : Position} {opened : Token} {tail : List Token} (hpos : place pos)
    (hrest : pos.rest = opened :: tail)
    (hdeep : ¬ (ctx.counts pos opened && decide (ctx.limit ≤ pos.depth)) = true) :
    place (pos.enter (ctx.counts pos opened) tail)
  name_of_mem {pos : Position} {t : Token} {text : String} (hpos : place pos) (ht : t ∈ pos.rest)
    (hname : t.name? = some text) (s : Span) : name ⟨text, s⟩
  atom {pos : Position} {t : Token} {a : Atom} (hpos : place pos) (ht : t ∈ pos.rest)
    (ha : t.lexeme = .atom a) (s : Span) : expr pos.forms (.atom s a)
  error {pos : Position} (hpos : place pos) (hstrict : ¬ lenient) (s : Span) :
    expr pos.forms (.error s)
  conditional {forms : List Bool} {counted : Bool} {test conseq : Expr} {alter : Option Expr}
    (htest : expr (counted :: forms) test) (hconseq : expr (counted :: forms) conseq)
    (halter : ∀ a ∈ alter, expr (counted :: forms) a) (s : Span) :
    expr forms (.conditional s test conseq alter)
  procedure {forms : List Bool} {counted variadic : Bool} {params : List Identifier} {body : Body}
    (hparams : Identifier.Distinct params ∧ ∀ i ∈ params, name i)
    (hone : variadic = true → params.length = 1)
    (hdefs : ∀ d ∈ body.defs, definition (counted :: forms) d)
    (hexprs : ∀ e ∈ body.exprs, expr (counted :: forms) e) (s : Span) :
    expr forms (.procedure s variadic params body)
  assignment {forms : List Bool} {counted : Bool} {target : Identifier} {value : Expr}
    (htarget : name target) (hvalue : expr (counted :: forms) value) (s : Span) :
    expr forms (.assignment s target value)
  call {forms : List Bool} {counted : Bool} {operator : Expr} {args : List Expr}
    (hoperator : expr (counted :: forms) operator)
    (hargs : ∀ e ∈ args, expr (counted :: forms) e) (s : Span) :
    expr forms (.call s operator args)
  namedValue {forms : List Bool} {counted : Bool} {i : Identifier} {value : Expr} (hname : name i)
    (hvalue : expr (counted :: forms) value) (s : Span) : definition forms ⟨s, i, value⟩
  /-- The procedure is read as one form with the definition. -/
  namedProcedure {forms : List Bool} {counted : Bool} {i : Identifier} {params : List Identifier}
    {body : Body} (hname : name i) (hparams : Identifier.Distinct params ∧ ∀ i ∈ params, name i)
    (hdefs : ∀ d ∈ body.defs, definition (counted :: forms) d)
    (hexprs : ∀ e ∈ body.exprs, expr (counted :: forms) e) (s : Span) :
    definition forms ⟨s, i, .procedure s false params body⟩

namespace Contract

variable (K : Contract ctx)

/-- The token is left at some place inside these forms. -/
def Sees (forms : List Bool) (t : Token) : Prop :=
  ∃ pos, K.place pos ∧ pos.forms = forms ∧ t ∈ pos.rest

/-- These parameters may be given. -/
def Parameters (params : List Identifier) : Prop :=
  Identifier.Distinct params ∧ ∀ i ∈ params, K.name i

/-- The body may be given inside these forms. -/
def Body (forms : List Bool) (b : Body) : Prop :=
  (∀ d ∈ b.defs, K.definition forms d) ∧ ∀ e ∈ b.exprs, K.expr forms e

/-- The item may be given inside these forms. -/
def Item (forms : List Bool) : BodyItem → Prop
  | .definition d => K.definition forms d
  | .expression e => K.expr forms e
  | .nothing => True

/-- What a form turned out to be has the property `Q`, or an error may be given for it. -/
def Form (forms : List Bool) (Q : α → Prop) : Parsed α → Prop
  | .whole a => Q a
  | .broken s => K.expr forms (.error s)

end Contract

/-! ## Answers -/

namespace Reply

/-- The findings of the answer. -/
def notes : Reply α → List Diagnostic
  | done _ trace _ => trace.notes
  | failed _ trace _ => trace.notes
  | fault _ trace _ => trace.notes

@[simp] theorem notes_behind (earlier : Trace) (r : Reply α) :
    (r.behind earlier).notes = earlier.notes ++ r.notes := by
  cases r <;> rfl

@[simp] theorem notes_leaving (counted : Bool) (r : Reply α) :
    (r.leaving counted).notes = r.notes := by
  cases r <;> simp [leaving, notes]

/-- The answer keeps to the contract, and a value has the property `Q`. -/
def Meets (K : Contract ctx) (pos : Position) (Q : α → Prop) (r : Reply α) : Prop :=
  (K.lenient ∧ r.notes ≠ []) ∨ r.Keeps ctx pos Q

namespace Meets

variable {K : Contract ctx} {pos after : Position} {trace : Trace} {Q : α → Prop} {r : Reply α}

theorem behind (h : r.Meets K after Q) (htrace : trace.Returns ctx pos after) :
    (r.behind trace).Meets K pos Q := by
  obtain ⟨hlenient, hnotes⟩ | hkeeps := h
  · exact .inl ⟨hlenient, by simp [hnotes]⟩
  · exact .inr (hkeeps.behind htrace)

/-- Behind a finding, a lenient contract is kept. -/
theorem behind_of_lenient (hlenient : K.lenient) (hnotes : trace.notes ≠ []) :
    (r.behind trace).Meets K pos Q :=
  .inl ⟨hlenient, by simp [hnotes]⟩

theorem leaving {opened : Token} {ts : List Token}
    (hdeep : ¬ (ctx.counts pos opened && decide (ctx.limit ≤ pos.depth)) = true)
    (hts : ts <:+ pos.rest) (h : r.Meets K (pos.enter (ctx.counts pos opened) ts) Q) :
    ((r.behind (.ofPosition (pos.enter (ctx.counts pos opened) ts))).leaving
      (ctx.counts pos opened)).Meets K pos Q := by
  obtain ⟨hlenient, hnotes⟩ | hkeeps := h
  · exact .inl ⟨hlenient, by simpa using hnotes⟩
  · exact .inr (hkeeps.leaving hdeep hts)

end Meets

end Reply

namespace Parse

/-! ## Rules -/

/-- Wherever the parser begins inside these forms, it keeps to the contract, and what it gives has
the property `Q`. -/
def Meets (K : Contract ctx) (forms : List Bool) (p : Parse α) (Q : α → Prop) : Prop :=
  ∀ pos : Position, pos.forms = forms → K.place pos → (p ctx pos).Meets K pos Q

variable {K : Contract ctx} {forms : List Bool} {p : Parse α} {Q : α → Prop} {R : β → Prop}

/-- The rule for one parser after another, at one place. -/
theorem meets_bind_apply {pos : Position} {g : α → Parse β} (hpos : K.place pos)
    (hp : (p ctx pos).Meets K pos Q) (hg : ∀ a, Q a → (g a).Meets K pos.forms R) :
    ((p >>= g) ctx pos).Meets K pos R := by
  rw [bind_apply]
  cases hpa : p ctx pos with
  | done a trace after =>
      rw [hpa] at hp
      obtain ⟨hlenient, hnotes⟩ | ⟨ha, htrace⟩ := hp
      · exact .behind_of_lenient hlenient hnotes
      · obtain ⟨rest, hrest, rfl⟩ := htrace.back
        exact (hg a ha (pos.moveTo rest) rfl (K.moveTo hpos hrest)).behind htrace
  | failed why trace after =>
      rw [hpa] at hp
      exact hp
  | fault fault trace after =>
      rw [hpa] at hp
      exact hp

theorem meets_bind {g : α → Parse β} (hp : p.Meets K forms Q)
    (hg : ∀ a, Q a → (g a).Meets K forms R) : (p >>= g).Meets K forms R := by
  rintro pos rfl hpos
  exact meets_bind_apply hpos (hp pos rfl hpos) hg

/-- The rule for a step whose value does not matter. -/
theorem meets_step {g : α → Parse β} (hp : p.Meets K forms fun _ => True)
    (hg : ∀ a, (g a).Meets K forms R) : (p >>= g).Meets K forms R :=
  meets_bind hp fun a _ => hg a

theorem meets_pure {a : α} (h : Q a) : (pure a : Parse α).Meets K forms Q := by
  intro pos hforms hpos
  exact .inr ⟨h, .empty ctx pos⟩

theorem meets_map {f : α → β} (hp : p.Meets K forms Q) (hf : ∀ a, Q a → R (f a)) :
    (f <$> p).Meets K forms R := by
  rw [← bind_pure_comp]
  exact meets_bind hp fun a ha => meets_pure (hf a ha)

theorem meets_peek_bind {i : Nat} {g : Option Token → Parse β}
    (hg : ∀ head : Option Token, (∀ t ∈ head, K.Sees forms t) → (g head).Meets K forms R) :
    (peek i >>= g).Meets K forms R := by
  intro pos hforms hpos
  rw [peek_bind_apply]
  exact hg _ (fun t ht => ⟨pos, hpos, hforms, List.mem_of_getElem? ht⟩) pos hforms hpos

theorem meets_nextCloses_bind {g : Bool → Parse β}
    (hg : ∀ closes, (g closes).Meets K forms R) : (nextCloses >>= g).Meets K forms R := by
  intro pos hforms hpos
  rw [nextCloses_bind_apply]
  exact hg _ pos hforms hpos

/-- Behind a finding, an error may be given, or nothing is asked any more. -/
theorem meets_note_bind (d : Diagnostic) {g : Unit → Parse β}
    (hg : (∀ s, K.expr forms (.error s)) → (g ()).Meets K forms R) :
    (note d >>= g).Meets K forms R := by
  rintro pos rfl hpos
  show ((g () ctx pos).behind (.ofNote d)).Meets K pos R
  by_cases hlenient : K.lenient
  · exact .behind_of_lenient hlenient (by simp)
  · exact (hg (K.error hpos hlenient) pos rfl hpos).behind (.ofNote ctx pos d)

theorem meets_reject (why : Diagnostic) : (reject why : Parse α).Meets K forms Q := by
  intro pos hforms hpos
  exact .inr (.empty ctx pos)

theorem meets_fail (expected : List String) : (fail expected : Parse α).Meets K forms Q := by
  intro pos hforms hpos
  exact .inr (.empty ctx pos)

theorem meets_abort (fault : Fault) : (abort fault : Parse α).Meets K forms Q := by
  intro pos hforms hpos
  exact .inr (.empty ctx pos)

theorem meets_advance : advance.Meets K forms fun _ => True := by
  intro pos hforms hpos
  unfold advance
  cases hrest : pos.rest with
  | nil => exact .inr (.empty ctx pos)
  | cons t ts => exact .inr ⟨trivial, .moveTo ctx (hrest ▸ List.suffix_cons t ts)⟩

theorem meets_withRounds {p : Nat → Parse α} (h : ∀ rounds, (p rounds).Meets K forms Q) :
    (withRounds p).Meets K forms Q := by
  intro pos hforms hpos
  exact h _ pos hforms hpos

theorem meets_close : close.Meets K forms fun _ => True := by
  refine meets_nextCloses_bind fun closes => ?_
  cases closes with
  | true => exact meets_advance
  | false => exact meets_fail _

theorem meets_identifier (also : List String) : (identifier also).Meets K forms K.name := by
  refine meets_peek_bind fun head hhead => ?_
  cases hname : head.bind Token.name? with
  | none => exact meets_fail _
  | some text =>
      obtain ⟨t, rfl, hname⟩ := Option.bind_eq_some_iff.1 hname
      obtain ⟨pos, hpos, -, ht⟩ := hhead t rfl
      exact meets_step meets_advance fun next =>
        meets_pure (K.name_of_mem hpos ht hname next.span)

/-! ## Forms -/

/-- What is left behind the form that `start` begins with is an end of what is left already. -/
theorem keeps_skip {pos : Position} {start : List Token} (hstart : pos.rest <:+ start) :
    (skip start ctx pos).Keeps ctx pos fun _ => True := by
  have hrest : start.drop (max (Token.extent start) (start.length - pos.rest.length))
      <:+ pos.rest := by
    refine List.suffix_of_suffix_length_le (List.drop_suffix _ _) hstart ?_
    rw [List.length_drop]
    omega
  unfold skip
  dsimp only
  cases Token.cover (start.take (max (Token.extent start) (start.length - pos.rest.length)))
      ctx.endOfInput with
  | ok span => exact ⟨trivial, .moveTo ctx hrest⟩
  | error fault => exact .moveTo ctx hrest

/-- A form that is recorded and skipped is an error. -/
theorem meets_recover {pos : Position} {start : List Token} {d : Diagnostic}
    (herror : ¬ K.lenient → ∀ s, K.expr forms (.error s)) (hpos : K.place pos)
    (hstart : pos.rest <:+ start) :
    ((recover start d : Parse (Parsed α)) ctx pos).Meets K pos (K.Form forms Q) := by
  show (((do let span ← skip start; return .broken span : Parse (Parsed α)) ctx pos).behind
    (.ofNote d)).Meets K pos (K.Form forms Q)
  by_cases hlenient : K.lenient
  · exact .behind_of_lenient hlenient (by simp)
  · refine .behind ?_ (.ofNote ctx pos d)
    exact meets_bind_apply hpos (.inr (keeps_skip hstart)) fun span _ =>
      meets_pure (herror hlenient span)

theorem meets_guarded {construct : String} {outer pos : Position} {opened : Token}
    {inner : Parse α} (herror : ¬ K.lenient → ∀ s, K.expr forms (.error s)) (hpos : K.place pos)
    (houter : pos.rest <:+ outer.rest) (hinner : (inner ctx pos).Meets K pos Q) :
    (guarded construct outer opened inner ctx pos).Meets K pos (K.Form forms Q) := by
  unfold guarded
  cases hi : inner ctx pos with
  | done a trace after =>
      rw [hi] at hinner
      exact hinner
  | failed why trace after =>
      rw [hi] at hinner
      dsimp only
      split
      · exact hinner
      · obtain ⟨hlenient, hnotes⟩ | htrace := hinner
        · exact .behind_of_lenient hlenient hnotes
        -- The tokens of the form are skipped from its bracket on, and not from where it failed.
        · obtain ⟨rest, hrest, rfl⟩ := htrace.back
          have hafter : K.place (pos.moveTo rest) := K.moveTo hpos hrest
          exact (meets_recover herror hafter (hrest.trans houter)).behind htrace
  | fault fault trace after =>
      rw [hi] at hinner
      exact hinner

/-- A form that is nested too deeply is not entered. -/
theorem meets_form {construct : String} {inner : Token → Parse α}
    (h : ∀ opened counted, (inner opened).Meets K (counted :: forms) Q) :
    (form construct inner).Meets K forms (K.Form forms Q) := by
  rintro pos rfl hpos
  unfold form
  split
  · exact .inr (.empty ctx pos)
  · rename_i opened tail hrest
    dsimp only
    split
    · exact meets_recover (K.error hpos) hpos (List.suffix_refl _)
    · rename_i hdeep
      have htail : tail <:+ pos.rest := hrest ▸ List.suffix_cons opened tail
      have hinside : K.place (pos.enter (ctx.counts pos opened) tail) := K.enter hpos hrest hdeep
      have hinner := h opened (ctx.counts pos opened) _ rfl hinside
      exact (meets_guarded (K.error hpos) hinside htail hinner).leaving hdeep htail

/-! ## Expressions -/

theorem meets_identifiers (rounds : Nat) :
    (identifiers rounds).Meets K forms fun is => ∀ i ∈ is, K.name i := by
  induction rounds with
  | zero => exact meets_abort _
  | succ rounds ih =>
      refine meets_nextCloses_bind fun closes => ?_
      cases closes with
      | true => exact meets_step meets_advance fun _ => meets_pure (by simp)
      | false =>
          refine meets_bind (meets_identifier _) fun first hfirst => ?_
          exact meets_bind ih fun more hmore =>
            meets_pure (List.forall_mem_cons.2 ⟨hfirst, hmore⟩)

theorem meets_parameters : parameters.Meets K forms K.Parameters := by
  refine meets_bind (meets_withRounds meets_identifiers) fun params hparams => ?_
  unfold distinct
  cases hrepeated : repeated? [] params with
  | none => exact meets_pure ⟨((repeated?_eq_none_iff [] params).1 hrepeated).1, hparams⟩
  | some i => exact meets_reject _

theorem meets_formals : formals.Meets K forms fun found =>
    K.Parameters found.2 ∧ (found.1 = true → found.2.length = 1) := by
  refine meets_peek_bind fun head _ => ?_
  cases head with
  | none => exact meets_fail _
  | some t =>
      dsimp only
      split
      · refine meets_bind (meets_identifier _) fun name hname => meets_pure ?_
        exact ⟨⟨by simp [Identifier.Distinct], List.forall_mem_singleton.2 hname⟩, fun _ => rfl⟩
      · split
        · refine meets_step meets_advance fun _ => ?_
          exact meets_bind meets_parameters fun names hnames => meets_pure ⟨hnames, by simp⟩
        · exact meets_fail _

end Parse

/-- What is nested keeps to the contract, inside any forms. -/
structure Inner.Meets (inner : Inner) (K : Contract ctx) : Prop where
  expr : ∀ forms also, (inner.expr also).Meets K forms (K.expr forms)
  body : ∀ forms, inner.body.Meets K forms (K.Body forms)

namespace Parse

variable {K : Contract ctx} {forms : List Bool} {inner : Inner}

section

variable {counted : Bool} (h : inner.Meets K)

include h

theorem meets_alternative :
    (alternative inner).Meets K forms fun alter => ∀ a ∈ alter, K.expr forms a := by
  refine meets_nextCloses_bind fun closes => ?_
  cases closes with
  | true => exact meets_pure (by simp)
  | false => exact meets_map (h.expr _ [")"]) fun e he => by simpa using he

theorem meets_conditional (opened : Token) :
    (conditional inner opened).Meets K (counted :: forms) (K.expr forms) := by
  refine meets_step meets_advance fun _ => meets_bind (h.expr _ []) fun test htest => ?_
  refine meets_bind (h.expr _ []) fun conseq hconseq => ?_
  refine meets_bind (meets_alternative h) fun alter halter => meets_step meets_close fun _ => ?_
  exact meets_pure (K.conditional htest hconseq halter _)

theorem meets_procedure (opened : Token) :
    (procedure inner opened).Meets K (counted :: forms) (K.expr forms) := by
  refine meets_step meets_advance fun _ => meets_bind meets_formals fun found hfound => ?_
  refine meets_bind (h.body _) fun body hbody => meets_step meets_close fun _ => meets_pure ?_
  exact K.procedure hfound.1 hfound.2 hbody.1 hbody.2 _

theorem meets_assignment (opened : Token) :
    (assignment inner opened).Meets K (counted :: forms) (K.expr forms) := by
  refine meets_step meets_advance fun _ => ?_
  refine meets_bind (meets_identifier _) fun target htarget => ?_
  refine meets_bind (h.expr _ []) fun value hvalue => meets_step meets_close fun _ => ?_
  exact meets_pure (K.assignment htarget hvalue _)

theorem meets_arguments (rounds : Nat) :
    (arguments inner rounds).Meets K forms fun es => ∀ e ∈ es, K.expr forms e := by
  induction rounds with
  | zero => exact meets_abort _
  | succ rounds ih =>
      refine meets_nextCloses_bind fun closes => ?_
      cases closes with
      | true => exact meets_pure (by simp)
      | false =>
          refine meets_bind (h.expr _ [")"]) fun first hfirst => meets_bind ih fun more hmore => ?_
          exact meets_pure (List.forall_mem_cons.2 ⟨hfirst, hmore⟩)

theorem meets_call (opened : Token) :
    (call inner opened).Meets K (counted :: forms) (K.expr forms) := by
  refine meets_bind (h.expr _ []) fun operator hoperator => ?_
  refine meets_bind (meets_withRounds (meets_arguments h)) fun args hargs => ?_
  exact meets_step meets_close fun _ => meets_pure (K.call hoperator hargs _)

omit h in
theorem meets_strayDefinition {Q : Expr → Prop} (opened : Token) :
    (strayDefinition opened).Meets K forms Q := by
  refine meets_peek_bind fun head _ => ?_
  cases head with
  | none => exact meets_abort _
  | some word => exact meets_reject _

theorem meets_formOf (head : Option Token) (opened : Token) :
    ((formOf inner head).2 opened).Meets K (counted :: forms) (K.expr forms) := by
  unfold formOf
  split
  · exact meets_conditional h opened
  · exact meets_procedure h opened
  · exact meets_assignment h opened
  · exact meets_strayDefinition opened
  · exact meets_call h opened

theorem meets_compound : (compound inner).Meets K forms (K.expr forms) := by
  refine meets_peek_bind fun head _ => ?_
  refine meets_map (meets_form fun opened counted => meets_formOf h head opened) ?_
  rintro (e | span) he
  · exact he
  · exact he

theorem meets_expression (also : List String) :
    (expression inner also).Meets K forms (K.expr forms) := by
  refine meets_peek_bind fun head hhead => ?_
  split
  · rename_i a span
    obtain ⟨pos, hpos, rfl, ht⟩ := hhead _ rfl
    exact meets_step meets_advance fun _ => meets_pure (K.atom hpos ht rfl span)
  · exact meets_compound h
  · exact meets_fail _

/-! ## Definitions -/

theorem meets_namedValue (opened : Token) :
    (namedValue inner opened).Meets K (counted :: forms) (K.definition forms) := by
  refine meets_bind (meets_identifier _) fun name hname => ?_
  refine meets_bind (h.expr _ []) fun value hvalue => meets_step meets_close fun _ => ?_
  exact meets_pure (K.namedValue hname hvalue _)

theorem meets_namedProcedure (opened : Token) :
    (namedProcedure inner opened).Meets K (counted :: forms) (K.definition forms) := by
  refine meets_step meets_advance fun _ => meets_bind (meets_identifier _) fun name hname => ?_
  refine meets_bind meets_parameters fun params hparams => ?_
  refine meets_bind (h.body _) fun body hbody => meets_step meets_close fun _ => meets_pure ?_
  exact K.namedProcedure hname hparams hbody.1 hbody.2 _

theorem meets_definition (opened : Token) :
    (definition inner opened).Meets K (counted :: forms) (K.definition forms) := by
  refine meets_step meets_advance fun _ => meets_peek_bind fun head _ => ?_
  cases head with
  | none => exact meets_fail _
  | some t =>
      dsimp only
      split
      · exact meets_namedValue h opened
      · split
        · exact meets_namedProcedure h opened
        · exact meets_fail _

/-! ## Bodies -/

theorem meets_item {expr : Parse Expr} (hexpr : expr.Meets K forms (K.expr forms)) :
    (item inner expr).Meets K forms (K.Item forms) := by
  have hlook : atDefinition.Meets K forms fun _ => True :=
    meets_peek_bind fun bracket _ => meets_peek_bind fun head _ => meets_pure trivial
  refine meets_step hlook fun found => ?_
  cases found with
  | true =>
      refine meets_map (meets_form fun opened counted => meets_definition h opened) ?_
      rintro (d | span) hd
      · exact hd
      · exact hd
  | false => exact meets_map hexpr fun e he => he

omit h in
theorem meets_items {next : Bool → Parse (Option BodyItem)}
    (hnext : ∀ started, (next started).Meets K forms fun i => ∀ item ∈ i, K.Item forms item)
    (started seen : Bool) (rounds : Nat) :
    (items next started seen rounds).Meets K forms fun found =>
      (∀ d ∈ found.1, K.definition forms d) ∧ ∀ e ∈ found.2, K.expr forms e := by
  induction rounds generalizing started seen with
  | zero => exact meets_abort _
  | succ rounds ih =>
      refine meets_bind (hnext started) fun i hi => ?_
      cases i with
      | none => exact meets_pure ⟨by simp, by simp⟩
      | some i =>
          have hi : K.Item forms i := hi i rfl
          cases i with
          | nothing => exact ih started seen
          | expression e =>
              refine meets_bind (ih true (seen || !e.isError)) fun found hfound => ?_
              exact meets_pure ⟨hfound.1, List.forall_mem_cons.2 ⟨hi, hfound.2⟩⟩
          | definition d =>
              dsimp only
              split
              -- Behind an expression, an error takes the place of the definition.
              · refine meets_note_bind _ fun herror => ?_
                refine meets_bind (ih true seen) fun found hfound => meets_pure ⟨hfound.1, ?_⟩
                exact List.forall_mem_cons.2 ⟨herror d.span, hfound.2⟩
              · refine meets_bind (ih started seen) fun found hfound => ?_
                exact meets_pure ⟨List.forall_mem_cons.2 ⟨hi, hfound.1⟩, hfound.2⟩

theorem meets_innerItem (started : Bool) :
    (innerItem inner started).Meets K forms fun i => ∀ item ∈ i, K.Item forms item := by
  refine meets_peek_bind fun head _ => ?_
  cases head with
  | none => exact meets_pure (by simp)
  | some t =>
      dsimp only
      split
      · exact meets_pure (by simp)
      · exact meets_map (meets_item h (meets_expression h _)) fun i hi => by simpa using hi

theorem meets_bracketedBody : (bracketedBody inner).Meets K forms (K.Body forms) := by
  refine meets_bind (meets_withRounds (meets_items (meets_innerItem h) false false))
    fun found hfound => ?_
  dsimp only
  split
  · rename_i b hb
    obtain ⟨hdefs, hexprs⟩ := body?_eq_some_iff.1 hb
    exact meets_pure ⟨hdefs ▸ hfound.1, hexprs ▸ hfound.2⟩
  · exact meets_fail _

end

/-- At every level of the parsers. -/
theorem meets_nested (K : Contract ctx) (level : Nat) : (nested level).Meets K := by
  induction level with
  | zero => exact ⟨fun _ _ => meets_abort _, fun _ => meets_abort _⟩
  | succ level ih => exact ⟨fun _ => meets_expression ih, fun _ => meets_bracketedBody ih⟩

/-! ## Programs -/

theorem meets_recovered {expr : Parse Expr} (h : expr.Meets K forms (K.expr forms)) :
    (recovered expr).Meets K forms (K.expr forms) := by
  rintro pos rfl hpos
  have hexpr := h pos rfl hpos
  unfold recovered
  cases he : expr ctx pos with
  | done e trace after =>
      rw [he] at hexpr
      exact hexpr
  | failed why trace after =>
      rw [he] at hexpr
      obtain ⟨hlenient, hnotes⟩ | htrace := hexpr
      · exact .behind_of_lenient hlenient hnotes
      · obtain ⟨rest, hrest, rfl⟩ := htrace.back
        have hafter : K.place (pos.moveTo rest) := K.moveTo hpos hrest
        -- What is skipped is never whole, so an error is all that can come of it.
        have hskipped : ((ofParsed <$> recover rest why : Parse Expr) ctx (pos.moveTo rest)).Meets
            K (pos.moveTo rest) (K.expr pos.forms) := by
          rw [← bind_pure_comp]
          refine meets_bind_apply (Q := K.Form pos.forms fun _ => False) hafter
            (meets_recover (K.error hpos) hafter (List.suffix_refl _)) ?_
          rintro (e | span) he
          · exact he.elim
          · exact meets_pure he
        exact hskipped.behind htrace
  | fault fault trace after =>
      rw [he] at hexpr
      exact hexpr

theorem meets_outerItem (h : inner.Meets K) (started : Bool) :
    (outerItem inner started).Meets K forms fun i => ∀ item ∈ i, K.Item forms item := by
  refine meets_peek_bind fun head _ => ?_
  cases head with
  | none => exact meets_pure (by simp)
  | some t =>
      dsimp only
      split
      · refine meets_note_bind _ fun _ => meets_step meets_advance fun _ => ?_
        exact meets_pure (by simp [Contract.Item])
      · refine meets_map (meets_item h (meets_recovered (meets_expression h []))) fun i hi => ?_
        simpa using hi

theorem meets_programOf {defs : List Definition} {exprs : List Expr}
    (hdefs : ∀ d ∈ defs, K.definition forms d) (hexprs : ∀ e ∈ exprs, K.expr forms e) :
    (programOf defs exprs).Meets K forms (K.Body forms) := by
  intro pos hforms hpos
  unfold programOf
  cases hb : body? defs exprs with
  | some b =>
      obtain ⟨rfl, rfl⟩ := body?_eq_some_iff.1 hb
      exact meets_pure ⟨hdefs, hexprs⟩ pos hforms hpos
  | none =>
      refine meets_note_bind _ ?_ pos hforms hpos
      exact fun herror => meets_pure ⟨hdefs, by simpa [Body.exprs] using herror ctx.endOfInput⟩

theorem meets_program (K : Contract ctx) : program.Meets K forms (K.Body forms) := by
  intro pos hforms hpos
  have hnext : ∀ started, (outerItem (nested pos.rest.length) started).Meets K forms
      fun i => ∀ item ∈ i, K.Item forms item := meets_outerItem (meets_nested K pos.rest.length)
  refine meets_bind (meets_withRounds (meets_items hnext false false)) ?_ pos hforms hpos
  exact fun found hfound => meets_programOf hfound.1 hfound.2

end Parse

/-- Every program keeps to the contract, unless that is lenient and something was found. -/
theorem Contract.of_ofTokens {limit : Int} {src : Source} {ts : List Token} {p : Program}
    {notes : List Diagnostic} (K : Contract (Context.ofSource limit src))
    (hts : K.place { rest := ts }) (hp : Body.ofTokens limit src ts = .ok (p, notes)) :
    (K.lenient ∧ notes ≠ []) ∨ K.Body [] p := by
  have hmeets := Parse.meets_program K { rest := ts } rfl hts
  rw [Body.ofTokens] at hp
  split at hp
  · rename_i program trace after hdone
    rw [hdone] at hmeets
    cases hp
    exact hmeets.imp id fun hkeeps => hkeeps.1
  · cases hp
  · cases hp

end SchemeFront
