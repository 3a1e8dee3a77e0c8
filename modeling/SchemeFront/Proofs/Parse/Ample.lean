import SchemeFront.Proofs.Parse.Acceptance

set_option autoImplicit false

/-! # Where there are levels enough

Which brackets count as levels, and how many levels are allowed, only decides whether a form is
refused. So what is parsed without findings at some tokens is parsed from the same tokens wherever
there may be as many levels as there are tokens (`Parse.Steady`). The rules follow the parsers. It
follows that whatever tokens are accepted have a derivation (`Body.derives_of_ofTokens`), and that
tokens with a derivation are accepted if enough levels are allowed (`Body.ofTokens_of_derives`).
-/

namespace SchemeFront

open Token

variable {α β : Type} {ctx : Context} {pos : Position}

/-- Each of the tokens that are left could open a level. -/
def Position.Ample (ctx : Context) (pos : Position) : Prop :=
  pos.depth + pos.rest.length ≤ ctx.limit

theorem Position.Ample.moveTo {rest : List Token} (h : pos.Ample ctx)
    (hle : rest.length ≤ pos.rest.length) : (pos.moveTo rest).Ample ctx := by
  unfold Ample at *
  simp only [Position.moveTo_depth, Position.moveTo_rest]
  omega

theorem Position.Ample.enter {t : Token} {ts : List Token} (h : pos.Ample ctx)
    (hrest : pos.rest = t :: ts) (counted : Bool) : (pos.enter counted ts).Ample ctx := by
  unfold Ample at *
  rw [hrest, List.length_cons] at h
  cases counted <;> simp only [Position.enter, if_true, Bool.false_eq_true, if_false] <;> omega

namespace Parse

/-- What the parser yields, it yields from the same tokens in every other context and place where
there are levels enough, and it never reads backwards. -/
def Steady (p : Parse α) : Prop :=
  ∀ ctx pos a after, Yields p ctx pos a after → after.rest.length ≤ pos.rest.length ∧
    ∀ ctx' pos', pos'.rest = pos.rest → pos'.Ample ctx' →
      Yields p ctx' pos' a (pos'.moveTo after.rest)

/-! ## Steps -/

theorem Steady.of_refuses {p : Parse α} (h : ∀ ctx pos, Refuses p ctx pos) : Steady p :=
  fun ctx pos a after hy => absurd hy (h ctx pos a after)

theorem steady_pure (a : α) : Steady (pure a : Parse α) := by
  rintro ctx pos b after ⟨trace, hdone, -⟩
  cases hdone
  exact ⟨Nat.le_refl _, fun ctx' pos' hrest _ => ⟨∅, by rw [← hrest]; rfl, rfl⟩⟩

theorem steady_bind {p : Parse α} {g : α → Parse β} (hp : Steady p) (hg : ∀ a, Steady (g a)) :
    Steady (p >>= g) := by
  intro ctx pos b last hy
  obtain ⟨a, mid, hpa, hgb⟩ := yields_bind_iff.1 hy
  obtain ⟨hmid, hfirst⟩ := hp _ _ _ _ hpa
  obtain ⟨hlast, hmore⟩ := hg a _ _ _ _ hgb
  refine ⟨Nat.le_trans hlast hmid, fun ctx' pos' hrest hample => ?_⟩
  -- The second parser starts elsewhere in the two runs, but at the same tokens.
  have hroom : (pos'.moveTo mid.rest).Ample ctx' := hample.moveTo (by rw [hrest]; exact hmid)
  exact yields_bind_iff.2 ⟨a, _, hfirst ctx' pos' hrest hample, hmore ctx' _ rfl hroom⟩

theorem steady_map {p : Parse α} (f : α → β) (hp : Steady p) : Steady (f <$> p) := by
  rw [← bind_pure_comp]
  exact steady_bind hp fun a => steady_pure (f a)

theorem steady_peek (i : Nat) : Steady (peek i) := by
  rintro ctx pos a after ⟨trace, hdone, -⟩
  cases hdone
  refine ⟨Nat.le_refl _, fun ctx' pos' hrest _ => ⟨∅, ?_, rfl⟩⟩
  rw [peek, hrest, ← hrest]
  rfl

theorem steady_advance : Steady advance := by
  rintro ctx pos t after ⟨trace, hdone, -⟩
  cases hrest : pos.rest with
  | nil => simp [advance, hrest] at hdone
  | cons u us =>
      simp only [advance, hrest] at hdone
      cases hdone
      refine ⟨by simp, fun ctx' pos' hrest' _ => ?_⟩
      exact ⟨.ofPosition (pos'.moveTo us), by simp only [advance, hrest']; rfl, rfl⟩

theorem steady_fail (expected : List String) : Steady (fail expected : Parse α) :=
  .of_refuses fun _ _ => refuses_fail expected

theorem steady_abort (fault : Fault) : Steady (abort fault : Parse α) := by
  rintro ctx pos a after ⟨trace, hdone, -⟩
  cases hdone

theorem steady_note_bind (d : Diagnostic) (g : Unit → Parse α) : Steady (note d >>= g) :=
  .of_refuses fun _ _ => refuses_note_bind d g

theorem steady_nextCloses : Steady nextCloses :=
  steady_bind (steady_peek 0) fun t => steady_pure (t.any Token.closes)

theorem steady_close : Steady close := by
  refine steady_bind steady_nextCloses fun closes => ?_
  cases closes with
  | true => exact steady_advance
  | false => exact steady_fail _

theorem steady_identifier (also : List String) : Steady (identifier also) := by
  refine steady_bind (steady_peek 0) fun head => ?_
  split
  · exact steady_bind steady_advance fun t => steady_pure _
  · exact steady_fail _

theorem steady_withRounds {p : Nat → Parse α} (h : ∀ rounds, Steady (p rounds)) :
    Steady (withRounds p) := by
  intro ctx pos a after hy
  obtain ⟨hle, hmore⟩ := h _ _ _ _ _ hy
  refine ⟨hle, fun ctx' pos' hrest hample => ?_⟩
  unfold Yields withRounds
  rw [hrest]
  exact hmore ctx' pos' hrest hample

/-- A form is not refused where there are levels enough. -/
theorem steady_form {construct : String} {inner : Token → Parse α}
    (h : ∀ opened, Steady (inner opened)) : Steady (form construct inner) := by
  intro ctx pos p last hy
  cases hrest : pos.rest with
  | nil =>
      obtain ⟨trace, hdone, -⟩ := hy
      simp [form, hrest] at hdone
  | cons opened tail =>
      obtain ⟨-, a, after, rfl, hinner, rfl⟩ := (yields_form_iff hrest).1 hy
      obtain ⟨hle, hmore⟩ := h opened _ _ _ _ hinner
      refine ⟨Nat.le_succ_of_le hle, fun ctx' pos' hrest' hample => ?_⟩
      refine (yields_form_iff hrest').2 ⟨?_, a, _, rfl,
        hmore ctx' (pos'.enter (ctx'.counts pos' opened) tail) rfl (hample.enter hrest' _),
        (Position.leave_moveTo_enter ..).symm⟩
      -- The limit is not reached, as the bracket of the form is still among the tokens left.
      rintro ⟨-, hlimit⟩
      rw [Position.Ample, hrest', List.length_cons] at hample
      omega

/-! ## Expressions -/

theorem steady_identifiers (rounds : Nat) : Steady (identifiers rounds) := by
  induction rounds with
  | zero => exact steady_abort _
  | succ rounds ih =>
      refine steady_bind steady_nextCloses fun closes => ?_
      cases closes with
      | true => exact steady_bind steady_advance fun _ => steady_pure _
      | false =>
          refine steady_bind (steady_identifier _) fun first => ?_
          exact steady_bind ih fun more => steady_pure _

theorem steady_parameters : Steady parameters := by
  refine steady_bind (steady_withRounds steady_identifiers) fun params => ?_
  unfold distinct
  split
  · exact .of_refuses fun _ _ => refuses_reject _
  · exact steady_pure _

theorem steady_formals : Steady formals := by
  refine steady_bind (steady_peek 0) fun head => ?_
  cases head with
  | none => exact steady_fail _
  | some t =>
      dsimp only
      split
      · exact steady_bind (steady_identifier _) fun name => steady_pure _
      · split
        · refine steady_bind steady_advance fun _ => ?_
          exact steady_bind steady_parameters fun names => steady_pure _
        · exact steady_fail _

/-- The parsers for what is inside of forms are steady. -/
structure IsSteadyInner (inner : Inner) : Prop where
  expr : ∀ also, Steady (inner.expr also)
  body : Steady inner.body

variable {inner : Inner} (h : IsSteadyInner inner)

include h

theorem steady_alternative : Steady (alternative inner) := by
  refine steady_bind steady_nextCloses fun closes => ?_
  cases closes with
  | true => exact steady_pure none
  | false => exact steady_map some (h.expr [")"])

theorem steady_conditional (opened : Token) : Steady (conditional inner opened) := by
  refine steady_bind steady_advance fun _ => steady_bind (h.expr []) fun test => ?_
  refine steady_bind (h.expr []) fun conseq => steady_bind (steady_alternative h) fun alter => ?_
  exact steady_bind steady_close fun closed => steady_pure _

theorem steady_procedure (opened : Token) : Steady (procedure inner opened) := by
  refine steady_bind steady_advance fun _ => steady_bind steady_formals fun params => ?_
  exact steady_bind h.body fun body => steady_bind steady_close fun closed => steady_pure _

theorem steady_assignment (opened : Token) : Steady (assignment inner opened) := by
  refine steady_bind steady_advance fun _ => steady_bind (steady_identifier _) fun target => ?_
  exact steady_bind (h.expr []) fun value => steady_bind steady_close fun closed => steady_pure _

theorem steady_arguments (rounds : Nat) : Steady (arguments inner rounds) := by
  induction rounds with
  | zero => exact steady_abort _
  | succ rounds ih =>
      refine steady_bind steady_nextCloses fun closes => ?_
      cases closes with
      | true => exact steady_pure []
      | false =>
          refine steady_bind (h.expr [")"]) fun first => ?_
          exact steady_bind ih fun more => steady_pure _

theorem steady_call (opened : Token) : Steady (call inner opened) := by
  refine steady_bind (h.expr []) fun operator => ?_
  refine steady_bind (steady_withRounds (steady_arguments h)) fun args => ?_
  exact steady_bind steady_close fun closed => steady_pure _

theorem steady_formOf (head : Option Token) (opened : Token) :
    Steady ((formOf inner head).2 opened) := by
  unfold formOf
  split
  · exact steady_conditional h opened
  · exact steady_procedure h opened
  · exact steady_assignment h opened
  · exact .of_refuses fun _ _ => refuses_strayDefinition opened
  · exact steady_call h opened

theorem steady_compound : Steady (compound inner) := by
  refine steady_bind (steady_peek 1) fun head => ?_
  exact steady_map ofParsed (steady_form (steady_formOf h head))

theorem steady_expression (also : List String) : Steady (expression inner also) := by
  refine steady_bind (steady_peek 0) fun head => ?_
  split
  · exact steady_bind steady_advance fun _ => steady_pure _
  · exact steady_compound h
  · exact steady_fail _

/-! ## Bodies -/

theorem steady_namedValue (opened : Token) : Steady (namedValue inner opened) := by
  refine steady_bind (steady_identifier _) fun name => steady_bind (h.expr []) fun value => ?_
  exact steady_bind steady_close fun closed => steady_pure _

theorem steady_namedProcedure (opened : Token) : Steady (namedProcedure inner opened) := by
  refine steady_bind steady_advance fun _ => steady_bind (steady_identifier _) fun name => ?_
  refine steady_bind steady_parameters fun params => steady_bind h.body fun body => ?_
  exact steady_bind steady_close fun closed => steady_pure _

theorem steady_definition (opened : Token) : Steady (definition inner opened) := by
  refine steady_bind steady_advance fun _ => steady_bind (steady_peek 0) fun head => ?_
  cases head with
  | none => exact steady_fail _
  | some t =>
      dsimp only
      split
      · exact steady_namedValue h opened
      · split
        · exact steady_namedProcedure h opened
        · exact steady_fail _

theorem steady_item {expr : Parse Expr} (hexpr : Steady expr) : Steady (item inner expr) := by
  have hat : Steady atDefinition :=
    steady_bind (steady_peek 0) fun bracket => steady_bind (steady_peek 1) fun head => steady_pure _
  refine steady_bind hat fun found => ?_
  cases found with
  | true => exact steady_map itemOfParsed (steady_form (steady_definition h))
  | false => exact steady_map BodyItem.expression hexpr

omit h in
theorem steady_items {next : Bool → Parse (Option BodyItem)}
    (hnext : ∀ started, Steady (next started)) (started seen : Bool) (rounds : Nat) :
    Steady (items next started seen rounds) := by
  induction rounds generalizing started seen with
  | zero => exact steady_abort _
  | succ rounds ih =>
      refine steady_bind (hnext started) fun i => ?_
      cases i with
      | none => exact steady_pure _
      | some i =>
          cases i with
          | nothing => exact ih started seen
          | expression e => exact steady_bind (ih true _) fun found => steady_pure _
          | definition d =>
              dsimp only
              split
              · exact steady_note_bind _ _
              · exact steady_bind (ih started seen) fun found => steady_pure _

theorem steady_innerItem (started : Bool) : Steady (innerItem inner started) := by
  refine steady_bind (steady_peek 0) fun head => ?_
  cases head with
  | none => exact steady_pure none
  | some t =>
      dsimp only
      split
      · exact steady_pure none
      · exact steady_map some (steady_item h (steady_expression h _))

theorem steady_bracketedBody : Steady (bracketedBody inner) := by
  refine steady_bind (steady_withRounds (steady_items (steady_innerItem h) false false))
    fun found => ?_
  dsimp only
  split
  · exact steady_pure _
  · exact steady_fail _

omit h in
/-- At every level. -/
theorem isSteadyInner_nested (level : Nat) : IsSteadyInner (nested level) := by
  induction level with
  | zero => exact ⟨fun _ => steady_abort _, steady_abort _⟩
  | succ level ih => exact ⟨steady_expression ih, steady_bracketedBody ih⟩

/-! ## Programs -/

theorem steady_outerItem (started : Bool) : Steady (outerItem inner started) := by
  refine steady_bind (steady_peek 0) fun head => ?_
  cases head with
  | none => exact steady_pure none
  | some t =>
      dsimp only
      split
      · exact steady_note_bind _ _
      · refine steady_map some (steady_item h fun ctx pos e after hy => ?_)
        simp only [yields_recovered_iff] at hy ⊢
        exact steady_expression h [] ctx pos e after hy

omit h in
theorem steady_programOf (defs : List Definition) (exprs : List Expr) :
    Steady (programOf defs exprs) := by
  intro ctx pos p after hy
  unfold Yields programOf at hy ⊢
  cases hb : body? defs exprs with
  | some b =>
      simp only [hb] at hy ⊢
      exact steady_pure b ctx pos p after hy
  | none =>
      simp only [hb] at hy
      exact absurd hy (refuses_note_bind _ _ p after)

omit h in
/-- A program has parsers for as many levels as there are tokens, wherever it stands. -/
theorem steady_program : Steady program := by
  intro ctx pos p after hy
  have heq : ∀ ctx' pos', pos'.rest = pos.rest → program ctx' pos' =
      (allItems (outerItem (nested pos.rest.length)) >>= fun found =>
        programOf found.1 found.2) ctx' pos' := by
    intro ctx' pos' hrest
    unfold program
    rw [hrest]
  have hsteady : Steady (allItems (outerItem (nested pos.rest.length)) >>= fun found =>
      programOf found.1 found.2) :=
    steady_bind (steady_withRounds
      (steady_items (steady_outerItem (isSteadyInner_nested pos.rest.length)) false false))
      fun found => steady_programOf found.1 found.2
  rw [Yields, heq ctx pos rfl] at hy
  obtain ⟨hle, hmore⟩ := hsteady ctx pos p after hy
  refine ⟨hle, fun ctx' pos' hrest hample => ?_⟩
  rw [Yields, heq ctx' pos' hrest]
  exact hmore ctx' pos' hrest hample

end Parse

/-! ## Any tokens -/

namespace Body

variable {limit : Int} {src : Source} {ts : List Token} {p : Program} {n : Nat}

/-- Whatever tokens are a program without findings have a derivation. -/
theorem derives_of_ofTokens (h : ofTokens limit src ts = .ok (p, [])) :
    DerivesBody ts.length ts p := by
  obtain ⟨after, hy⟩ := ofTokens_eq_ok_iff_yields.1 h
  -- The grammar counts every bracket as a level, wherever its token stands.
  have hcounting := (Parse.steady_program _ _ _ _ hy).2 (Context.counting ts.length)
    { rest := ts } rfl (by simp [Position.Ample, Context.counting])
  exact (Parse.exists_yields_program_iff _ (Context.room_counting _ ts)).1 ⟨_, hcounting⟩

/-- Tokens with a derivation are a program without findings, in any source and wherever they stand,
if as many levels are allowed as there are tokens. -/
theorem ofTokens_of_derives (h : DerivesBody n ts p) (limit : Int) (src : Source)
    (hlimit : ts.length ≤ limit) : ofTokens limit src ts = .ok (p, []) := by
  obtain ⟨after, hy⟩ := (Parse.exists_yields_program_iff { rest := ts }
    (Context.room_counting n ts)).2 h
  have hsource := (Parse.steady_program _ _ _ _ hy).2 (Context.ofSource limit src) { rest := ts }
    rfl (by simpa [Position.Ample, Context.ofSource] using hlimit)
  exact ofTokens_eq_ok_iff_yields.2 ⟨_, hsource⟩

end Body

end SchemeFront
