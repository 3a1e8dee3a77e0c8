import SchemeFront.Proofs.Parse.Contract

set_option autoImplicit false

/-! # Levels of programs

Forms that do not count as levels cannot nest without bound. The open forms and those that are
nested in what is read inside them (`Expr.levels`, `Body.levels`) are together at most twice as many
as the limit allows levels. This is a contract (`Contract.levels`) of parsers that begin at places
within the limit, so it holds of programs, outside of which nothing is open.
-/

namespace SchemeFront

/-! ## Forms in programs -/

/-- The definition is written as one form with the parameters behind the name: the procedure stands
where the definition does. -/
def Definition.isShorthand : Definition → Bool
  | ⟨s, _, .procedure t false _ _⟩ => t == s
  | _ => false

mutual

/-- How many forms are nested in an expression, itself included. -/
def Expr.levels : Expr → Nat
  | .call _ f args => max (Expr.levels f) (Expr.levelsAll args) + 1
  | .atom _ _ => 0
  | .procedure _ _ _ body => Body.levels body + 1
  | .conditional _ t c none => max (Expr.levels t) (Expr.levels c) + 1
  | .conditional _ t c (some a) => max (max (Expr.levels t) (Expr.levels c)) (Expr.levels a) + 1
  | .assignment _ _ e => Expr.levels e + 1
  | .error _ => 0

/-- The most forms that are nested in an expression of a list. -/
def Expr.levelsAll : List Expr → Nat
  | [] => 0
  | e :: es => max (Expr.levels e) (Expr.levelsAll es)

/-- How many forms are nested in a definition, itself included. -/
def Definition.levels : Definition → Nat
  | ⟨s, i, e⟩ => if Definition.isShorthand ⟨s, i, e⟩ then Expr.levels e else Expr.levels e + 1

/-- The most forms that are nested in a definition of a list. -/
def Definition.levelsAll : List Definition → Nat
  | [] => 0
  | d :: ds => max (Definition.levels d) (Definition.levelsAll ds)

/-- The most forms that are nested in a part of a body. -/
def Body.levels : Body → Nat
  | ⟨ds, es, e⟩ => max (max (Definition.levelsAll ds) (Expr.levelsAll es)) (Expr.levels e)

end

theorem Expr.levelsAll_le_iff {es : List Expr} {n : Nat} :
    Expr.levelsAll es ≤ n ↔ ∀ e ∈ es, e.levels ≤ n := by
  induction es with
  | nil => simp [levelsAll]
  | cons e es ih => rw [levelsAll, Nat.max_le, ih, List.forall_mem_cons]

theorem Definition.levelsAll_le_iff {ds : List Definition} {n : Nat} :
    Definition.levelsAll ds ≤ n ↔ ∀ d ∈ ds, d.levels ≤ n := by
  induction ds with
  | nil => simp [levelsAll]
  | cons d ds ih => rw [levelsAll, Nat.max_le, ih, List.forall_mem_cons]

theorem Body.levels_le_iff {b : Body} {n : Nat} :
    b.levels ≤ n ↔ (∀ d ∈ b.defs, d.levels ≤ n) ∧ ∀ e ∈ b.exprs, e.levels ≤ n := by
  obtain ⟨ds, es, e⟩ := b
  rw [levels, Nat.max_le, Nat.max_le, Definition.levelsAll_le_iff, Expr.levelsAll_le_iff, exprs,
    List.forall_mem_append, List.forall_mem_singleton, and_assoc]

/-- A definition has at most one form more than its value. -/
theorem Definition.levels_le (s : Span) (name : Identifier) (value : Expr) :
    (Definition.mk s name value).levels ≤ value.levels + 1 := by
  rw [levels]
  split <;> omega

/-- A definition that is written as one form counts once. -/
theorem Definition.levels_shorthand (s : Span) (name : Identifier) (params : List Identifier)
    (body : Body) :
    (Definition.mk s name (.procedure s false params body)).levels = body.levels + 1 := by
  rw [levels, if_pos (by simp [isShorthand]), Expr.levels]

/-- With `m` forms around it, there is room for a body if there is for all of its parts. -/
theorem Body.add_levels_le {b : Body} {m n : Nat} (hdefs : ∀ d ∈ b.defs, m + d.levels ≤ n)
    (hexprs : ∀ e ∈ b.exprs, m + e.levels ≤ n) : m + b.levels ≤ n := by
  have hlast : m + b.last.levels ≤ n := hexprs b.last (by simp [exprs])
  have hle : b.levels ≤ n - m :=
    levels_le_iff.2 ⟨fun d hd => Nat.le_sub_of_add_le' (hdefs d hd),
      fun e he => Nat.le_sub_of_add_le' (hexprs e he)⟩
  omega

/-! ## Forms around programs -/

/-- The forms that are nested and those around them are at most twice as many as there may be
levels. -/
def Contract.levels (ctx : Context) : Contract ctx where
  place pos := pos.Bounded ctx.limit
  lenient := False
  name _ := True
  expr forms e := forms.length + e.levels ≤ 2 * ctx.limit.toNat
  definition forms d := forms.length + d.levels ≤ 2 * ctx.limit.toNat
  moveTo hpos _ := hpos.moveTo _
  enter hpos _ hdeep := hpos.enter hdeep _
  name_of_mem _ _ _ _ := trivial
  atom hpos _ _ _ := by
    have hlength := hpos.length_le
    rw [Expr.levels]
    omega
  error hpos _ _ := by
    have hlength := hpos.length_le
    rw [Expr.levels]
    omega
  conditional {forms counted test conseq alter} htest hconseq halter s := by
    rw [List.length_cons] at htest hconseq halter
    cases alter with
    | none =>
        rw [Expr.levels]
        omega
    | some a =>
        have ha := halter a rfl
        rw [Expr.levels]
        omega
  procedure {forms counted variadic params body} _ _ hdefs hexprs s := by
    have hbody := Body.add_levels_le hdefs hexprs
    rw [List.length_cons] at hbody
    rw [Expr.levels]
    omega
  assignment {forms counted target value} _ hvalue s := by
    rw [List.length_cons] at hvalue
    rw [Expr.levels]
    omega
  call {forms counted operator args} hoperator hargs s := by
    rw [List.length_cons] at hoperator hargs
    have hall : Expr.levelsAll args ≤ 2 * ctx.limit.toNat - (forms.length + 1) :=
      Expr.levelsAll_le_iff.2 fun e he => Nat.le_sub_of_add_le' (hargs e he)
    rw [Expr.levels]
    omega
  namedValue {forms counted i value} _ hvalue s := by
    have hle := Definition.levels_le s i value
    rw [List.length_cons] at hvalue
    omega
  namedProcedure {forms counted i params body} _ _ hdefs hexprs s := by
    have hbody := Body.add_levels_le hdefs hexprs
    rw [List.length_cons] at hbody
    rw [Definition.levels_shorthand]
    omega

/-- **Forms do not nest without bound.** Whatever the tokens are, and whether the parser ends with a
program or a fault, it takes steps on places that are within the limit, where at most twice as many
forms are open as there may be levels. So no more than these are nested in a program it gives. -/
theorem Parse.forms_bounded {limit : Int} (hlimit : 0 ≤ limit) (src : Source) (ts : List Token) :
    (∃ after, Position.Run (Context.ofSource limit src) { rest := ts }
      (program (Context.ofSource limit src) { rest := ts }).places after) ∧
    (∀ q ∈ { rest := ts } :: (program (Context.ofSource limit src) { rest := ts }).places,
      q.Bounded limit ∧ (q.forms.length : Int) ≤ 2 * limit) ∧
    ∀ p notes, Body.ofTokens limit src ts = .ok (p, notes) → (p.levels : Int) ≤ 2 * limit := by
  have houtside : Position.Bounded limit { rest := ts } := Position.bounded_outside hlimit ts
  have hmeets := meets_program (Contract.levels (Context.ofSource limit src)) _ rfl houtside
  obtain ⟨hlenient, -⟩ | hkeeps := hmeets
  · exact hlenient.elim
  refine ⟨⟨_, hkeeps.run⟩, ?_, ?_⟩
  · intro q hq
    have hbounded : q.Bounded limit := hkeeps.run.bounded houtside q hq
    exact ⟨hbounded, hbounded.length_le⟩
  · intro p notes hp
    obtain ⟨hlenient, -⟩ | hbody :=
      (Contract.levels (Context.ofSource limit src)).of_ofTokens houtside hp
    · exact hlenient.elim
    have hlevels : 0 + p.levels ≤ 2 * limit.toNat := Body.add_levels_le hbody.1 hbody.2
    omega

/-- Brackets none of which is written in the source: with one level allowed, two forms are open at
once, and as many are nested in the program. -/
theorem Parse.forms_bounded_unwritten :
    ∃ src ts p, (0 : Int) ≤ 1 ∧
      ts.map Token.lexeme = [.keyword .opening, .keyword .opening, .atom (.ident "f"),
        .keyword .closing, .keyword .closing] ∧
      (∀ t ∈ ts, (Context.ofSource 1 src).written t = false) ∧
      Body.ofTokens 1 src ts = .ok (p, []) ∧
      p.levels = 2 ∧ (p.levels : Int) ≤ 2 * 1 := by
  let src : Source := ⟨"a.scm", "begin".toList⟩
  let ts : List Token :=
    [⟨.keyword .opening, Span.point "a.scm" 0⟩, ⟨.keyword .opening, Span.point "a.scm" 0⟩,
      ⟨.atom (.ident "f"), Span.point "a.scm" 0⟩, ⟨.keyword .closing, Span.point "a.scm" 0⟩,
      ⟨.keyword .closing, Span.point "a.scm" 0⟩]
  have hlimit : (0 : Int) ≤ 1 := by decide
  obtain ⟨p, hp, hlevels⟩ : ∃ p, Body.ofTokens 1 src ts = .ok (p, []) ∧ p.levels = 2 :=
    ⟨_, rfl, rfl⟩
  exact ⟨src, ts, p, hlimit, rfl, by decide, hp, hlevels, (forms_bounded hlimit src ts).2.2 p [] hp⟩

end SchemeFront
