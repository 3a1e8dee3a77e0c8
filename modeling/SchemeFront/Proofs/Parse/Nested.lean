import SchemeFront.Parse.Body
import SchemeFront.Proofs.Parse.Recovery

set_option autoImplicit false

/-! # Parsers of nested expressions

All parsers of expressions, definitions and bodies are tidy, whatever tokens they are given
(`Parse.nested_tidy`). The induction is on the level of nesting, which is more than the number of
tokens that are left: each form takes a token. Inside a form the argument follows the grammar, and
one rule serves the items of bodies and of programs (`Parse.items_ensures`).
-/

namespace SchemeFront

open Token

variable {P : Lexeme → Prop} {ctx : Context} {pos : Position} {d n : Nat}

/-! ## Tidy inner parsers -/

/-- The parsers for what is inside brackets are tidy where fewer than `n` tokens are left, and an
expression takes a token. -/
structure Inner.Tidy (P : Lexeme → Prop) (ctx : Context) (n : Nat) (inner : Inner) : Prop where
  expr : ∀ also pos d, Supply P n pos.rest → (inner.expr also ctx pos).Tidy P d d pos
    fun e rest => rest.length < pos.rest.length ∧ e.Mentions P
  body : ∀ pos d, Supply P n pos.rest →
    (inner.body ctx pos).Tidy P d d pos fun b _ => b.Mentions P

namespace Parse

variable {α : Type} {inner : Inner} {opened : Token}

/-! ## Parameters -/

theorem tidy_identifiers {rounds : Nat} (hs : Supply P rounds pos.rest) :
    (identifiers rounds ctx pos).Tidy P (d + 1) d pos fun _ _ => True := by
  -- The supply bounds the rounds as well: each name takes a token.
  induction rounds generalizing pos with
  | zero => exact absurd hs.length_lt (Nat.not_lt_zero _)
  | succ rounds ih =>
      rw [identifiers, nextCloses_bind_apply]
      split
      · rename_i hcloses
        obtain ⟨c, rest, hrest, hc⟩ := nextCloses_eq_true hcloses
        refine tidy_bind hs (tidy_advance hrest (passes_cons_of_closes hc d rest)
          (Q := fun _ _ => True) trivial) ?_
        intro _ _ _ _
        exact tidy_pure trivial
      · refine tidy_bind hs (tidy_identifier hs) ?_
        intro first rest hs' hlt
        have hs' : Supply P rounds rest := hs'.of_length_lt (by have := hs.length_lt; omega)
        refine tidy_bind hs' (ih hs') ?_
        intro more _ _ _
        exact tidy_pure trivial

/-- A round for each token and one more is enough. -/
theorem tidy_withRounds {p : Nat → Parse α} {e : Nat} {Q : α → List Token → Prop}
    (hs : Supply P n pos.rest)
    (hp : ∀ rounds, Supply P rounds pos.rest → (p rounds ctx pos).Tidy P d e pos Q) :
    (withRounds p ctx pos).Tidy P d e pos Q :=
  hp _ (hs.of_length_lt (Nat.lt_succ_self _))

theorem tidy_distinct {params : List Identifier} :
    (distinct params ctx pos).Tidy P d d pos fun _ _ => True := by
  rw [distinct]
  cases repeated? [] params with
  | none => exact tidy_pure trivial
  | some i => exact tidy_reject (Diagnostic.mentions_of_found?_eq_none rfl) rfl

theorem tidy_parameters (hs : Supply P n pos.rest) :
    (parameters ctx pos).Tidy P (d + 1) d pos fun _ _ => True := by
  rw [parameters]
  refine tidy_bind hs (tidy_withRounds hs fun rounds hs => tidy_identifiers hs) ?_
  intro params rest _ _
  exact tidy_distinct

theorem tidy_formals (hs : Supply P n pos.rest) :
    (formals ctx pos).Tidy P d d pos fun _ _ => True := by
  rw [formals, peek_bind_apply]
  cases hrest : pos.rest with
  | nil => exact tidy_fail hs
  | cons t rest =>
      simp only [List.getElem?_cons_zero]
      split
      · refine tidy_bind hs (tidy_identifier hs) ?_
        intro _ _ _ _
        exact tidy_pure trivial
      · split
        · rename_i ho
          refine tidy_bind hs (tidy_advance hrest (passes_cons_of_opens ho d rest)
            (Q := fun _ _ => True) trivial) ?_
          intro _ _ hs' _
          refine tidy_bind hs' (tidy_parameters hs') ?_
          intro _ _ _ _
          exact tidy_pure trivial
        · exact tidy_fail hs

/-! ## Forms of expressions -/

/-- The word that begins a form is read. -/
theorem tidy_advance_keyword {k : Keyword} (h : pos.rest[0]?.map Token.lexeme = some (.keyword k))
    (ho : k ≠ .opening) (hc : k ≠ .closing) :
    (advance ctx pos).Tidy P d d pos fun _ _ => True := by
  obtain ⟨t, rest, hrest, ht⟩ := exists_of_head h
  obtain ⟨hto, htc⟩ := not_bracket_of_keyword ht ho hc
  exact tidy_advance hrest (passes_cons_of_plain hto htc d rest) trivial

theorem tidy_alternative (h : inner.Tidy P ctx n) (hs : Supply P n pos.rest) :
    (alternative inner ctx pos).Tidy P d d pos fun alter _ => ∀ e ∈ alter, e.Mentions P := by
  rw [alternative, nextCloses_bind_apply]
  split
  · exact tidy_pure (by simp)
  · refine tidy_map ((h.expr _ pos d hs).mono ?_)
    rintro e rest ⟨-, he⟩
    simpa using he

theorem closing_conditional (h : inner.Tidy P ctx n) (hs : Supply P n pos.rest)
    (hhead : pos.rest[0]?.map Token.lexeme = some (.keyword .conditional)) :
    (conditional inner opened ctx pos).Closing P pos (Expr.Mentions P) := by
  rw [conditional]
  refine closing_bind hs (tidy_advance_keyword hhead (by decide) (by decide)) ?_
  intro _ _ hs _
  refine closing_bind hs (h.expr _ _ 0 hs) ?_
  rintro test _ hs ⟨-, htest⟩
  refine closing_bind hs (h.expr _ _ 0 hs) ?_
  rintro conseq _ hs ⟨-, hconseq⟩
  refine closing_bind hs (tidy_alternative h hs) ?_
  intro alter _ hs halter
  exact closing_close hs fun _ => Expr.mentions_conditional htest hconseq halter

theorem closing_procedure (h : inner.Tidy P ctx n) (hs : Supply P n pos.rest)
    (hhead : pos.rest[0]?.map Token.lexeme = some (.keyword .lambda)) :
    (procedure inner opened ctx pos).Closing P pos (Expr.Mentions P) := by
  rw [procedure]
  refine closing_bind hs (tidy_advance_keyword hhead (by decide) (by decide)) ?_
  intro _ _ hs _
  refine closing_bind hs (tidy_formals hs) ?_
  rintro ⟨variadic, params⟩ _ hs -
  refine closing_bind hs (h.body _ 0 hs) ?_
  intro body _ hs hbody
  exact closing_close hs fun _ => Expr.mentions_procedure hbody

theorem closing_assignment (h : inner.Tidy P ctx n) (hs : Supply P n pos.rest)
    (hhead : pos.rest[0]?.map Token.lexeme = some (.keyword .assign)) :
    (assignment inner opened ctx pos).Closing P pos (Expr.Mentions P) := by
  rw [assignment]
  refine closing_bind hs (tidy_advance_keyword hhead (by decide) (by decide)) ?_
  intro _ _ hs _
  refine closing_bind hs (tidy_identifier hs) ?_
  intro target _ hs _
  refine closing_bind hs (h.expr _ _ 0 hs) ?_
  rintro value _ hs ⟨-, hvalue⟩
  exact closing_close hs fun _ => Expr.mentions_assignment hvalue

theorem tidy_arguments (h : inner.Tidy P ctx n) {rounds : Nat} (hs : Supply P n pos.rest)
    (hrounds : pos.rest.length < rounds) :
    (arguments inner rounds ctx pos).Tidy P d d pos fun args _ => ∀ e ∈ args, e.Mentions P := by
  -- Here the rounds are counted apart from the level, which the arguments need as a whole.
  induction rounds generalizing pos with
  | zero => exact absurd hrounds (Nat.not_lt_zero _)
  | succ rounds ih =>
      rw [arguments, nextCloses_bind_apply]
      split
      · exact tidy_pure (by simp)
      · refine tidy_bind hs (h.expr _ pos d hs) ?_
        rintro first rest hs ⟨hlt, hfirst⟩
        refine tidy_bind hs (ih hs (by rw [Position.moveTo_rest]; omega)) ?_
        intro more _ _ hmore
        exact tidy_pure (by simpa using ⟨hfirst, hmore⟩)

theorem closing_call (h : inner.Tidy P ctx n) (hs : Supply P n pos.rest) :
    (call inner opened ctx pos).Closing P pos (Expr.Mentions P) := by
  rw [call]
  refine closing_bind hs (h.expr _ _ 0 hs) ?_
  rintro operator _ hs ⟨-, hoperator⟩
  refine closing_bind hs (tidy_withRounds hs fun rounds hr => tidy_arguments h hs hr.length_lt) ?_
  intro args _ hs hargs
  exact closing_close hs fun _ => Expr.mentions_call hoperator hargs

/-- A definition in the place of an expression fails at its first word. -/
theorem closing_strayDefinition (hhead : pos.rest[0]?.isSome) {Q : Expr → Prop} :
    (strayDefinition opened ctx pos).Closing P pos Q := by
  obtain ⟨word, hword⟩ := Option.isSome_iff_exists.1 hhead
  -- No token is read and the end of the input is not what was found.
  rw [strayDefinition, peek_bind_apply, hword]
  refine ⟨pos.rest, rfl, Reaches.refl 0 pos.rest, .empty, ?_, fun h => by cases h⟩
  exact Diagnostic.mentions_of_found?_eq_none rfl

/-- Whatever follows the bracket, the form it decides on is read up to its closing bracket. -/
theorem closing_formOf (pos : Position) (h : inner.Tidy P ctx n) (hs : Supply P n pos.rest) :
    ((formOf inner pos.rest[0]?).2 opened ctx pos).Closing P pos (Expr.Mentions P) := by
  unfold formOf
  split
  · rename_i hhead
    exact closing_conditional h hs hhead
  · rename_i hhead
    exact closing_procedure h hs hhead
  · rename_i hhead
    exact closing_assignment h hs hhead
  · rename_i hhead
    show (strayDefinition opened ctx pos).Closing P pos _
    refine closing_strayDefinition ?_
    cases hword : pos.rest[0]? with
    | none => simp [hword] at hhead
    | some word => rfl
  · exact closing_call h hs

theorem mentions_ofParsed {p : Parsed Expr} (h : p.Holds (Expr.Mentions P)) :
    (ofParsed p).Mentions P := by
  cases p with
  | whole e => exact h
  | broken s => exact Expr.mentions_error s

/-- A form in the place of an expression lands behind itself. -/
theorem form_formOf_lands (h : inner.Tidy P ctx n) (hs : Supply P (n + 1) pos.rest)
    {tail : List Token} (hrest : pos.rest = opened :: tail) (ho : opened.opens = true) :
    (form (formOf inner pos.rest[1]?).1 (formOf inner pos.rest[1]?).2 ctx pos).Lands P pos
      (Expr.Mentions P) := by
  have hhead : pos.rest[1]? = tail[0]? := by simp [hrest]
  refine form_lands hs hrest ho fun counted => ?_
  rw [hhead]
  exact closing_formOf (pos.enter counted tail) h (hs.tail hrest)

theorem tidy_expression (h : inner.Tidy P ctx n) (hs : Supply P (n + 1) pos.rest)
    (also : List String) :
    (expression inner also ctx pos).Tidy P d d pos
      fun e rest => rest.length < pos.rest.length ∧ e.Mentions P := by
  rw [expression, peek_bind_apply]
  cases hrest : pos.rest with
  | nil => exact tidy_fail hs
  | cons t rest =>
      obtain ⟨l, s⟩ := t
      cases l with
      | atom a =>
          -- The one place where a token of the input gets into the tree.
          refine tidy_bind hs (tidy_advance hrest (passes_cons_of_plain rfl rfl d rest)
            (Q := fun _ us => us = rest) rfl) ?_
          rintro _ _ - rfl
          refine tidy_pure ⟨by simp, Expr.mentions_atom ?_⟩
          exact hs.holds ⟨.atom a, s⟩ (by simp [hrest])
      | keyword k =>
          cases k with
          | opening =>
              have hform := (form_formOf_lands h hs hrest rfl).tidy hrest rfl d
              show (compound inner ctx pos).Tidy P d d pos _
              rw [compound, peek_bind_apply]
              refine tidy_map (hform.mono ?_)
              rintro p us ⟨hlt, hp⟩
              exact ⟨hrest ▸ hlt, mentions_ofParsed hp⟩
          | _ => exact tidy_fail hs

/-! ## Definitions -/

theorem closing_namedValue (h : inner.Tidy P ctx n) (hs : Supply P n pos.rest) :
    (namedValue inner opened ctx pos).Closing P pos (Definition.Mentions P) := by
  rw [namedValue]
  refine closing_bind hs (tidy_identifier hs) ?_
  intro name _ hs _
  refine closing_bind hs (h.expr _ _ 0 hs) ?_
  rintro value _ hs ⟨-, hvalue⟩
  exact closing_close hs fun _ => Definition.mentions_mk hvalue

theorem closing_namedProcedure (h : inner.Tidy P ctx n) (hs : Supply P n pos.rest)
    (hhead : pos.rest[0]?.any Token.opens = true) :
    (namedProcedure inner opened ctx pos).Closing P pos (Definition.Mentions P) := by
  rw [namedProcedure]
  obtain ⟨t, rest, hrest, ht⟩ : ∃ t rest, pos.rest = t :: rest ∧ t.opens = true := by
    cases hrest : pos.rest with
    | nil => simp [hrest] at hhead
    | cons t rest => exact ⟨t, rest, rfl, by simpa [hrest] using hhead⟩
  -- The header is in brackets of its own: it is read as a whole, and then the body.
  have header : ((do
      let _ ← advance
      let name ← identifier
      let params ← parameters
      return (name, params) : Parse (Identifier × List Identifier)) ctx pos).Tidy P 0 0 pos
        fun _ _ => True := by
    refine tidy_bind hs (tidy_advance hrest (passes_cons_of_opens ht 0 rest)
      (Q := fun _ _ => True) trivial) ?_
    intro _ _ hs _
    refine tidy_bind hs (tidy_identifier hs) ?_
    intro name _ hs _
    refine tidy_bind hs (tidy_parameters hs) ?_
    intro params _ _ _
    exact tidy_pure trivial
  have step := closing_bind (R := Definition.Mentions P) (g := fun header => do
      let body ← inner.body
      let closed ← close
      let span := opened.span.join closed.span
      return ⟨span, header.1, .procedure span false header.2 body⟩) hs header (by
    rintro ⟨name, params⟩ _ hs -
    refine closing_bind hs (h.body _ 0 hs) ?_
    intro body _ hs hbody
    exact closing_close hs fun _ => Definition.mentions_mk (Expr.mentions_procedure hbody))
  simpa only [bind_assoc, pure_bind] using step

/-- A definition is read up to its closing bracket. -/
theorem closing_definition (pos : Position) (h : inner.Tidy P ctx n) (hs : Supply P n pos.rest)
    (hhead : pos.rest[0]?.map Token.lexeme = some (.keyword .define)) :
    (definition inner opened ctx pos).Closing P pos (Definition.Mentions P) := by
  rw [definition]
  refine closing_bind hs (tidy_advance_keyword hhead (by decide) (by decide)) ?_
  intro _ rest hs _
  rw [peek_bind_apply, Position.moveTo_rest]
  cases rest with
  | nil => exact tidy_fail (d := 0) (e := 0) (Q := fun (_ : Definition) _ => False) hs
  | cons t rest =>
      simp only [List.getElem?_cons_zero]
      split
      · exact closing_namedValue h hs
      · split
        · rename_i ho
          exact closing_namedProcedure h hs (by simpa using ho)
        · exact tidy_fail (d := 0) (e := 0) (Q := fun (_ : Definition) _ => False) hs

/-- The form of a definition lands behind itself. -/
theorem form_definition_lands (h : inner.Tidy P ctx n) (hs : Supply P (n + 1) pos.rest)
    {tail : List Token} (hrest : pos.rest = opened :: tail) (ho : opened.opens = true)
    (hhead : tail[0]?.map Token.lexeme = some (.keyword .define)) :
    (form "definition" (definition inner) ctx pos).Lands P pos (Definition.Mentions P) := by
  refine form_lands hs hrest ho fun counted => ?_
  exact closing_definition (pos.enter counted tail) h (hs.tail hrest) hhead

/-! ## Items -/

end Parse

/-- `P` holds of the literals and variables in the item. -/
def BodyItem.Mentions (P : Lexeme → Prop) : BodyItem → Prop
  | definition d => d.Mentions P
  | expression e => e.Mentions P
  | nothing => True

namespace Parse

variable {inner : Inner}

/-- The next two tokens begin a definition if they say so. -/
theorem atDefinition_bind_apply {α : Type} (g : Bool → Parse α) :
    (atDefinition >>= g) ctx pos =
      g (pos.rest[0]?.any Token.opens && pos.rest[1]?.any (Token.isKeyword .define)) ctx pos := by
  simp [atDefinition]

/-- A definition begins with a bracket and its word. -/
theorem begins_of_atDefinition {ts : List Token}
    (h : (ts[0]?.any Token.opens && ts[1]?.any (Token.isKeyword .define)) = true) :
    ∃ opened tail, ts = opened :: tail ∧ opened.opens = true ∧
      tail[0]?.map Token.lexeme = some (.keyword .define) := by
  cases ts with
  | nil => simp at h
  | cons opened tail =>
      cases hword : tail[0]? with
      | none => simp [hword] at h
      | some word =>
          simp only [List.getElem?_cons_zero, List.getElem?_cons_succ, hword, Option.any_some,
            Bool.and_eq_true] at h
          refine ⟨opened, tail, rfl, h.1, ?_⟩
          rw [hword]
          simpa [Token.isKeyword] using h.2

theorem mentions_itemOfParsed {p : Parsed Definition} (h : p.Holds (Definition.Mentions P)) :
    (itemOfParsed p).Mentions P := by
  cases p with
  | whole d => exact h
  | broken s => exact Expr.mentions_error s

theorem tidy_item (h : inner.Tidy P ctx n) (hs : Supply P (n + 1) pos.rest) {expr : Parse Expr}
    (hexpr : (expr ctx pos).Tidy P d d pos
      fun e rest => rest.length < pos.rest.length ∧ e.Mentions P) :
    (item inner expr ctx pos).Tidy P d d pos
      fun i rest => rest.length < pos.rest.length ∧ i.Mentions P := by
  rw [item, atDefinition_bind_apply]
  split
  · rename_i hhead
    obtain ⟨opened, tail, hrest, ho, hdef⟩ := begins_of_atDefinition hhead
    refine tidy_map (((form_definition_lands h hs hrest ho hdef).tidy hrest ho d).mono ?_)
    rintro p rest ⟨hlt, hp⟩
    exact ⟨hlt, mentions_itemOfParsed hp⟩
  · exact tidy_map hexpr

/-- The rule for a sequence of items: `I` holds where an item can begin, `T` of what happens, `E`
at the end of the sequence, and each item takes a token. -/
theorem items_ensures (ctx : Context) (next : Bool → Parse (Option BodyItem))
    {I E : Position → Prop} {T : Trace → Prop} {F : Diagnostic → Position → Prop}
    (started seen : Bool) (hempty : T ∅)
    (happend : ∀ s t, T s → T t → T (s ++ t)) (hlate : ∀ s, T (.ofNote (late s)))
    (hnext : ∀ started pos, I pos → (next started ctx pos).Ensures
      (fun i trace after => T trace ∧ I after ∧ (i = none → E after) ∧
        ∀ i' ∈ i, after.rest.length < pos.rest.length ∧ i'.Mentions P)
      (fun why trace after => T trace ∧ F why after))
    {rounds : Nat} (hI : I pos) (hrounds : pos.rest.length < rounds) :
    (items next started seen rounds ctx pos).Ensures
      (fun found trace after => T trace ∧ E after ∧ (∀ d ∈ found.1, d.Mentions P) ∧
        ∀ e ∈ found.2, e.Mentions P)
      (fun why trace after => T trace ∧ F why after) := by
  -- `I` is what carries the induction: it holds again behind each item.
  induction rounds generalizing pos started seen with
  | zero => exact absurd hrounds (Nat.not_lt_zero _)
  | succ rounds ih =>
      rw [items]
      refine ensures_bind happend (hnext started pos hI) ?_
      rintro i after ⟨hI, hnone, hsome⟩
      cases i with
      | none => exact ⟨hempty, hnone rfl, by simp⟩
      | some i =>
          obtain ⟨hlt, hi⟩ := hsome i rfl
          have hlt : after.rest.length < rounds := by omega
          cases i with
          | nothing => exact ih _ _ hI hlt
          | expression e =>
              refine ensures_bind happend (ih _ _ hI hlt) ?_
              rintro ⟨defs, exprs⟩ last ⟨hE, hdefs, hexprs⟩
              exact ⟨hempty, hE, hdefs, by simpa using ⟨hi, hexprs⟩⟩
          | definition d =>
              dsimp only
              split
              · -- A definition behind an expression is recorded, and an error takes its place.
                refine ensures_bind (D := fun _ q => q = after) happend
                  ⟨hlate d.span, rfl⟩ ?_
                rintro _ _ rfl
                refine ensures_bind happend (ih _ _ hI hlt) ?_
                rintro ⟨defs, exprs⟩ last ⟨hE, hdefs, hexprs⟩
                exact ⟨hempty, hE, hdefs, by simpa using ⟨Expr.mentions_error d.span, hexprs⟩⟩
              · refine ensures_bind happend (ih _ _ hI hlt) ?_
                rintro ⟨defs, exprs⟩ last ⟨hE, hdefs, hexprs⟩
                exact ⟨hempty, hE, by simpa using ⟨hi, hdefs⟩, hexprs⟩

/-! ## Bodies -/

theorem tidy_innerItem (pos : Position) (h : inner.Tidy P ctx n) (hs : Supply P (n + 1) pos.rest)
    (started : Bool) :
    (innerItem inner started ctx pos).Tidy P d d pos fun i rest =>
      ∀ i' ∈ i, rest.length < pos.rest.length ∧ i'.Mentions P := by
  rw [innerItem, peek_bind_apply]
  cases pos.rest[0]? with
  | none => exact tidy_pure (by simp)
  | some t =>
      dsimp only
      split
      · exact tidy_pure (by simp)
      · refine tidy_map ((tidy_item h hs (tidy_expression h hs _)).mono ?_)
        intro i rest hi
        simpa using hi

/-- A body is made of the definitions and expressions that were found. -/
theorem mentions_body? {defs : List Definition} {exprs : List Expr} {body : Body}
    (hbody : body? defs exprs = some body) (hdefs : ∀ d ∈ defs, d.Mentions P)
    (hexprs : ∀ e ∈ exprs, e.Mentions P) : body.Mentions P := by
  obtain ⟨last, hlast, rfl⟩ := Option.map_eq_some_iff.1 hbody
  refine Body.mentions_mk hdefs ?_ (hexprs last (List.mem_of_getLast? hlast))
  intro e he
  exact hexprs e (exprs.dropLast_subset he)

theorem tidy_bracketedBody (h : inner.Tidy P ctx n) (hs : Supply P (n + 1) pos.rest) :
    (bracketedBody inner ctx pos).Tidy P d d pos fun b _ => b.Mentions P := by
  rw [bracketedBody]
  -- Tidiness is about where the body begins, so the places between items are said from there.
  have sorted : (allItems (innerItem inner) ctx pos).Tidy P d d pos fun found _ =>
      (∀ d ∈ found.1, d.Mentions P) ∧ ∀ e ∈ found.2, e.Mentions P := by
    have key := items_ensures (P := P) ctx (innerItem inner)
      (I := fun q => ∃ rest, q = pos.moveTo rest ∧ Passes d d pos.rest rest)
      (E := fun q => ∃ rest, q = pos.moveTo rest ∧ Passes d d pos.rest rest)
      (T := fun trace => trace.Within P d pos.rest)
      (F := fun why q => ∃ rest, q = pos.moveTo rest ∧ Reaches d pos.rest rest ∧
        why.Mentions P ∧ (why.atEnd = true → rest = []))
      false false .empty (fun _ _ => .append)
      (fun s => .ofNote (Diagnostic.mentions_of_found?_eq_none rfl)) (by
        rintro started q ⟨rest, rfl, hpass⟩
        have hitem := (tidy_innerItem (d := d) (pos.moveTo rest) h
          (hs.of_suffix hpass.suffix) started).behind hpass Trace.Within.empty
        rw [Reply.behind_empty] at hitem
        refine Reply.Ensures.mono hitem ?_ ?_
        · rintro i trace after ⟨us, rfl, hus, htrace, hi⟩
          exact ⟨htrace, ⟨us, rfl, hus⟩, fun _ => ⟨us, rfl, hus⟩, hi⟩
        · rintro why trace after ⟨us, hafter, hus, htrace, hwhy⟩
          exact ⟨htrace, us, hafter, hus, hwhy⟩)
      ⟨pos.rest, rfl, Passes.refl d pos.rest⟩ (Nat.lt_succ_self _)
    refine key.mono ?_ ?_
    · rintro found trace after ⟨htrace, ⟨rest, hafter, hpass⟩, hfound⟩
      exact ⟨rest, hafter, hpass, htrace, hfound⟩
    · rintro why trace after ⟨htrace, rest, hafter, hreach, hwhy⟩
      exact ⟨rest, hafter, hreach, htrace, hwhy⟩
  refine tidy_bind hs sorted ?_
  rintro ⟨defs, exprs⟩ rest hs ⟨hdefs, hexprs⟩
  dsimp only
  cases hbody : body? defs exprs with
  | none => exact tidy_fail hs
  | some body => exact tidy_pure (mentions_body? hbody hdefs hexprs)

/-! ## All levels -/

/-- At a level above the number of tokens, all parsers are tidy. -/
theorem nested_tidy (ctx : Context) (n : Nat) : (nested n).Tidy P ctx n := by
  induction n with
  | zero =>
      constructor
      · intro also pos d hs
        exact absurd hs.length_lt (Nat.not_lt_zero _)
      · intro pos d hs
        exact absurd hs.length_lt (Nat.not_lt_zero _)
  | succ n ih =>
      constructor
      · intro also pos d hs
        exact tidy_expression ih hs also
      · intro pos d hs
        exact tidy_bracketedBody ih hs

end Parse

end SchemeFront
