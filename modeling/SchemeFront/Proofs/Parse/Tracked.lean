import SchemeFront.Proofs.Parse.Tracking

set_option autoImplicit false

/-! # Programs tracked by the grammar

What could follow in a program is tracked through all parsers. An expression can be told from what
else could stand in its place by its first token, or by the word behind its bracket (`Barred`,
`BarredForm`), so behind it just that is left which could follow an expression. So the first finding
about a program is truthful for bodies (`Parse.tracks_program`).
-/

namespace SchemeFront

open Token Phrase

variable {ctx : Context} {pos : Position} {K L M S : TokenLanguage} {t o : Token}
  {ts us : List Token} {also : List String}

/-! ## Telling phrases apart -/

/-- No token list in `S` begins with the next token. -/
def Barred (S : TokenLanguage) (ts : List Token) : Prop :=
  ∀ t us, ts = t :: us → S.leftQuotient [t] = 0

/-- No token list in `S` begins with the next token, or if this is a bracket, with it and the token
behind it. -/
def BarredForm (S : TokenLanguage) (ts : List Token) : Prop :=
  ∀ t us, ts = t :: us → (t.opens = false → S.leftQuotient [t] = 0) ∧
    (t.opens = true → Barred (S.leftQuotient [t]) us)

theorem barred_cons : Barred S (t :: ts) ↔ S.leftQuotient [t] = 0 := by
  constructor
  · exact fun h => h t ts rfl
  · rintro h t' us ⟨⟩
    exact h

theorem barred_zero (ts : List Token) : Barred 0 ts := fun _ _ _ => rfl

theorem Barred.barredForm (h : Barred S ts) : BarredForm S ts := by
  intro t us hts
  refine ⟨fun _ => h t us hts, ?_⟩
  intro _ w vs _
  rw [h t us hts]
  rfl

/-- Where no bracket is closed, nothing that is to be closed could follow. -/
theorem barred_closing (h : ts[0]?.any Token.closes = false) (K : TokenLanguage) :
    Barred (word .closing * K) ts := by
  rintro t us rfl
  have ht : t.lexeme ≠ .keyword .closing := by
    intro ht
    simp [closes, isKeyword, ht] at h
  simp [ht]

theorem alternative_closing (hK : Live K) : ∀ s ∈ [")"], Alternative (word .closing * K) s :=
  List.forall_mem_singleton.2 (alternative_mul instances_closing hK)

/-- The closing bracket that is due is there. -/
theorem closable_of_closes (h : ts[0]?.any Token.closes = true)
    (hL : ∀ c : Token, c.lexeme = .keyword .closing → L.leftQuotient [c] = K) :
    Closable K ts L := by
  obtain ⟨c, rest, rfl, hc⟩ := Parse.nextCloses_eq_true h
  exact .here hc (hL c (eq_of_beq hc))

/-- A name is no keyword. -/
theorem Token.lexeme_ne_of_name? (h : t.name?.isSome = true) (k : Keyword) :
    t.lexeme ≠ .keyword k := by
  intro ht
  simp [Token.name?, Lexeme.name?, ht] at h

namespace Parse

/-! ## Names -/

theorem tracks_identifier (hK : Live K) (hS : Barred S pos.rest)
    (halso : ∀ s ∈ also, Alternative S s) :
    (identifier also ctx pos).Tracks (name * K + S) pos (Leaves K) := by
  rw [identifier, peek_bind_apply]
  cases hrest : pos.rest with
  | nil => exact tracks_fail_nil hrest
  | cons t us =>
      rw [hrest, barred_cons] at hS
      simp only [List.getElem?_cons_zero, Option.bind_some]
      cases hname : t.name? with
      | none =>
          refine tracks_fail_cons hrest (live_name.mul hK).add_left (by simp [hname, hS]) ?_
          refine List.forall_mem_cons.2 ⟨(alternative_mul instances_identifier hK).add_left, ?_⟩
          exact fun s hs => (halso s hs).add_right
      | some i =>
          refine tracks_advance_bind hrest (tracks_pure ?_)
          show (name * K + S).leftQuotient [t] = K
          simp [hname, hS]

/-- A name that must stand there. -/
theorem tracks_name (hK : Live K) :
    (identifier [] ctx pos).Tracks (name * K) pos (Leaves K) := by
  have key : (identifier [] ctx pos).Tracks (name * K + 0) pos (Leaves K) :=
    tracks_identifier hK (barred_zero pos.rest) (by simp)
  rwa [add_zero] at key

/-- Names, and the bracket that closes them. -/
theorem tracks_identifiers (hK : Live K) (rounds : Nat) :
    (identifiers rounds ctx pos).Tracks (names.language * (word .closing * K)) pos
      (Leaves K) := by
  induction rounds generalizing pos with
  | zero => trivial
  | succ rounds ih =>
      rw [identifiers, nextCloses_bind_apply]
      split
      · rename_i hcloses
        obtain ⟨c, rest, hrest, hc⟩ := nextCloses_eq_true hcloses
        refine tracks_advance_bind hrest (tracks_pure ?_)
        show (names.language * (word .closing * K)).leftQuotient [c] = K
        simp [eq_of_beq hc, Token.name?, Lexeme.name?]
      · rename_i hcloses
        rw [Bool.not_eq_true] at hcloses
        -- No bracket is closed here, so of the two ways to go on only a name is left.
        rw [names_mul, add_comm]
        refine tracks_bind (tracks_identifier (live_names.mul ((live_word _).mul hK))
          (barred_closing hcloses K) (alternative_closing hK)) ?_
        rintro i after R rfl
        refine tracks_bind ih ?_
        rintro is after R rfl
        exact tracks_pure rfl

theorem tracks_parameters (hK : Live K) :
    (parameters ctx pos).Tracks (names.language * (word .closing * K)) pos (Leaves K) := by
  refine tracks_bind (tracks_withRounds (tracks_identifiers hK)) ?_
  rintro is after R rfl
  rw [distinct]
  cases repeated? [] is with
  | some i => exact tracks_reject (Diagnostic.isOther_remark _ _ _)
  | none => exact tracks_pure rfl

theorem tracks_formals (hK : Live K) :
    (formals ctx pos).Tracks (Phrase.formals.language * K) pos (Leaves K) := by
  rw [formals, peek_bind_apply]
  cases hrest : pos.rest with
  | nil => exact tracks_fail_nil hrest
  | cons t us =>
      simp only [List.getElem?_cons_zero]
      split
      · rename_i hname
        rw [formals_mul]
        have hother : Barred (word .opening * (names.language * (word .closing * K))) pos.rest := by
          rw [hrest, barred_cons]
          simp [lexeme_ne_of_name? hname]
        refine tracks_bind (tracks_identifier hK hother (by simp)) ?_
        rintro i after R rfl
        exact tracks_pure rfl
      · rename_i hname
        split
        · rename_i ho
          refine tracks_advance_bind hrest ?_
          have hbehind : (Phrase.formals.language * K).leftQuotient [t]
              = names.language * (word .closing * K) := by
            simp [eq_of_beq ho, name?_eq_none_of_opens ho]
          rw [hbehind]
          refine tracks_bind (tracks_parameters hK) ?_
          rintro is after R rfl
          exact tracks_pure rfl
        · rename_i ho
          have hlex : t.lexeme ≠ .keyword .opening := fun ht => ho (beq_iff_eq.2 ht)
          refine tracks_fail_cons hrest (live_formals.mul hK) (by simp [hname, hlex]) ?_
          rw [formals_mul]
          refine List.forall_mem_cons.2 ⟨?_, List.forall_mem_singleton.2 ?_⟩
          · exact (alternative_mul instances_opening
              (live_names.mul ((live_word _).mul hK))).add_right
          · exact (alternative_mul instances_identifier hK).add_left

end Parse

/-! ## Inside forms -/

/-- The parsers for what is inside brackets track expressions and bodies, whatever follows them. -/
structure Inner.Tracks (ctx : Context) (inner : Inner) : Prop where
  expr : ∀ {pos K S also}, Live K → BarredForm S pos.rest → (∀ s ∈ also, Alternative S s) →
    (inner.expr also ctx pos).Tracks (expression.language * K + S) pos (Leaves K)
  body : ∀ {pos K}, Live K →
    (inner.body ctx pos).Tracks (Phrase.body.language * (word .closing * K)) pos fun _ => Closable K

/-- An expression that must stand there. -/
theorem Inner.Tracks.expr_alone {inner : Inner} (h : inner.Tracks ctx) (hK : Live K) :
    (inner.expr [] ctx pos).Tracks (expression.language * K) pos (Leaves K) := by
  have key : (inner.expr [] ctx pos).Tracks (expression.language * K + 0) pos (Leaves K) :=
    h.expr hK (barred_zero pos.rest).barredForm (by simp)
  rwa [add_zero] at key

namespace Parse

variable {inner : Inner}

/-- The word that begins a form is read. -/
theorem tracks_advance_keyword {k : Keyword}
    (hhead : pos.rest[0]?.map Token.lexeme = some (.keyword k)) (hS : Barred S pos.rest)
    (hL : ∀ w : Token, w.lexeme = .keyword k → L.leftQuotient [w] = M) :
    (advance ctx pos).Tracks (L + S) pos (Leaves M) := by
  obtain ⟨w, us, hrest, hw⟩ := exists_of_head hhead
  rw [hrest, barred_cons] at hS
  rw [← bind_pure advance]
  refine tracks_advance_bind hrest (tracks_pure ?_)
  show (L + S).leftQuotient [w] = M
  rw [leftQuotient_add, hL w hw, hS, add_zero]

theorem tracks_alternative (h : inner.Tracks ctx) (hK : Live K) :
    (alternative inner ctx pos).Tracks
      (word .closing * K + Phrase.expression.language * (word .closing * K)) pos
      fun _ => Closable K := by
  rw [alternative, nextCloses_bind_apply]
  split
  · rename_i hcloses
    exact tracks_pure (closable_of_closes hcloses fun c hc => by simp [hc])
  · rename_i hcloses
    rw [Bool.not_eq_true] at hcloses
    rw [add_comm]
    refine tracks_map ((h.expr ((live_word _).mul hK) (barred_closing hcloses K).barredForm
      (alternative_closing hK)).mono ?_)
    rintro e us R rfl
    exact .due us

/-- Expressions up to the closing bracket of a form. -/
theorem tracks_arguments (h : inner.Tracks ctx) (hK : Live K) (rounds : Nat) :
    (arguments inner rounds ctx pos).Tracks (expressions.language * (word .closing * K)) pos
      fun _ => Closable K := by
  induction rounds generalizing pos with
  | zero => trivial
  | succ rounds ih =>
      rw [arguments, nextCloses_bind_apply]
      split
      · rename_i hcloses
        exact tracks_pure (closable_of_closes hcloses fun c hc => by simp [hc])
      · rename_i hcloses
        rw [Bool.not_eq_true] at hcloses
        rw [expressions_mul, add_comm]
        refine tracks_bind (h.expr (live_expressions.mul ((live_word _).mul hK))
          (barred_closing hcloses K).barredForm (alternative_closing hK)) ?_
        rintro e after R rfl
        refine tracks_bind ih ?_
        intro es after R hR
        exact tracks_pure hR

theorem tracks_call (h : inner.Tracks ctx) (hK : Live K) (hS : Barred S pos.rest)
    (hhead : ∀ t us, pos.rest = t :: us → t.lexeme ≠ .keyword .conditional ∧
      t.lexeme ≠ .keyword .lambda ∧ t.lexeme ≠ .keyword .assign) :
    (call inner o ctx pos).Tracks (Phrase.form.language * (word .closing * K) + S) pos
      (Leaves K) := by
  have hC : Live (word .closing * K) := (live_word _).mul hK
  -- The other forms begin with words, and `S` does not begin with the next token either.
  obtain ⟨S', hS', hsplit⟩ : ∃ S', Barred S' pos.rest ∧
      Phrase.form.language * (word .closing * K) + S
        = Phrase.expression.language * (expressions.language * (word .closing * K)) + S' := by
    refine ⟨_, ?_, by rw [form_mul, add_right_comm, add_comm]⟩
    intro t us hrest
    obtain ⟨hconditional, hlambda, hassign⟩ := hhead t us hrest
    simp [hconditional, hlambda, hassign, hS t us hrest]
  rw [call, hsplit]
  refine tracks_bind (h.expr (live_expressions.mul hC) hS'.barredForm (by simp)) ?_
  rintro operator after R rfl
  refine tracks_bind (tracks_withRounds (tracks_arguments h hK)) ?_
  intro args after R hR
  exact tracks_closed hK hR

theorem tracks_conditional (h : inner.Tracks ctx) (hK : Live K) (hS : Barred S pos.rest)
    (hhead : pos.rest[0]?.map Token.lexeme = some (.keyword .conditional)) :
    (conditional inner o ctx pos).Tracks (Phrase.form.language * (word .closing * K) + S) pos
      (Leaves K) := by
  have hC : Live (word .closing * K) := (live_word _).mul hK
  rw [conditional]
  refine tracks_bind (tracks_advance_keyword (M := Phrase.expression.language
    * (Phrase.expression.language
      * (word .closing * K + Phrase.expression.language * (word .closing * K))))
    hhead hS fun w hw => by simp [hw]) ?_
  rintro w after R rfl
  refine tracks_bind (h.expr_alone (live_expression.mul hC.add_left)) ?_
  rintro test after R rfl
  refine tracks_bind (h.expr_alone hC.add_left) ?_
  rintro conseq after R rfl
  refine tracks_bind (tracks_alternative h hK) ?_
  intro alter after R hR
  exact tracks_closed hK hR

theorem tracks_procedure (h : inner.Tracks ctx) (hK : Live K) (hS : Barred S pos.rest)
    (hhead : pos.rest[0]?.map Token.lexeme = some (.keyword .lambda)) :
    (procedure inner o ctx pos).Tracks (Phrase.form.language * (word .closing * K) + S) pos
      (Leaves K) := by
  have hC : Live (word .closing * K) := (live_word _).mul hK
  rw [procedure]
  refine tracks_bind (tracks_advance_keyword
    (M := Phrase.formals.language * (Phrase.body.language * (word .closing * K)))
    hhead hS fun w hw => by simp [hw]) ?_
  rintro w after R rfl
  refine tracks_bind (tracks_formals (live_body.mul hC)) ?_
  rintro ⟨variadic, params⟩ after R rfl
  dsimp only
  refine tracks_bind (h.body hK) ?_
  intro body after R hR
  exact tracks_closed hK hR

theorem tracks_assignment (h : inner.Tracks ctx) (hK : Live K) (hS : Barred S pos.rest)
    (hhead : pos.rest[0]?.map Token.lexeme = some (.keyword .assign)) :
    (assignment inner o ctx pos).Tracks (Phrase.form.language * (word .closing * K) + S) pos
      (Leaves K) := by
  have hC : Live (word .closing * K) := (live_word _).mul hK
  rw [assignment]
  refine tracks_bind (tracks_advance_keyword
    (M := name * (Phrase.expression.language * (word .closing * K)))
    hhead hS fun w hw => by simp [hw]) ?_
  rintro w after R rfl
  refine tracks_bind (tracks_name (live_expression.mul hC)) ?_
  rintro target after R rfl
  refine tracks_bind (h.expr_alone hC) ?_
  rintro value after R rfl
  exact tracks_closed hK (.due _)

theorem tracks_strayDefinition {D : Expr → List Token → TokenLanguage → Prop} :
    (strayDefinition o ctx pos).Tracks L pos D := by
  rw [strayDefinition, peek_bind_apply]
  cases pos.rest[0]? with
  | none => trivial
  | some w => exact tracks_reject (Diagnostic.isOther_remark _ _ _)

/-- What follows the bracket of an expression tells which form it is. -/
theorem tracks_formOf (h : inner.Tracks ctx) (hK : Live K) (hS : Barred S pos.rest) :
    ((formOf inner pos.rest[0]?).2 o ctx pos).Tracks
      (Phrase.form.language * (word .closing * K) + S) pos (Leaves K) := by
  unfold formOf
  split
  · rename_i hhead
    exact tracks_conditional h hK hS hhead
  · rename_i hhead
    exact tracks_procedure h hK hS hhead
  · rename_i hhead
    exact tracks_assignment h hK hS hhead
  · show (strayDefinition o ctx pos).Tracks _ pos _
    exact tracks_strayDefinition
  · rename_i hconditional hlambda hassign hdefine
    refine tracks_call h hK hS ?_
    intro t us hrest
    rw [hrest] at hconditional hlambda hassign
    simp at hconditional hlambda hassign
    exact ⟨hconditional, hlambda, hassign⟩

theorem tracks_expression (h : inner.Tracks ctx) (hK : Live K) (hS : BarredForm S pos.rest)
    (halso : ∀ s ∈ also, Alternative S s) :
    (expression inner also ctx pos).Tracks (Phrase.expression.language * K + S) pos
      (Leaves K) := by
  have hexpected : ∀ s ∈ expressionName :: also,
      Alternative (Phrase.expression.language * K + S) s := by
    refine List.forall_mem_cons.2 ⟨(alternative_mul instances_expression hK).add_left, ?_⟩
    exact fun s hs => (halso s hs).add_right
  have hL : Live (Phrase.expression.language * K + S) := (live_expression.mul hK).add_left
  rw [expression, peek_bind_apply]
  cases hrest : pos.rest with
  | nil => exact tracks_fail_nil hrest
  | cons t ts =>
      obtain ⟨hplain, hform⟩ := hS t ts hrest
      obtain ⟨l, s⟩ := t
      cases l with
      | atom a =>
          refine tracks_advance_bind hrest (tracks_pure ?_)
          show (Phrase.expression.language * K + S).leftQuotient [⟨.atom a, s⟩] = K
          simp [hplain rfl]
      | keyword k =>
          cases k with
          | opening =>
              have hhead : pos.rest[1]? = ts[0]? := by simp [hrest]
              have hbehind : (Phrase.expression.language * K + S).leftQuotient
                  [⟨.keyword .opening, s⟩] = Phrase.form.language * (word .closing * K)
                    + S.leftQuotient [⟨.keyword .opening, s⟩] := by
                simp
              show (compound inner ctx pos).Tracks _ pos _
              rw [compound, peek_bind_apply, hhead]
              refine tracks_map (.mono (tracks_form (K := K) hrest fun counted => ?_) ?_)
              · rw [hbehind]
                exact tracks_formOf h hK (hform rfl)
              · exact fun p us R hp => hp.2
          | _ => exact tracks_fail_cons hrest hL (by simp [hplain rfl]) hexpected

/-! ## Definitions -/

theorem tracks_namedValue (h : inner.Tracks ctx) (hK : Live K) (hS : Barred S pos.rest) :
    (namedValue inner o ctx pos).Tracks
      (name * (Phrase.expression.language * (word .closing * K)) + S) pos (Leaves K) := by
  have hC : Live (word .closing * K) := (live_word _).mul hK
  rw [namedValue]
  refine tracks_bind (tracks_identifier (live_expression.mul hC) hS (by simp)) ?_
  rintro name after R rfl
  refine tracks_bind (h.expr_alone hC) ?_
  rintro value after R rfl
  exact tracks_closed hK (.due _)

theorem tracks_namedProcedure (h : inner.Tracks ctx) (hK : Live K) (hrest : pos.rest = t :: ts)
    (hL : L.leftQuotient [t] = name * (names.language * (word .closing
      * (Phrase.body.language * (word .closing * K))))) :
    (namedProcedure inner o ctx pos).Tracks L pos (Leaves K) := by
  have hbody : Live (Phrase.body.language * (word .closing * K)) :=
    live_body.mul ((live_word _).mul hK)
  rw [namedProcedure]
  refine tracks_advance_bind hrest ?_
  rw [hL]
  refine tracks_bind (tracks_name (live_names.mul ((live_word _).mul hbody))) ?_
  rintro name after R rfl
  refine tracks_bind (tracks_parameters hbody) ?_
  rintro params after R rfl
  refine tracks_bind (h.body hK) ?_
  intro body after R hR
  exact tracks_closed hK hR

theorem tracks_definition (h : inner.Tracks ctx) (hK : Live K) (hS : Barred S pos.rest)
    (hhead : pos.rest[0]?.map Token.lexeme = some (.keyword .define)) :
    (definition inner o ctx pos).Tracks (binding.language * (word .closing * K) + S) pos
      (Leaves K) := by
  have hC : Live (word .closing * K) := (live_word _).mul hK
  have hbody : Live (Phrase.body.language * (word .closing * K)) := live_body.mul hC
  have hparams : Live (names.language * (word .closing * (Phrase.body.language
      * (word .closing * K)))) := live_names.mul ((live_word _).mul hbody)
  rw [definition]
  refine tracks_bind (tracks_advance_keyword
    (M := name * (Phrase.expression.language * (word .closing * K))
      + word .opening * (name * (names.language * (word .closing
        * (Phrase.body.language * (word .closing * K))))))
    hhead hS fun w hw => by simp [hw]) ?_
  rintro w after R rfl
  rw [peek_bind_apply]
  cases hrest : after.rest with
  | nil => exact tracks_fail_nil hrest
  | cons t ts =>
      simp only [List.getElem?_cons_zero]
      split
      · rename_i hname
        refine tracks_namedValue h hK ?_
        rw [hrest, barred_cons]
        simp [lexeme_ne_of_name? hname]
      · rename_i hname
        split
        · rename_i ho
          refine tracks_namedProcedure h hK hrest ?_
          simp [eq_of_beq ho, name?_eq_none_of_opens ho]
        · rename_i ho
          have hlex : t.lexeme ≠ .keyword .opening := fun ht => ho (beq_iff_eq.2 ht)
          have hvalue : Live (Phrase.expression.language * (word .closing * K)) :=
            live_expression.mul hC
          refine tracks_fail_cons hrest (live_name.mul hvalue).add_left (by simp [hname, hlex]) ?_
          refine List.forall_mem_cons.2 ⟨?_, List.forall_mem_singleton.2 ?_⟩
          · exact (alternative_mul instances_opening (live_name.mul hparams)).add_right
          · exact (alternative_mul instances_identifier hvalue).add_left

end Parse

/-! ## Items -/

/-- What is left of a body: once there is an expression, any items. -/
def remaining (started : Bool) : Phrase := if started then .items else .body

/-- What could stand in the place of an expression: a definition, or if there is an expression
already, what follows all items. -/
def besides (started : Bool) (K : TokenLanguage) : TokenLanguage :=
  definition.language * ((remaining started).language * K) + if started then K else 0

theorem remaining_mul (started : Bool) (K : TokenLanguage) :
    (remaining started).language * K
      = expression.language * (items.language * K) + besides started K := by
  cases started with
  | false =>
      show body.language * K = _
      rw [besides, body_mul, if_neg (by decide), add_zero]
      rfl
  | true =>
      show items.language * K = _
      rw [besides, if_pos rfl]
      nth_rewrite 1 [items_mul]
      rw [add_comm, add_assoc]
      rfl

theorem live_remaining (started : Bool) : Live (remaining started).language := by
  cases started with
  | false => exact live_body
  | true => exact live_items

/-- Whatever is left of a body, an item could follow. -/
theorem alternative_remaining (started : Bool) (hK : Live K) :
    ∀ s ∈ [Parse.definitionName, Parse.expressionName],
      Alternative ((remaining started).language * K) s := by
  rw [remaining_mul, besides]
  refine List.forall_mem_cons.2 ⟨?_, List.forall_mem_singleton.2 ?_⟩
  · exact (alternative_mul instances_definition
      ((live_remaining started).mul hK)).add_left.add_right
  · exact (alternative_mul instances_expression (live_items.mul hK)).add_left

theorem leftQuotient_besides (started : Bool) (hK : K.leftQuotient [t] = 0) :
    (besides started K).leftQuotient [t] =
      (definition.language * ((remaining started).language * K)).leftQuotient [t] := by
  cases started <;> simp [besides, hK]

/-- Where no definition begins, an expression can be told from what else could stand there. -/
theorem barredForm_besides (started : Bool) (hK : Barred K ts)
    (h : ¬ (ts[0]?.any Token.opens && ts[1]?.any (Token.isKeyword .define)) = true) :
    BarredForm (besides started K) ts := by
  rintro t us rfl
  rw [barred_cons] at hK
  rw [leftQuotient_besides started hK]
  constructor
  · intro ho
    have hlex : t.lexeme ≠ .keyword .opening := by
      intro ht
      simp [opens, isKeyword, ht] at ho
    simp [hlex]
  · rintro ho w vs rfl
    have hw : w.lexeme ≠ .keyword .define := by
      intro hw
      simp [ho, isKeyword, hw] at h
    simp [eq_of_beq ho, hw]

/-- What could follow behind an item, or instead of one. If there is none, `ends` holds of the
tokens that are left. -/
def BehindItem (ends : List Token → Prop) (K : TokenLanguage) (started : Bool) :
    Option BodyItem → List Token → TokenLanguage → Prop
  | none, us, R => ends us ∧ R = (remaining started).language * K
  | some (.definition _), _, R => R = (remaining started).language * K
  | some (.expression _), _, R => R = items.language * K
  | some .nothing, _, _ => False

namespace Parse

variable {inner : Inner} {started : Bool} {ends : List Token → Prop}

/-- A definition, or else an expression, where what follows all items does not begin with the next
token. -/
theorem tracks_item (h : inner.Tracks ctx) (hK : Live K) (hstop : Barred K pos.rest)
    {expr : Parse Expr}
    (hexpr : BarredForm (besides started K) pos.rest →
      (expr ctx pos).Tracks ((remaining started).language * K) pos
        (Leaves (Phrase.items.language * K))) :
    (item inner expr ctx pos).Tracks ((remaining started).language * K) pos
      fun i => BehindItem ends K started (some i) := by
  rw [item, atDefinition_bind_apply]
  split
  · rename_i hhead
    obtain ⟨o, ts, hrest, ho, hdef⟩ := begins_of_atDefinition hhead
    obtain ⟨w, us, hword, hw⟩ := exists_of_head hdef
    rw [hrest, barred_cons] at hstop
    have hbehind : ((remaining started).language * K).leftQuotient [o]
        = binding.language * (word .closing * ((remaining started).language * K))
          + Phrase.form.language * (word .closing * (Phrase.items.language * K)) := by
      nth_rewrite 1 [remaining_mul]
      rw [leftQuotient_add, leftQuotient_besides started hstop, add_comm]
      simp [eq_of_beq ho]
    -- The bracket alone could also begin an expression, but no form begins with `define`.
    have hother : Barred (Phrase.form.language * (word .closing * (Phrase.items.language * K)))
        ts := by
      rw [hword, barred_cons]
      simp [hw]
    refine tracks_map (.mono (tracks_form (K := (remaining started).language * K) hrest
      fun counted => ?_) ?_)
    · rw [hbehind]
      exact tracks_definition h ((live_remaining started).mul hK) hother hdef
    · rintro p us R ⟨⟨d, rfl⟩, hR⟩
      exact hR
  · rename_i hhead
    exact tracks_map (hexpr (barredForm_besides started hstop hhead))

/-- Items are tracked until there are no more. -/
theorem tracks_items {next : Bool → Parse (Option BodyItem)}
    (hnext : ∀ started pos, (next started ctx pos).Tracks ((remaining started).language * K) pos
      (BehindItem ends K started)) (started seen : Bool) (rounds : Nat) :
    (items next started seen rounds ctx pos).Tracks ((remaining started).language * K) pos
      fun parts us R => ends us ∧
        R = (remaining (started || !parts.2.isEmpty)).language * K := by
  induction rounds generalizing pos started seen with
  | zero => trivial
  | succ rounds ih =>
      rw [items]
      refine tracks_bind (hnext started pos) ?_
      intro i? after R hR
      cases i? with
      | none =>
          obtain ⟨hends, rfl⟩ := hR
          exact tracks_pure ⟨hends, by simp⟩
      | some i =>
          cases i with
          | nothing => exact hR.elim
          | expression e =>
              obtain rfl : R = (remaining true).language * K := hR
              refine tracks_bind (ih true _) ?_
              rintro ⟨defs, exprs⟩ after R hR
              exact tracks_pure (by simpa using hR)
          | definition d =>
              obtain rfl : R = (remaining started).language * K := hR
              dsimp only
              split
              · -- A finding, though not about a token.
                exact tracks_note_bind (Diagnostic.isOther_remark _ _ _).truthful
              · refine tracks_bind (ih started _) ?_
                rintro ⟨defs, exprs⟩ after R hR
                exact tracks_pure hR

/-! ## Bodies in brackets -/

/-- The next token closes a bracket, if there is one. -/
def EndsInner (ts : List Token) : Prop := ∀ t us, ts = t :: us → t.closes = true

theorem tracks_innerItem (h : inner.Tracks ctx) (hK : Live K) (started : Bool) (pos : Position) :
    (innerItem inner started ctx pos).Tracks
      ((remaining started).language * (word .closing * K)) pos
      (BehindItem EndsInner (word .closing * K) started) := by
  have hC : Live (word .closing * K) := (live_word _).mul hK
  rw [innerItem, peek_bind_apply]
  cases hrest : pos.rest with
  | nil =>
      refine tracks_pure ⟨?_, rfl⟩
      simp [EndsInner, hrest]
  | cons t us =>
      simp only [List.getElem?_cons_zero]
      split
      · rename_i hcloses
        refine tracks_pure ⟨?_, rfl⟩
        rw [hrest]
        rintro _ _ ⟨⟩
        exact hcloses
      · rename_i hcloses
        rw [Bool.not_eq_true] at hcloses
        have hstop : Barred (word .closing * K) pos.rest :=
          barred_closing (by simp [hrest, hcloses]) K
        refine tracks_map (tracks_item h hC hstop fun hbarred => ?_)
        rw [remaining_mul]
        refine tracks_expression h (live_items.mul hC) hbarred ?_
        cases started with
        | false => simp
        | true => exact fun s hs => (alternative_closing hK s hs).add_right

theorem tracks_bracketedBody (h : inner.Tracks ctx) (hK : Live K) :
    (bracketedBody inner ctx pos).Tracks (Phrase.body.language * (word .closing * K)) pos
      fun _ => Closable K := by
  have hC : Live (word .closing * K) := (live_word _).mul hK
  rw [bracketedBody]
  refine tracks_bind (tracks_withRounds
    (tracks_items (tracks_innerItem h hK) false false)) ?_
  rintro ⟨defs, exprs⟩ after R ⟨hends, hR⟩
  dsimp only
  cases exprs with
  | nil =>
      obtain rfl : R = Phrase.body.language * (word .closing * K) := hR
      show (fail [definitionName, expressionName] ctx after).Tracks _ after _
      cases hrest : after.rest with
      | nil => exact tracks_fail_nil hrest
      | cons t us =>
          have hcloses : t.closes = true := hends t us hrest
          exact tracks_fail_cons hrest (live_body.mul hC) (by simp [eq_of_beq hcloses])
            (alternative_remaining false hC)
  | cons e es =>
      obtain rfl : R = Phrase.items.language * (word .closing * K) := hR
      obtain ⟨b, hb⟩ : ∃ b, body? defs (e :: es) = some b := ⟨_, rfl⟩
      rw [hb]
      refine tracks_pure ?_
      cases hrest : after.rest with
      | nil => exact .ended _
      | cons t us =>
          have hcloses : t.closes = true := hends t us hrest
          exact .here hcloses (by simp [eq_of_beq hcloses])

/-- At every level the parsers track expressions and bodies. -/
theorem tracks_nested (ctx : Context) (level : Nat) : (nested level).Tracks ctx := by
  induction level with
  | zero => exact ⟨fun _ _ _ => trivial, fun _ => trivial⟩
  | succ level ih => exact ⟨tracks_expression ih, tracks_bracketedBody ih⟩

/-! ## Programs -/

/-- An expression outside all forms. -/
theorem tracks_recovered {expr : Parse Expr} (h : (expr ctx pos).Tracks L pos (Leaves K)) :
    (recovered expr ctx pos).Tracks L pos (Leaves K) := by
  unfold recovered
  cases hr : expr ctx pos with
  | done e trace after =>
      rw [hr] at h
      exact h
  | failed why trace after =>
      rw [hr] at h
      refine .of_failed h fun hwhy => ?_
      rw [recover, map_bind]
      exact tracks_note_bind hwhy
  | fault f trace after => trivial

theorem tracks_outerItem (h : inner.Tracks ctx) (started : Bool) (pos : Position) :
    (outerItem inner started ctx pos).Tracks ((remaining started).language * 1) pos
      (BehindItem (fun _ => True) 1 started) := by
  have hone : Live (1 : TokenLanguage) := live_of_mem Language.nil_mem_one
  rw [outerItem, peek_bind_apply]
  cases hrest : pos.rest with
  | nil => exact tracks_pure ⟨trivial, rfl⟩
  | cons t us =>
      simp only [List.getElem?_cons_zero]
      split
      · rename_i hcloses
        refine tracks_note_bind ?_
        rw [hrest]
        -- No form is open, so nothing that could follow begins with a closing bracket.
        refine Diagnostic.truthful_unexpected ((live_remaining started).mul hone) ?_ ?_
        · rw [remaining_mul, leftQuotient_add, leftQuotient_besides started (leftQuotient_one t)]
          simp [eq_of_beq hcloses]
        · refine List.forall_mem_append.2 ⟨alternative_remaining started hone,
            List.forall_mem_singleton.2 ?_⟩
          intro ts hts
          rw [instances_endOfInput] at hts
          exact absurd hts (Language.notMem_zero ts)
      · rename_i hcloses
        have hstop : Barred 1 pos.rest := fun t _ _ => leftQuotient_one t
        refine tracks_map (tracks_item h hone hstop fun hbarred => ?_)
        rw [remaining_mul]
        exact tracks_recovered (tracks_expression h (live_items.mul hone) hbarred (by simp))

theorem tracks_programOf (defs : List Definition) (exprs : List Expr) :
    (programOf defs exprs ctx pos).Tracks L pos fun _ _ _ => True := by
  unfold programOf
  cases body? defs exprs with
  | some b => exact tracks_pure trivial
  | none =>
      refine tracks_note_bind (Diagnostic.IsOther.truthful ?_)
      intro t expected hd
      cases hd

/-- The first finding about a program is truthful. -/
theorem tracks_program :
    (program ctx pos).Tracks Phrase.body.language pos fun _ _ _ => True := by
  unfold program
  rw [← mul_one Phrase.body.language]
  refine tracks_bind (tracks_withRounds
    (tracks_items (tracks_outerItem (tracks_nested ctx _)) false false)) ?_
  rintro ⟨defs, exprs⟩ after R -
  exact tracks_programOf defs exprs

end Parse

end SchemeFront
