import SchemeFront.Proofs.Parse.Forms
import SchemeFront.Proofs.Parse.Nested

set_option autoImplicit false

/-! # What a bracket begins

What follows a bracket decides on its form. Just the expressions of the grammar are recognised as
expressions (`Parse.recognises_expression`), and just its definitions and expressions as the items
of a body (`Parse.recognises_item`).
-/

namespace SchemeFront

open Token

variable {α : Type} {ctx : Context} {pos : Position} {inner : Inner} {opened : Token} {size n : Nat}

namespace Parse

/-! ## Expressions -/

/-- A definition is refused in the place of an expression. -/
theorem refuses_strayDefinition (opened : Token) : Refuses (strayDefinition opened) ctx pos := by
  rintro e after ⟨trace, hdone, -⟩
  rw [strayDefinition, peek_bind_apply] at hdone
  cases hword : pos.rest[0]? with
  | none => simp [hword, abort] at hdone
  | some word => simp [hword, reject] at hdone

/-- Whatever follows the bracket, just the forms of the grammar are recognised. -/
theorem recognises_formOf (h : inner.Recognises ctx size) (hroom : Room ctx size n pos) :
    Recognises ((formOf inner pos.rest[0]?).2 opened) ctx pos
      (.closed opened (DerivesForm n)) := by
  unfold formOf
  split
  · rename_i hhead
    exact recognises_conditional h hroom hhead
  · rename_i hhead
    exact recognises_procedure h hroom hhead
  · rename_i hhead
    exact recognises_assignment h hroom hhead
  · -- Behind the word for definitions nothing is recognised, and no form begins with it.
    rename_i hhead
    refine (refuses_strayDefinition opened).recognises ?_
    rintro e _ rest hrest ⟨us, k, rfl, -, hform⟩
    obtain ⟨t, us, rfl, ht⟩ := hform.exists_head
    exact ht (lexeme_eq_of_head hhead hrest)
  · rename_i hconditional hlambda hassign hdefine
    refine recognises_call h hroom ?_
    intro k hk hhead
    rw [List.mem_cons, List.mem_cons, List.mem_singleton] at hk
    rcases hk with rfl | rfl | rfl
    · exact hconditional hhead
    · exact hlambda hhead
    · exact hassign hhead

/-- A compound expression is recognised with its brackets. -/
theorem recognises_compound (h : inner.Recognises ctx size) (hroom : Room ctx (size + 1) n pos)
    {tail : List Token} (hrest : pos.rest = opened :: tail) (ho : opened.opens = true) :
    Recognises (compound inner) ctx pos fun e ts _ => DerivesExpr n ts e := by
  have hhead : pos.rest[1]? = tail[0]? := by simp [hrest]
  have hform := recognises_form (formOf inner tail[0]?).1 (formOf inner tail[0]?).2
    (L := fun m => .closed opened (DerivesForm m)) hroom hrest
    ho fun m hroom => recognises_formOf h hroom
  refine ((recognises_map ofParsed hform).of_eq (by
    rw [compound, peek_bind_apply, hhead])).congr ?_
  intro e ts rest hsplit
  constructor
  · rintro ⟨_, rfl, m, e, _, rfl, rfl, rfl, us, k, rfl, hk, hform⟩
    exact .form ho hk hform
  · intro hexpr
    cases hexpr with
    | atom s a =>
        obtain ⟨rfl, -⟩ := List.cons.inj (hrest.symm.trans hsplit)
        cases ho
    | @form m o k us e ho' hk hform =>
        obtain ⟨rfl, -⟩ := List.cons.inj (hrest.symm.trans hsplit)
        exact ⟨.whole e, rfl, m, e, us ++ [k], rfl, rfl, rfl, us, k, rfl, hk, hform⟩

/-- What is parsed as an expression is an expression. -/
theorem recognises_expression (h : inner.Recognises ctx size) (hroom : Room ctx (size + 1) n pos)
    (also : List String) :
    Recognises (expression inner also) ctx pos fun e ts _ => DerivesExpr n ts e := by
  cases hrest : pos.rest with
  | nil =>
      refine ((refuses_fail (expressionName :: also)).of_eq (by
        rw [expression, peek_bind_apply, hrest]
        rfl)).recognises ?_
      intro e ts rest hsplit hexpr
      obtain ⟨t, us, rfl, -⟩ := hexpr.exists_head
      cases hsplit.symm.trans hrest
  | cons t tail =>
      obtain ⟨l, s⟩ := t
      cases l with
      | atom a =>
          refine ((recognises_bind_pure (fun _ => Expr.atom s a) recognises_advance).of_eq (by
              rw [expression, peek_bind_apply, hrest]
              rfl)).congr ?_
          intro e ts rest hsplit
          constructor
          · rintro ⟨t, rfl, rfl⟩
            obtain ⟨rfl, -⟩ := List.cons.inj (hrest.symm.trans hsplit)
            exact .atom n s a
          · intro hexpr
            cases hexpr with
            | atom n s' a' =>
                obtain ⟨hhead, -⟩ := List.cons.inj (hrest.symm.trans hsplit)
                cases hhead
                exact ⟨⟨.atom a, s⟩, rfl, rfl⟩
            | form ho hk hform =>
                obtain ⟨rfl, -⟩ := List.cons.inj (hrest.symm.trans hsplit)
                cases ho
      | keyword k =>
          -- Of the words and marks only the opening bracket begins an expression.
          by_cases hk : k = .opening
          · subst hk
            exact (recognises_compound h hroom hrest rfl).of_eq (by
              rw [expression, peek_bind_apply, hrest]
              rfl)
          · refine ((refuses_fail (expressionName :: also)).of_eq (by
              rw [expression, peek_bind_apply, hrest]
              cases k with
              | opening => exact absurd rfl hk
              | _ => rfl)).recognises ?_
            intro e ts rest hsplit hexpr
            obtain ⟨t, us, rfl, ht⟩ := hexpr.exists_head
            obtain ⟨rfl, -⟩ := List.cons.inj (hrest.symm.trans hsplit)
            exact ht.lexeme_ne hk rfl

/-! ## Definitions -/

theorem recognises_namedValue (opened : Token) (h : inner.Recognises ctx size)
    (hroom : Room ctx size n pos) :
    Recognises (namedValue inner opened) ctx pos (.closed opened fun s ts d =>
      ∃ i us e, ts = i.token :: us ∧ DerivesExpr n us e ∧ d = ⟨s, i, e⟩) := by
  refine (recognises_bind_of_room hroom (recognises_identifier []) fun name _ hroom =>
    recognises_bind_of_room hroom (h.expr [] _ n hroom) fun value _ _ =>
    recognises_closed fun k =>
      (⟨opened.span.join k.span, name, value⟩ : Definition)).congr ?_
  intro d ts rest _
  constructor
  · rintro ⟨i, _, _, rfl, rfl, e, us, _, rfl, he, k, hk, rfl, rfl⟩
    exact ⟨i.token :: us, k, rfl, hk, i, us, e, rfl, he, rfl⟩
  · rintro ⟨_, k, rfl, hk, i, us, e, rfl, he, rfl⟩
    refine ⟨i, [i.token], us ++ [k], rfl, rfl, ?_⟩
    exact ⟨e, us, [k], rfl, he, k, hk, rfl, rfl⟩

theorem recognises_namedProcedure (opened : Token) (h : inner.Recognises ctx size)
    (hroom : Room ctx size n pos) (hhead : pos.rest[0]?.any Token.opens = true) :
    Recognises (namedProcedure inner opened) ctx pos (.closed opened fun s ts d =>
      ∃ o i is k us b, ts = o :: i.token :: (is.map Identifier.token ++ k :: us) ∧
        o.opens = true ∧ k.closes = true ∧ Identifier.Distinct is ∧ DerivesBody n us b ∧
        d = ⟨s, i, .procedure s false is b⟩) := by
  refine (recognises_bind_of_room hroom recognises_advance fun _ _ hroom =>
    recognises_bind_of_room hroom (recognises_identifier []) fun name _ hroom =>
    recognises_bind_of_room hroom recognises_parameters fun is _ hroom =>
    recognises_bind_of_room hroom (h.body _ n hroom) fun body _ _ =>
    recognises_closed fun k => (⟨opened.span.join k.span, name,
      .procedure (opened.span.join k.span) false is body⟩ : Definition)).congr ?_
  intro d ts rest hrest
  constructor
  · rintro ⟨o, _, _, rfl, rfl, i, _, _, rfl, rfl, hmore⟩
    obtain ⟨is, _, _, rfl, ⟨k', hk', his, rfl⟩, hmore⟩ := hmore
    obtain ⟨b, us, _, rfl, ⟨hb, -⟩, k, hk, rfl, rfl⟩ := hmore
    have ho : o.opens = true := opens_of_head hhead hrest
    refine ⟨o :: i.token :: (is.map Identifier.token ++ k' :: us), k, by simp, hk, ?_⟩
    exact ⟨o, i, is, k', us, b, rfl, ho, hk', his, hb, rfl⟩
  · rintro ⟨_, k, rfl, hk, o, i, is, k', us, b, rfl, ho, hk', his, hb, rfl⟩
    -- As for procedures, the closing bracket must be seen to end the body.
    have hends : Ends ([k] ++ rest) := by simpa [Ends] using hk
    refine ⟨o, [o], i.token :: (is.map Identifier.token ++ k' :: us) ++ [k], by simp, rfl, ?_⟩
    refine ⟨i, [i.token], is.map Identifier.token ++ k' :: us ++ [k], by simp, rfl, ?_⟩
    refine ⟨is, is.map Identifier.token ++ [k'], us ++ [k], by simp, ⟨k', hk', his, rfl⟩, ?_⟩
    exact ⟨b, us, [k], rfl, ⟨hb, hends⟩, k, hk, rfl, rfl⟩

/-- What is between the brackets of a definition is recognised, with the closing bracket. -/
theorem recognises_definition (h : inner.Recognises ctx size) (hroom : Room ctx size n pos)
    (hhead : pos.rest[0]?.map Token.lexeme = some (.keyword .define)) :
    Recognises (definition inner opened) ctx pos (.closed opened (DerivesBinding n)) := by
  refine (recognises_bind_of_room hroom recognises_advance fun _ _ hroom =>
    recognises_name_or_bracket (recognises_namedValue opened h hroom) ?_
      (fun hopens => recognises_namedProcedure opened h hroom hopens) ?_).congr ?_
  · rintro d ts rest ⟨_, k, rfl, -, i, us, e, rfl, -⟩
    exact ⟨i, us ++ [k], rfl⟩
  · rintro d ts rest ⟨_, k, rfl, -, o, i, is, k', us, b, rfl, ho, -⟩
    exact ⟨o, _, rfl, ho⟩
  · intro d ts rest hrest
    constructor
    · rintro ⟨w, _, _, rfl, rfl, hd⟩
      have hw : w.lexeme = .keyword .define := lexeme_eq_of_head hhead hrest
      rcases hd with ⟨_, k, rfl, hk, i, us, e, rfl, he, rfl⟩
        | ⟨_, k, rfl, hk, o, i, is, k', us, b, rfl, ho, hk', his, hb, rfl⟩
      · exact ⟨w :: i.token :: us, k, by simp, hk, .value hw he⟩
      · exact ⟨w :: o :: i.token :: (is.map Identifier.token ++ k' :: us), k, by simp, hk,
          .procedure hw ho hk' his hb⟩
    · rintro ⟨_, k, rfl, hk, hbinding⟩
      cases hbinding with
      | @value _ _ w i us e hw he =>
          refine ⟨w, [w], i.token :: us ++ [k], by simp, rfl, .inl ?_⟩
          exact ⟨i.token :: us, k, rfl, hk, i, us, e, rfl, he, rfl⟩
      | @procedure _ _ w o k' i is us b hw ho hk' his hb =>
          refine ⟨w, [w], o :: i.token :: (is.map Identifier.token ++ k' :: us) ++ [k], by simp,
            rfl, .inr ?_⟩
          exact ⟨_, k, rfl, hk, o, i, is, k', us, b, rfl, ho, hk', his, hb, rfl⟩

/-! ## Items -/

end Parse

/-- The tokens of an item: a definition or an expression. -/
def DerivesItem (n : Nat) (ts : List Token) : BodyItem → Prop
  | .definition d => DerivesDefinition n ts d
  | .expression e => DerivesExpr n ts e
  | .nothing => False

/-- No item begins with a closing bracket. -/
theorem DerivesItem.exists_head {ts : List Token} {i : BodyItem} (h : DerivesItem n ts i) :
    ∃ t us, ts = t :: us ∧ t.closes = false := by
  cases i with
  | definition d =>
      obtain ⟨o, w, us, rfl, ho, -⟩ := DerivesDefinition.exists_head h
      exact ⟨o, w :: us, rfl, closes_eq_false_of_opens ho⟩
  | expression e =>
      obtain ⟨t, us, rfl, ht⟩ := DerivesExpr.exists_head h
      exact ⟨t, us, rfl, ht.closes_eq_false⟩
  | nothing => exact h.elim

namespace Parse

/-- Definitions are told from expressions by their first two tokens. -/
theorem recognises_item (h : inner.Recognises ctx size) (hroom : Room ctx (size + 1) n pos)
    {expr : Parse Expr} (hexpr : Recognises expr ctx pos fun e ts _ => DerivesExpr n ts e) :
    Recognises (item inner expr) ctx pos fun i ts _ => DerivesItem n ts i := by
  cases hdef : pos.rest[0]?.any Token.opens && pos.rest[1]?.any (Token.isKeyword .define) with
  | true =>
      obtain ⟨o, tail, hrest, ho, hword⟩ := begins_of_atDefinition hdef
      have hform := recognises_form "definition" (definition inner)
        (L := fun m => .closed o (DerivesBinding m)) hroom hrest ho
        fun m hroom => recognises_definition h hroom hword
      refine ((recognises_map itemOfParsed hform).of_eq (by
        rw [item, atDefinition_bind_apply, hdef, if_pos rfl])).congr ?_
      intro i ts rest hsplit
      constructor
      · rintro ⟨_, rfl, m, d, _, rfl, rfl, rfl, us, k, rfl, hk, hd⟩
        exact .form ho hk hd
      · intro hi
        cases i with
        | definition d =>
            cases hi with
            | @form m o' k us d ho' hk hd =>
                obtain ⟨rfl, -⟩ := List.cons.inj (hrest.symm.trans hsplit)
                exact ⟨.whole d, rfl, m, d, us ++ [k], rfl, rfl, rfl, us, k, rfl, hk, hd⟩
        | expression e =>
            -- No expression begins with a bracket and the word for definitions.
            exact absurd hword (DerivesExpr.lexeme_ne_define hi (hsplit.symm.trans hrest) ho)
        | nothing => exact hi.elim
  | false =>
      refine ((recognises_map BodyItem.expression hexpr).of_eq (by
        rw [item, atDefinition_bind_apply, hdef]
        rfl)).congr ?_
      intro i ts rest hsplit
      constructor
      · rintro ⟨e, rfl, he⟩
        exact he
      · intro hi
        cases i with
        | definition d =>
            obtain ⟨o, w, us, rfl, ho, hw⟩ := DerivesDefinition.exists_head hi
            simp [hsplit, ho, Token.isKeyword, hw] at hdef
        | expression e => exact ⟨e, rfl, hi⟩
        | nothing => exact hi.elim

end Parse

end SchemeFront
