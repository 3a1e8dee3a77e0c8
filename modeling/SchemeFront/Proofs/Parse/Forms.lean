import SchemeFront.Parse.Body
import SchemeFront.Proofs.Parse.Recognition
import SchemeFront.Proofs.Token.Nesting

set_option autoImplicit false

/-! # What is recognised inside forms

If the parsers for what is nested recognise the grammar (`Inner.Recognises`), then so do the
parsers of all forms that are built from them: each reads what is between the brackets, and the
closing bracket (`ValueLanguage.closed`).
-/

namespace SchemeFront

open Token

variable {α : Type} {ctx : Context} {pos : Position} {inner : Inner} {opened : Token} {size n : Nat}

/-- At a closing bracket, or at the end of the input. -/
def Token.Ends (rest : List Token) : Prop := ∀ t ∈ rest.head?, t.closes = true

/-- The parsers recognise the expressions and bodies of the grammar where fewer than `size` tokens
are left. A body is read as far as possible. -/
structure Inner.Recognises (inner : Inner) (ctx : Context) (size : Nat) : Prop where
  expr : ∀ also pos n, Room ctx size n pos →
    Parse.Recognises (inner.expr also) ctx pos fun e ts _ => DerivesExpr n ts e
  body : ∀ pos n, Room ctx size n pos →
    Parse.Recognises inner.body ctx pos fun b ts rest => DerivesBody n ts b ∧ Token.Ends rest

/-- What `L` says of the tokens behind the bracket `o`, and the bracket that closes it. -/
def ValueLanguage.closed (o : Token) (L : Span → List Token → α → Prop) : ValueLanguage α :=
  fun a ts _ => ∃ us k, ts = us ++ [k] ∧ k.closes = true ∧ L (o.span.join k.span) us a

namespace Parse

/-- The first token, by what it says. -/
theorem lexeme_eq_of_head {ts us : List Token} {w : Token} {l : Lexeme}
    (hhead : ts[0]?.map Token.lexeme = some l) (h : ts = w :: us) : w.lexeme = l := by
  simpa [h] using hhead

/-- No closing bracket begins an expression. -/
theorem next_closes_eq_false {ts rest : List Token} {e : Expr} (hrest : pos.rest = ts ++ rest)
    (h : DerivesExpr n ts e) : pos.rest[0]?.any Token.closes = false := by
  obtain ⟨t, us, rfl, ht⟩ := h.exists_head
  simp [hrest, ht.closes_eq_false]

/-! ## Parameters -/

theorem closes_token (i : Identifier) : i.token.closes = false := rfl

/-- Identifiers are read up to and with a closing bracket. -/
theorem recognises_identifiers {rounds : Nat} (hrounds : pos.rest.length < rounds) :
    Recognises (identifiers rounds) ctx pos fun is ts _ =>
      ∃ k, k.closes = true ∧ ts = is.map Identifier.token ++ [k] := by
  induction rounds generalizing pos with
  | zero => exact absurd hrounds (Nat.not_lt_zero _)
  | succ rounds ih =>
      cases hnext : pos.rest[0]?.any Token.closes with
      | true =>
          -- A name does not close anything, so there is none in front of the bracket.
          refine ((recognises_bind_pure (fun _ => ([] : List Identifier))
            recognises_advance).of_eq (by
              rw [identifiers, nextCloses_bind_apply, hnext, if_pos rfl])).congr ?_
          intro is ts rest hrest
          constructor
          · rintro ⟨k, rfl, rfl⟩
            have hk : k.closes = true := by simpa [hrest] using hnext
            exact ⟨k, hk, rfl⟩
          · rintro ⟨k, hk, rfl⟩
            cases is with
            | nil => exact ⟨k, rfl, rfl⟩
            | cons i is => simp [hrest, closes_token] at hnext
      | false =>
          refine ((recognises_bind (recognises_identifier [")"]) fun first _ _ hfirst hts =>
            recognises_bind_pure (first :: ·) (ih (by
              rw [hfirst, hts, List.length_append, List.length_singleton] at hrounds
              rw [Position.moveTo_rest]
              omega))).of_eq (by
              rw [identifiers, nextCloses_bind_apply, hnext]
              rfl)).congr ?_
          intro is ts rest hrest
          constructor
          · rintro ⟨first, _, _, rfl, rfl, more, rfl, k, hk, rfl⟩
            exact ⟨k, hk, rfl⟩
          · rintro ⟨k, hk, rfl⟩
            cases is with
            | nil => simp [hrest, hk] at hnext
            | cons i is =>
                refine ⟨i, [i.token], is.map Identifier.token ++ [k], rfl, rfl, ?_⟩
                exact ⟨is, rfl, k, hk, rfl⟩

theorem repeated?_eq_none_iff (seen : List String) (is : List Identifier) :
    repeated? seen is = none ↔ Identifier.Distinct is ∧ ∀ i ∈ is, i.name ∉ seen := by
  induction is generalizing seen with
  | nil => simp [repeated?, Identifier.Distinct]
  | cons i is ih =>
      rw [repeated?]
      split
      · rename_i hseen
        rw [List.contains_iff_mem] at hseen
        simp [hseen]
      · rename_i hseen
        rw [List.contains_iff_mem] at hseen
        rw [ih]
        simp only [Identifier.Distinct, List.map_cons, List.nodup_cons, List.mem_map, not_exists,
          not_and, List.mem_cons, not_or, forall_eq_or_imp]
        constructor
        · rintro ⟨hdistinct, hnames⟩
          exact ⟨⟨fun j hj => (hnames j hj).1, hdistinct⟩, hseen, fun j hj => (hnames j hj).2⟩
        · rintro ⟨⟨hnames, hdistinct⟩, -, hrest⟩
          exact ⟨hdistinct, fun j hj => ⟨hnames j hj, hrest j hj⟩⟩

theorem recognises_distinct (is : List Identifier) :
    Recognises (distinct is) ctx pos fun js ts _ => js = is ∧ ts = [] ∧ Identifier.Distinct is := by
  have hiff := repeated?_eq_none_iff [] is
  cases hrepeated : repeated? [] is with
  | none =>
      have hdistinct := (hiff.1 hrepeated).1
      refine ((recognises_pure is).of_eq (by rw [distinct, hrepeated])).congr ?_
      intro js ts rest _
      simp [hdistinct]
  | some i =>
      have hdistinct : ¬ Identifier.Distinct is := fun h => by
        simp [hiff.2 ⟨h, by simp⟩] at hrepeated
      refine ((refuses_reject (duplicate i)).of_eq (by rw [distinct, hrepeated])).recognises ?_
      rintro js ts rest - ⟨-, -, h⟩
      exact hdistinct h

/-- Parameters are identifiers with different names, and a closing bracket. -/
theorem recognises_parameters :
    Recognises parameters ctx pos fun is ts _ =>
      ∃ k, k.closes = true ∧ Identifier.Distinct is ∧ ts = is.map Identifier.token ++ [k] := by
  have hrounds : Recognises (withRounds identifiers) ctx pos fun is ts _ =>
      ∃ k, k.closes = true ∧ ts = is.map Identifier.token ++ [k] :=
    (recognises_identifiers (Nat.lt_succ_self _)).of_eq rfl
  refine (recognises_bind hrounds fun is _ _ _ _ => recognises_distinct is).congr ?_
  intro is ts rest _
  constructor
  · rintro ⟨js, _, _, rfl, ⟨k, hk, rfl⟩, rfl, rfl, hdistinct⟩
    exact ⟨k, hk, hdistinct, by simp⟩
  · rintro ⟨k, hk, hdistinct, rfl⟩
    exact ⟨is, _, [], (List.append_nil _).symm, ⟨k, hk, rfl⟩, rfl, rfl, hdistinct⟩

/-! ## Conditionals -/

theorem recognises_alternative (h : inner.Recognises ctx size) (hroom : Room ctx size n pos) :
    Recognises (alternative inner) ctx pos fun alter ts rest =>
      (alter = none ∧ ts = [] ∧ rest[0]?.any Token.closes = true)
        ∨ ∃ e, alter = some e ∧ DerivesExpr n ts e := by
  cases hnext : pos.rest[0]?.any Token.closes with
  | true =>
      refine ((recognises_pure (none : Option Expr)).of_eq (by
        rw [alternative, nextCloses_bind_apply, hnext, if_pos rfl])).congr ?_
      intro alter ts rest hrest
      constructor
      · rintro ⟨rfl, rfl⟩
        exact .inl ⟨rfl, rfl, by simpa [hrest] using hnext⟩
      · rintro (⟨rfl, rfl, -⟩ | ⟨e, rfl, he⟩)
        · exact ⟨rfl, rfl⟩
        · simp [next_closes_eq_false hrest he] at hnext
  | false =>
      refine ((recognises_map some (h.expr [")"] pos n hroom)).of_eq (by
        rw [alternative, nextCloses_bind_apply, hnext]
        rfl)).congr ?_
      intro alter ts rest hrest
      constructor
      · exact .inr
      · -- The alternative is left out only in front of a closing bracket.
        rintro (⟨rfl, rfl, hcloses⟩ | he)
        · rw [List.nil_append] at hrest
          simp [hrest, hcloses] at hnext
        · exact he

theorem recognises_conditional (h : inner.Recognises ctx size) (hroom : Room ctx size n pos)
    (hhead : pos.rest[0]?.map Token.lexeme = some (.keyword .conditional)) :
    Recognises (conditional inner opened) ctx pos (.closed opened (DerivesForm n)) := by
  refine (recognises_bind_of_room hroom recognises_advance fun _ _ hroom =>
    recognises_bind_of_room hroom (h.expr [] _ n hroom) fun test _ hroom =>
    recognises_bind_of_room hroom (h.expr [] _ n hroom) fun conseq _ hroom =>
    recognises_bind_of_room hroom (recognises_alternative h hroom) fun alter _ _ =>
    recognises_closed fun k =>
      Expr.conditional (opened.span.join k.span) test conseq alter).congr ?_
  intro e ts rest hrest
  constructor
  · -- One part after another is taken off, in the order of reading.
    rintro ⟨w, _, _, rfl, rfl, hmore⟩
    obtain ⟨test, ts, _, rfl, htest, hmore⟩ := hmore
    obtain ⟨conseq, us, _, rfl, hconseq, hmore⟩ := hmore
    obtain ⟨alter, vs, _, rfl, halter, k, hk, rfl, rfl⟩ := hmore
    have hw : w.lexeme = .keyword .conditional := lexeme_eq_of_head hhead hrest
    rcases halter with ⟨rfl, rfl, -⟩ | ⟨e, rfl, halter⟩
    · exact ⟨w :: (ts ++ us), k, by simp, hk, .choice hw htest hconseq⟩
    · exact ⟨w :: (ts ++ (us ++ vs)), k, by simp, hk, .choiceElse hw htest hconseq halter⟩
  · rintro ⟨_, k, rfl, hk, hform⟩
    cases hform with
    | @choice _ _ w ts us test conseq hw htest hconseq =>
        have hnext : ([k] ++ rest)[0]?.any Token.closes = true := by simpa using hk
        refine ⟨w, [w], ts ++ us ++ [k], by simp, rfl, ?_⟩
        refine ⟨test, ts, us ++ [k], by simp, htest, ?_⟩
        refine ⟨conseq, us, [k], rfl, hconseq, ?_⟩
        exact ⟨none, [], [k], rfl, .inl ⟨rfl, rfl, hnext⟩, k, hk, rfl, rfl⟩
    | @choiceElse _ _ w ts us vs test conseq alter hw htest hconseq halter =>
        refine ⟨w, [w], ts ++ us ++ vs ++ [k], by simp, rfl, ?_⟩
        refine ⟨test, ts, us ++ vs ++ [k], by simp, htest, ?_⟩
        refine ⟨conseq, us, vs ++ [k], by simp, hconseq, ?_⟩
        exact ⟨some alter, vs, [k], rfl, .inr ⟨alter, rfl, halter⟩, k, hk, rfl, rfl⟩
    | variadic hw | procedure hw | assignment hw => simp [hrest, hw] at hhead
    | call hoperator hargs =>
        obtain ⟨t, us, rfl, ht⟩ := hoperator.exists_head
        exact absurd (lexeme_eq_of_head hhead hrest) (ht.lexeme_ne (by decide))

/-! ## Procedures -/

/-- The first token, if it opens a bracket. -/
theorem opens_of_head {ts us : List Token} {o : Token}
    (hhead : ts[0]?.any Token.opens = true) (h : ts = o :: us) : o.opens = true := by
  simpa [h] using hhead

/-- What begins with a name is told from what begins with a bracket by the next token. -/
theorem recognises_name_or_bracket {p q : Parse α} {L M : ValueLanguage α} {expected : List String}
    (hp : Recognises p ctx pos L) (hL : ∀ a ts rest, L a ts rest → ∃ i us,
      ts = Identifier.token i :: us)
    (hq : pos.rest[0]?.any Token.opens = true → Recognises q ctx pos M)
    (hM : ∀ a ts rest, M a ts rest → ∃ o us, ts = o :: us ∧ o.opens = true) :
    Recognises (do
        match ← peek 0 with
        | some t =>
            if t.name?.isSome then p
            else if t.opens then q
            else fail expected
        | none => fail expected) ctx pos fun a ts rest => L a ts rest ∨ M a ts rest := by
  have notName : pos.rest[0]?.bind Token.name? = none →
      ∀ a ts rest, pos.rest = ts ++ rest → ¬ L a ts rest := by
    intro hname a ts rest hrest ha
    obtain ⟨i, us, rfl⟩ := hL a ts rest ha
    simp [hrest] at hname
  have notBracket : pos.rest[0]?.any Token.opens = false →
      ∀ a ts rest, pos.rest = ts ++ rest → ¬ M a ts rest := by
    intro hopens a ts rest hrest ha
    obtain ⟨o, us, rfl, ho⟩ := hM a ts rest ha
    simp [hrest, ho] at hopens
  -- One token of lookahead is enough: at most one of the languages is not empty here.
  cases hrest : pos.rest with
  | nil =>
      refine ((refuses_fail expected).of_eq (by
        rw [peek_bind_apply, hrest]
        rfl)).recognises ?_
      rintro a ts rest hsplit (ha | ha)
      · exact notName (by simp [hrest]) a ts rest hsplit ha
      · exact notBracket (by simp [hrest]) a ts rest hsplit ha
  | cons t tail =>
      cases hname : t.name? with
      | none =>
          cases ho : t.opens with
          | true =>
              refine ((hq (by simp [hrest, ho])).of_eq (by
                rw [peek_bind_apply, hrest]
                simp [hname, ho])).congr ?_
              intro a ts rest hsplit
              simp [notName (by simp [hrest, hname]) a ts rest hsplit]
          | false =>
              refine ((refuses_fail expected).of_eq (by
                rw [peek_bind_apply, hrest]
                simp [hname, ho])).recognises ?_
              rintro a ts rest hsplit (ha | ha)
              · exact notName (by simp [hrest, hname]) a ts rest hsplit ha
              · exact notBracket (by simp [hrest, ho]) a ts rest hsplit ha
      | some name =>
          refine (hp.of_eq (by
            rw [peek_bind_apply, hrest]
            simp [hname])).congr ?_
          intro a ts rest hsplit
          simp [notBracket (by simp [hrest, (name?_eq_some hname).1]) a ts rest hsplit]

/-- The parameters of a procedure: a name, or names in brackets. -/
theorem recognises_formals :
    Recognises formals ctx pos fun f ts _ =>
      (∃ i, f = (true, [i]) ∧ ts = [i.token]) ∨
      ∃ o is k, f = (false, is) ∧ o.opens = true ∧ k.closes = true ∧ Identifier.Distinct is ∧
        ts = o :: (is.map Identifier.token ++ [k]) := by
  refine recognises_name_or_bracket ?_ ?_ (fun hhead => ?_) ?_
  · exact recognises_bind_pure (fun i => (true, [i])) (recognises_identifier [])
  · rintro f ts rest ⟨i, rfl, rfl⟩
    exact ⟨i, [], rfl⟩
  · refine (recognises_bind recognises_advance fun _ _ _ _ _ =>
      recognises_bind_pure (fun is => (false, is)) recognises_parameters).congr ?_
    intro f ts rest hrest
    constructor
    · rintro ⟨o, _, _, rfl, rfl, is, rfl, k, hk, hdistinct, rfl⟩
      have ho : o.opens = true := opens_of_head hhead hrest
      exact ⟨o, is, k, rfl, ho, hk, hdistinct, rfl⟩
    · rintro ⟨o, is, k, rfl, ho, hk, hdistinct, rfl⟩
      refine ⟨o, [o], is.map Identifier.token ++ [k], rfl, rfl, ?_⟩
      exact ⟨is, rfl, k, hk, hdistinct, rfl⟩
  · rintro f ts rest ⟨o, is, k, rfl, ho, -, -, rfl⟩
    exact ⟨o, _, rfl, ho⟩

theorem recognises_procedure (h : inner.Recognises ctx size) (hroom : Room ctx size n pos)
    (hhead : pos.rest[0]?.map Token.lexeme = some (.keyword .lambda)) :
    Recognises (procedure inner opened) ctx pos (.closed opened (DerivesForm n)) := by
  refine ((recognises_bind_of_room hroom recognises_advance fun _ _ hroom =>
    recognises_bind_of_room hroom recognises_formals fun f _ hroom =>
    recognises_bind_of_room hroom (h.body _ n hroom) fun body _ _ =>
    recognises_closed fun k =>
      Expr.procedure (opened.span.join k.span) f.1 f.2 body).of_eq rfl).congr ?_
  intro e ts rest hrest
  constructor
  · rintro ⟨w, _, _, rfl, rfl, hmore⟩
    obtain ⟨f, _, _, rfl, hformals, hmore⟩ := hmore
    obtain ⟨b, ts, _, rfl, ⟨hbody, -⟩, k, hk, rfl, rfl⟩ := hmore
    have hw : w.lexeme = .keyword .lambda := lexeme_eq_of_head hhead hrest
    rcases hformals with ⟨i, rfl, rfl⟩ | ⟨o, is, k', rfl, ho, hk', his, rfl⟩
    · exact ⟨w :: i.token :: ts, k, by simp, hk, .variadic hw hbody⟩
    · exact ⟨w :: o :: (is.map Identifier.token ++ k' :: ts), k, by simp, hk,
        .procedure hw ho hk' his hbody⟩
  · rintro ⟨_, k, rfl, hk, hform⟩
    -- The body is read as far as possible, so its end must be seen to be the closing bracket.
    have hends : Ends ([k] ++ rest) := by simpa [Ends] using hk
    cases hform with
    | @variadic _ _ w i ts b hw hbody =>
        refine ⟨w, [w], i.token :: ts ++ [k], by simp, rfl, ?_⟩
        refine ⟨(true, [i]), [i.token], ts ++ [k], by simp, .inl ⟨i, rfl, rfl⟩, ?_⟩
        exact ⟨b, ts, [k], rfl, ⟨hbody, hends⟩, k, hk, rfl, rfl⟩
    | @procedure _ _ w o k' is ts b hw ho hk' his hbody =>
        refine ⟨w, [w], o :: (is.map Identifier.token ++ k' :: ts) ++ [k], by simp, rfl, ?_⟩
        refine ⟨(false, is), o :: (is.map Identifier.token ++ [k']), ts ++ [k], by simp,
          .inr ⟨o, is, k', rfl, ho, hk', his, rfl⟩, ?_⟩
        exact ⟨b, ts, [k], rfl, ⟨hbody, hends⟩, k, hk, rfl, rfl⟩
    | choice hw | choiceElse hw | assignment hw => simp [hrest, hw] at hhead
    | call hoperator hargs =>
        obtain ⟨t, us, rfl, ht⟩ := hoperator.exists_head
        exact absurd (lexeme_eq_of_head hhead hrest) (ht.lexeme_ne (by decide))

/-! ## Assignments -/

theorem recognises_assignment (h : inner.Recognises ctx size) (hroom : Room ctx size n pos)
    (hhead : pos.rest[0]?.map Token.lexeme = some (.keyword .assign)) :
    Recognises (assignment inner opened) ctx pos (.closed opened (DerivesForm n)) := by
  refine (recognises_bind_of_room hroom recognises_advance fun _ _ hroom =>
    recognises_bind_of_room hroom (recognises_identifier []) fun target _ hroom =>
    recognises_bind_of_room hroom (h.expr [] _ n hroom) fun value _ _ =>
    recognises_closed fun k =>
      Expr.assignment (opened.span.join k.span) target value).congr ?_
  intro e ts rest hrest
  constructor
  · rintro ⟨w, _, _, rfl, rfl, i, _, _, rfl, rfl, hmore⟩
    obtain ⟨value, ts, _, rfl, hvalue, k, hk, rfl, rfl⟩ := hmore
    have hw : w.lexeme = .keyword .assign := lexeme_eq_of_head hhead hrest
    exact ⟨w :: i.token :: ts, k, by simp, hk, .assignment hw hvalue⟩
  · rintro ⟨_, k, rfl, hk, hform⟩
    cases hform with
    | @assignment _ _ w i ts e hw hvalue =>
        refine ⟨w, [w], i.token :: ts ++ [k], by simp, rfl, ?_⟩
        refine ⟨i, [i.token], ts ++ [k], by simp, rfl, ?_⟩
        exact ⟨e, ts, [k], rfl, hvalue, k, hk, rfl, rfl⟩
    | choice hw | choiceElse hw | variadic hw | procedure hw => simp [hrest, hw] at hhead
    | call hoperator hargs =>
        obtain ⟨t, us, rfl, ht⟩ := hoperator.exists_head
        exact absurd (lexeme_eq_of_head hhead hrest) (ht.lexeme_ne (by decide))

/-! ## Calls -/

/-- Arguments are expressions up to a closing bracket. -/
theorem recognises_arguments (h : inner.Recognises ctx size) {rounds : Nat}
    (hroom : Room ctx size n pos) (hrounds : pos.rest.length < rounds) :
    Recognises (arguments inner rounds) ctx pos fun es ts rest =>
      DerivesExprs n ts es ∧ rest[0]?.any Token.closes = true := by
  induction rounds generalizing pos with
  | zero => exact absurd hrounds (Nat.not_lt_zero _)
  | succ rounds ih =>
      cases hnext : pos.rest[0]?.any Token.closes with
      | true =>
          refine ((recognises_pure ([] : List Expr)).of_eq (by
            rw [arguments, nextCloses_bind_apply, hnext, if_pos rfl])).congr ?_
          intro es ts rest hrest
          constructor
          · rintro ⟨rfl, rfl⟩
            exact ⟨.nil n, by simpa [hrest] using hnext⟩
          · rintro ⟨hes, -⟩
            cases hes with
            | nil => exact ⟨rfl, rfl⟩
            | cons he hes =>
                rw [List.append_assoc] at hrest
                simp [next_closes_eq_false hrest he] at hnext
      | false =>
          refine ((recognises_bind (h.expr [")"] pos n hroom) fun first ts rest hfirst hts =>
            recognises_bind_pure (first :: ·) (ih (hroom.moveTo hfirst) (by
              -- An expression takes a token, so a round fewer is enough for the others.
              obtain ⟨t, us, rfl, -⟩ := hts.exists_head
              rw [hfirst, List.length_append, List.length_cons] at hrounds
              rw [Position.moveTo_rest]
              omega))).of_eq (by
              rw [arguments, nextCloses_bind_apply, hnext]
              rfl)).congr ?_
          intro es ts rest hrest
          constructor
          · rintro ⟨first, ts, us, rfl, hfirst, more, rfl, hmore, hcloses⟩
            exact ⟨.cons hfirst hmore, hcloses⟩
          · rintro ⟨hes, hcloses⟩
            cases hes with
            | nil => simp [hrest, hcloses] at hnext
            | @cons _ ts us e es he hes => exact ⟨e, ts, us, rfl, he, es, rfl, hes, hcloses⟩

theorem recognises_call (h : inner.Recognises ctx size) (hroom : Room ctx size n pos)
    (hwords : ∀ k ∈ [Keyword.conditional, .lambda, .assign],
      pos.rest[0]?.map Token.lexeme ≠ some (.keyword k)) :
    Recognises (call inner opened) ctx pos (.closed opened (DerivesForm n)) := by
  have hargs : ∀ rest, Room ctx size n (pos.moveTo rest) →
      Recognises (withRounds (arguments inner)) ctx (pos.moveTo rest) fun es ts rest =>
        DerivesExprs n ts es ∧ rest[0]?.any Token.closes = true := fun rest hroom =>
    (recognises_arguments h hroom (Nat.lt_succ_self _)).of_eq rfl
  refine (recognises_bind_of_room hroom (h.expr [] _ n hroom) fun operator rest hroom =>
    recognises_bind_of_room hroom (hargs rest hroom) fun args _ _ =>
    recognises_closed fun k =>
      Expr.call (opened.span.join k.span) operator args).congr ?_
  intro e ts rest hrest
  constructor
  · rintro ⟨f, ts, _, rfl, hf, hmore⟩
    obtain ⟨args, us, _, rfl, ⟨hargs, -⟩, k, hk, rfl, rfl⟩ := hmore
    exact ⟨ts ++ us, k, by simp, hk, .call hf hargs⟩
  · rintro ⟨_, k, rfl, hk, hform⟩
    cases hform with
    | @call _ _ ts us f args hf hargs =>
        have hnext : ([k] ++ rest)[0]?.any Token.closes = true := by simpa using hk
        refine ⟨f, ts, us ++ [k], by simp, hf, ?_⟩
        exact ⟨args, us, [k], rfl, ⟨hargs, hnext⟩, k, hk, rfl, rfl⟩
    -- The other forms begin with a word, and a call does not.
    | choice hw | choiceElse hw =>
        exact absurd (by simp [hrest, hw]) (hwords .conditional (by simp))
    | variadic hw | procedure hw => exact absurd (by simp [hrest, hw]) (hwords .lambda (by simp))
    | assignment hw => exact absurd (by simp [hrest, hw]) (hwords .assign (by simp))

/-! ## Bodies -/

/-- A body is made of all the definitions and expressions that were found. -/
theorem body?_eq_some_iff {defs : List Definition} {exprs : List Expr} {b : Body} :
    body? defs exprs = some b ↔ b.defs = defs ∧ b.exprs = exprs := by
  rw [body?, Option.map_eq_some_iff]
  constructor
  · rintro ⟨last, hlast, rfl⟩
    obtain ⟨init, rfl⟩ := List.getLast?_eq_some_iff.1 hlast
    exact ⟨rfl, by simp [Body.exprs]⟩
  · rintro ⟨rfl, rfl⟩
    obtain ⟨defs, init, last⟩ := b
    exact ⟨last, by simp [Body.exprs], by simp [Body.exprs]⟩

end Parse

end SchemeFront
