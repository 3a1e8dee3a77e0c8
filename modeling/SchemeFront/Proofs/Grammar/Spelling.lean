import SchemeFront.Proofs.Parse.Acceptance
import SchemeFront.Proofs.Sameness

set_option autoImplicit false

/-! # What lexemes spell

Where tokens stand plays no part in whether they have a derivation, and only shows in the spans of
the program. So a list of lexemes spells an expression if all tokens with these lexemes are derived
to an expression that says the same (`SpellsExpr`, and so on for the other parts of a program). For
each rule of the grammar there is one for what is spelled.
-/

namespace SchemeFront

variable {n : Nat} {s s' : Span} {xs ys zs : List Lexeme} {e test conseq alter f : Expr}
  {es : List Expr} {d : Definition} {ds : List Definition} {b : Body} {i : Identifier}
  {is : List Identifier} {ts : List Token}

/-! ## Lexemes -/

namespace Lexeme

/-- Brackets around lexemes. -/
def bracketed (xs : List Lexeme) : List Lexeme :=
  .keyword .opening :: (xs ++ [.keyword .closing])

/-- The lexemes of names. -/
def names (is : List String) : List Lexeme := is.map fun name => .atom (.ident name)

end Lexeme

open Lexeme

namespace Token

theorem lexeme_eq_of_opens {t : Token} (h : t.opens = true) : t.lexeme = .keyword .opening := by
  simpa [opens, isKeyword] using h

theorem lexeme_eq_of_closes {t : Token} (h : t.closes = true) : t.lexeme = .keyword .closing := by
  simpa [closes, isKeyword] using h

/-- Brackets are opened and closed around tokens with the lexemes. -/
theorem exists_of_map_eq_bracketed (h : ts.map lexeme = bracketed xs) :
    ∃ o us k, ts = o :: (us ++ [k]) ∧ o.opens = true ∧ us.map lexeme = xs ∧ k.closes = true := by
  obtain ⟨o, rest, rfl, ho, hrest⟩ := List.map_eq_cons_iff.1 h
  obtain ⟨us, ks, rfl, hus, hks⟩ := List.map_eq_append_iff.1 hrest
  obtain ⟨k, rfl, hk⟩ := List.map_eq_singleton_iff.1 hks
  exact ⟨o, us, k, rfl, by simp [opens, isKeyword, ho], hus, by simp [closes, isKeyword, hk]⟩

/-- A name is the token of an identifier. -/
theorem eq_token_of_lexeme {t : Token} {name : String} (h : t.lexeme = .atom (.ident name)) :
    t = Identifier.token ⟨name, t.span⟩ := by
  rw [Identifier.token, ← h]

/-- Names are the tokens of identifiers. -/
theorem exists_of_map_eq_names (h : ts.map lexeme = names (is.map Identifier.name)) :
    ∃ js : List Identifier, ts = js.map Identifier.token ∧
      is.map Identifier.name = js.map Identifier.name := by
  induction is generalizing ts with
  | nil =>
      obtain rfl := List.map_eq_nil_iff.1 h
      exact ⟨[], rfl, rfl⟩
  | cons i is ih =>
      obtain ⟨t, us, rfl, ht, hus⟩ := List.map_eq_cons_iff.1 h
      obtain ⟨js, rfl, hjs⟩ := ih hus
      refine ⟨⟨i.name, t.span⟩ :: js, ?_, by rw [List.map_cons, List.map_cons, hjs]⟩
      rw [List.map_cons, ← eq_token_of_lexeme ht]

end Token

/-! ## Parts of programs -/

/-- The lexemes spell the expression. -/
def SpellsExpr (n : Nat) (xs : List Lexeme) (e : Expr) : Prop :=
  ∀ ts, ts.map Token.lexeme = xs → ∃ f, DerivesExpr n ts f ∧ e.same f = true

/-- The lexemes spell what is between the brackets of the expression. -/
def SpellsForm (n : Nat) (xs : List Lexeme) (e : Expr) : Prop :=
  ∀ s ts, ts.map Token.lexeme = xs → ∃ f, DerivesForm n s ts f ∧ e.same f = true

/-- The lexemes spell the expressions. -/
def SpellsExprs (n : Nat) (xs : List Lexeme) (es : List Expr) : Prop :=
  ∀ ts, ts.map Token.lexeme = xs → ∃ fs, DerivesExprs n ts fs ∧ Expr.sameAll es fs = true

/-- The lexemes spell the definition. -/
def SpellsDefinition (n : Nat) (xs : List Lexeme) (d : Definition) : Prop :=
  ∀ ts, ts.map Token.lexeme = xs → ∃ c, DerivesDefinition n ts c ∧ d.same c = true

/-- The lexemes spell what is between the brackets of the definition. -/
def SpellsBinding (n : Nat) (xs : List Lexeme) (d : Definition) : Prop :=
  ∀ s ts, ts.map Token.lexeme = xs → ∃ c, DerivesBinding n s ts c ∧ d.same c = true

/-- The lexemes spell the definitions. -/
def SpellsDefinitions (n : Nat) (xs : List Lexeme) (ds : List Definition) : Prop :=
  ∀ ts, ts.map Token.lexeme = xs →
    ∃ cs, DerivesDefinitions n ts cs ∧ Definition.sameAll ds cs = true

/-- The lexemes spell the body. -/
def SpellsBody (n : Nat) (xs : List Lexeme) (b : Body) : Prop :=
  ∀ ts, ts.map Token.lexeme = xs → ∃ c, DerivesBody n ts c ∧ b.same c = true

/-! ## Expressions -/

theorem spellsExpr_atom (n : Nat) (s : Span) (a : Atom) : SpellsExpr n [.atom a] (.atom s a) := by
  intro ts h
  obtain ⟨t, rfl, ht⟩ := List.map_eq_singleton_iff.1 h
  refine ⟨.atom t.span a, ?_, by simp [Expr.same]⟩
  have := DerivesExpr.atom n t.span a
  rwa [← ht] at this

theorem SpellsForm.expr (h : SpellsForm n xs e) : SpellsExpr (n + 1) (bracketed xs) e := by
  intro ts hts
  obtain ⟨o, us, k, rfl, ho, hus, hk⟩ := Token.exists_of_map_eq_bracketed hts
  obtain ⟨f, hf, hsame⟩ := h (o.span.join k.span) us hus
  exact ⟨f, .form ho hk hf, hsame⟩

theorem SpellsExpr.choice (htest : SpellsExpr n xs test) (hconseq : SpellsExpr n ys conseq) :
    SpellsForm n (.keyword .conditional :: (xs ++ ys)) (.conditional s test conseq none) := by
  intro s' ts h
  obtain ⟨w, rest, rfl, hw, hrest⟩ := List.map_eq_cons_iff.1 h
  obtain ⟨us, vs, rfl, hus, hvs⟩ := List.map_eq_append_iff.1 hrest
  obtain ⟨test', ht, htsame⟩ := htest us hus
  obtain ⟨conseq', hc, hcsame⟩ := hconseq vs hvs
  exact ⟨_, .choice hw ht hc, by simp [Expr.same, Expr.sameOption, htsame, hcsame]⟩

theorem SpellsExpr.choiceElse (htest : SpellsExpr n xs test) (hconseq : SpellsExpr n ys conseq)
    (halter : SpellsExpr n zs alter) :
    SpellsForm n (.keyword .conditional :: (xs ++ (ys ++ zs)))
      (.conditional s test conseq (some alter)) := by
  intro s' ts h
  obtain ⟨w, rest, rfl, hw, hrest⟩ := List.map_eq_cons_iff.1 h
  obtain ⟨us, rest, rfl, hus, hrest⟩ := List.map_eq_append_iff.1 hrest
  obtain ⟨vs, ws, rfl, hvs, hws⟩ := List.map_eq_append_iff.1 hrest
  obtain ⟨test', ht, htsame⟩ := htest us hus
  obtain ⟨conseq', hc, hcsame⟩ := hconseq vs hvs
  obtain ⟨alter', ha, hasame⟩ := halter ws hws
  exact ⟨_, .choiceElse hw ht hc ha, by simp [Expr.same, Expr.sameOption, htsame, hcsame, hasame]⟩

theorem SpellsBody.variadic (h : SpellsBody n xs b) :
    SpellsForm n (.keyword .lambda :: .atom (.ident i.name) :: xs) (.procedure s true [i] b) := by
  intro s' ts hts
  obtain ⟨w, rest, rfl, hw, hrest⟩ := List.map_eq_cons_iff.1 hts
  obtain ⟨t, us, rfl, ht, hus⟩ := List.map_eq_cons_iff.1 hrest
  obtain ⟨c, hc, hsame⟩ := h us hus
  rw [Token.eq_token_of_lexeme ht]
  exact ⟨_, .variadic hw hc, by simp [Expr.same, Identifier.sameAll, hsame]⟩

theorem SpellsBody.procedure (his : Identifier.Distinct is) (h : SpellsBody n xs b) :
    SpellsForm n (.keyword .lambda :: (bracketed (names (is.map Identifier.name)) ++ xs))
      (.procedure s false is b) := by
  intro s' ts hts
  obtain ⟨w, rest, rfl, hw, hrest⟩ := List.map_eq_cons_iff.1 hts
  obtain ⟨formals, us, rfl, hformals, hus⟩ := List.map_eq_append_iff.1 hrest
  obtain ⟨o, params, k, rfl, ho, hparams, hk⟩ := Token.exists_of_map_eq_bracketed hformals
  obtain ⟨js, rfl, hjs⟩ := Token.exists_of_map_eq_names hparams
  obtain ⟨c, hc, hsame⟩ := h us hus
  rw [Identifier.Distinct, hjs] at his
  refine ⟨.procedure s' false js c, ?_, by simp [Expr.same, Identifier.sameAll, hjs, hsame]⟩
  simpa using DerivesForm.procedure hw ho hk his hc

theorem SpellsExpr.assignment (h : SpellsExpr n xs e) :
    SpellsForm n (.keyword .assign :: .atom (.ident i.name) :: xs) (.assignment s i e) := by
  intro s' ts hts
  obtain ⟨w, rest, rfl, hw, hrest⟩ := List.map_eq_cons_iff.1 hts
  obtain ⟨t, us, rfl, ht, hus⟩ := List.map_eq_cons_iff.1 hrest
  obtain ⟨f, hf, hsame⟩ := h us hus
  rw [Token.eq_token_of_lexeme ht]
  exact ⟨_, .assignment hw hf, by simp [Expr.same, Identifier.same, hsame]⟩

theorem SpellsExpr.call (hf : SpellsExpr n xs f) (hes : SpellsExprs n ys es) :
    SpellsForm n (xs ++ ys) (.call s f es) := by
  intro s' ts hts
  obtain ⟨us, vs, rfl, hus, hvs⟩ := List.map_eq_append_iff.1 hts
  obtain ⟨g, hg, hgsame⟩ := hf us hus
  obtain ⟨gs, hgs, hgssame⟩ := hes vs hvs
  exact ⟨_, .call hg hgs, by simp [Expr.same, hgsame, hgssame]⟩

theorem spellsExprs_nil (n : Nat) : SpellsExprs n [] [] := by
  intro ts hts
  obtain rfl := List.map_eq_nil_iff.1 hts
  exact ⟨[], .nil n, rfl⟩

theorem SpellsExpr.cons (he : SpellsExpr n xs e) (hes : SpellsExprs n ys es) :
    SpellsExprs n (xs ++ ys) (e :: es) := by
  intro ts hts
  obtain ⟨us, vs, rfl, hus, hvs⟩ := List.map_eq_append_iff.1 hts
  obtain ⟨f, hf, hfsame⟩ := he us hus
  obtain ⟨fs, hfs, hfssame⟩ := hes vs hvs
  exact ⟨_, .cons hf hfs, by simp [Expr.sameAll, hfsame, hfssame]⟩

/-! ## Definitions and bodies -/

theorem SpellsBinding.definition (h : SpellsBinding n xs d) :
    SpellsDefinition (n + 1) (bracketed xs) d := by
  intro ts hts
  obtain ⟨o, us, k, rfl, ho, hus, hk⟩ := Token.exists_of_map_eq_bracketed hts
  obtain ⟨c, hc, hsame⟩ := h (o.span.join k.span) us hus
  exact ⟨c, .form ho hk hc, hsame⟩

theorem SpellsExpr.value (h : SpellsExpr n xs e) :
    SpellsBinding n (.keyword .define :: .atom (.ident i.name) :: xs) ⟨s, i, e⟩ := by
  intro s' ts hts
  obtain ⟨w, rest, rfl, hw, hrest⟩ := List.map_eq_cons_iff.1 hts
  obtain ⟨t, us, rfl, ht, hus⟩ := List.map_eq_cons_iff.1 hrest
  obtain ⟨f, hf, hsame⟩ := h us hus
  rw [Token.eq_token_of_lexeme ht]
  exact ⟨_, .value hw hf, by simp [Definition.same, Identifier.same, hsame]⟩

theorem SpellsBody.named (his : Identifier.Distinct is) (h : SpellsBody n xs b) :
    SpellsBinding n
      (.keyword .define :: (bracketed (names (i.name :: is.map Identifier.name)) ++ xs))
      ⟨s, i, .procedure s' false is b⟩ := by
  intro s'' ts hts
  obtain ⟨w, rest, rfl, hw, hrest⟩ := List.map_eq_cons_iff.1 hts
  obtain ⟨formals, us, rfl, hformals, hus⟩ := List.map_eq_append_iff.1 hrest
  obtain ⟨o, params, k, rfl, ho, hparams, hk⟩ := Token.exists_of_map_eq_bracketed hformals
  obtain ⟨t, params, rfl, ht, hparams⟩ := List.map_eq_cons_iff.1 hparams
  obtain ⟨js, rfl, hjs⟩ := Token.exists_of_map_eq_names hparams
  obtain ⟨c, hc, hsame⟩ := h us hus
  rw [Identifier.Distinct, hjs] at his
  rw [Token.eq_token_of_lexeme ht]
  refine ⟨⟨s'', ⟨i.name, t.span⟩, .procedure s'' false js c⟩, ?_,
    by simp [Definition.same, Expr.same, Identifier.same, Identifier.sameAll, hjs, hsame]⟩
  simpa using DerivesBinding.procedure hw ho hk his hc

theorem spellsDefinitions_nil (n : Nat) : SpellsDefinitions n [] [] := by
  intro ts hts
  obtain rfl := List.map_eq_nil_iff.1 hts
  exact ⟨[], .nil n, rfl⟩

theorem SpellsDefinition.cons (hd : SpellsDefinition n xs d) (hds : SpellsDefinitions n ys ds) :
    SpellsDefinitions n (xs ++ ys) (d :: ds) := by
  intro ts hts
  obtain ⟨us, vs, rfl, hus, hvs⟩ := List.map_eq_append_iff.1 hts
  obtain ⟨c, hc, hcsame⟩ := hd us hus
  obtain ⟨cs, hcs, hcssame⟩ := hds vs hvs
  exact ⟨_, .cons hc hcs, by simp [Definition.sameAll, hcsame, hcssame]⟩

theorem SpellsDefinitions.body (hdefs : SpellsDefinitions n xs b.defs)
    (hexprs : SpellsExprs n ys b.exprs) : SpellsBody n (xs ++ ys) b := by
  intro ts hts
  obtain ⟨us, vs, rfl, hus, hvs⟩ := List.map_eq_append_iff.1 hts
  obtain ⟨cs, hcs, hcssame⟩ := hdefs us hus
  obtain ⟨fs, hfs, hfssame⟩ := hexprs vs hvs
  have hbody := Parse.same_body? hcssame hfssame
  rw [Parse.body?_eq_some_iff.2 ⟨rfl, rfl⟩] at hbody
  cases hc : Parse.body? cs fs with
  | none =>
      rw [hc] at hbody
      cases hbody
  | some c =>
      rw [hc] at hbody
      obtain ⟨hdefs, hexprs⟩ := Parse.body?_eq_some_iff.1 hc
      cases hbody with
      | some hsame => exact ⟨c, .mk (hdefs.symm ▸ hcs) (hexprs.symm ▸ hfs), hsame⟩

end SchemeFront
