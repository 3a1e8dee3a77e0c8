import SchemeFront.Expr

set_option autoImplicit false

/-! # The grammar of programs

A derivation says which tokens an expression, a definition or a body consists of. Forms are
definitions and compound expressions; the number `n` bounds how deeply they are nested, and
parameter lists do not count. The span of a form is that of its brackets and what is between
them.

The predicates do not mention how tokens are parsed. Which token can come first
(`DerivesExpr.exists_head`, `DerivesForm.exists_head`) decides between the alternatives.
-/

namespace SchemeFront

/-- The token that an identifier is written as. -/
def Identifier.token (i : Identifier) : Token := ⟨.atom (.ident i.name), i.span⟩

/-- No two parameters have the same name. -/
def Identifier.Distinct (is : List Identifier) : Prop := (is.map Identifier.name).Nodup

mutual

/-- The tokens of an expression with at most `n` levels of forms. -/
inductive DerivesExpr : (n : Nat) → List Token → Expr → Prop
  | atom (n : Nat) (s : Span) (a : Atom) : DerivesExpr n [⟨.atom a, s⟩] (.atom s a)
  | form {n : Nat} {o k : Token} {ts : List Token} {e : Expr} (ho : o.opens = true)
      (hk : k.closes = true) (h : DerivesForm n (o.span.join k.span) ts e) :
      DerivesExpr (n + 1) (o :: (ts ++ [k])) e

/-- The tokens between the brackets of a compound expression with the span `s`. -/
inductive DerivesForm : (n : Nat) → (s : Span) → List Token → Expr → Prop
  | choice {n : Nat} {s : Span} {w : Token} {ts us : List Token} {test conseq : Expr}
      (hw : w.lexeme = .keyword .conditional) (htest : DerivesExpr n ts test)
      (hconseq : DerivesExpr n us conseq) :
      DerivesForm n s (w :: (ts ++ us)) (.conditional s test conseq none)
  | choiceElse {n : Nat} {s : Span} {w : Token} {ts us vs : List Token} {test conseq alter : Expr}
      (hw : w.lexeme = .keyword .conditional) (htest : DerivesExpr n ts test)
      (hconseq : DerivesExpr n us conseq) (halter : DerivesExpr n vs alter) :
      DerivesForm n s (w :: (ts ++ (us ++ vs))) (.conditional s test conseq (some alter))
  | variadic {n : Nat} {s : Span} {w : Token} {i : Identifier} {ts : List Token} {b : Body}
      (hw : w.lexeme = .keyword .lambda) (hbody : DerivesBody n ts b) :
      DerivesForm n s (w :: i.token :: ts) (.procedure s true [i] b)
  | procedure {n : Nat} {s : Span} {w o k : Token} {is : List Identifier} {ts : List Token}
      {b : Body} (hw : w.lexeme = .keyword .lambda) (ho : o.opens = true) (hk : k.closes = true)
      (his : Identifier.Distinct is) (hbody : DerivesBody n ts b) :
      DerivesForm n s (w :: o :: (is.map Identifier.token ++ k :: ts)) (.procedure s false is b)
  | assignment {n : Nat} {s : Span} {w : Token} {i : Identifier} {ts : List Token} {e : Expr}
      (hw : w.lexeme = .keyword .assign) (hvalue : DerivesExpr n ts e) :
      DerivesForm n s (w :: i.token :: ts) (.assignment s i e)
  | call {n : Nat} {s : Span} {ts us : List Token} {f : Expr} {args : List Expr}
      (hoperator : DerivesExpr n ts f) (hargs : DerivesExprs n us args) :
      DerivesForm n s (ts ++ us) (.call s f args)

/-- The tokens of expressions one after the other. -/
inductive DerivesExprs : (n : Nat) → List Token → List Expr → Prop
  | nil (n : Nat) : DerivesExprs n [] []
  | cons {n : Nat} {ts us : List Token} {e : Expr} {es : List Expr} (h : DerivesExpr n ts e)
      (hs : DerivesExprs n us es) : DerivesExprs n (ts ++ us) (e :: es)

/-- The tokens of a definition. -/
inductive DerivesDefinition : (n : Nat) → List Token → Definition → Prop
  | form {n : Nat} {o k : Token} {ts : List Token} {d : Definition} (ho : o.opens = true)
      (hk : k.closes = true) (h : DerivesBinding n (o.span.join k.span) ts d) :
      DerivesDefinition (n + 1) (o :: (ts ++ [k])) d

/-- The tokens between the brackets of a definition with the span `s`. -/
inductive DerivesBinding : (n : Nat) → (s : Span) → List Token → Definition → Prop
  | value {n : Nat} {s : Span} {w : Token} {i : Identifier} {ts : List Token} {e : Expr}
      (hw : w.lexeme = .keyword .define) (hvalue : DerivesExpr n ts e) :
      DerivesBinding n s (w :: i.token :: ts) ⟨s, i, e⟩
  | procedure {n : Nat} {s : Span} {w o k : Token} {i : Identifier} {is : List Identifier}
      {ts : List Token} {b : Body} (hw : w.lexeme = .keyword .define) (ho : o.opens = true)
      (hk : k.closes = true) (his : Identifier.Distinct is) (hbody : DerivesBody n ts b) :
      DerivesBinding n s (w :: o :: i.token :: (is.map Identifier.token ++ k :: ts))
        ⟨s, i, .procedure s false is b⟩

/-- The tokens of definitions one after the other. -/
inductive DerivesDefinitions : (n : Nat) → List Token → List Definition → Prop
  | nil (n : Nat) : DerivesDefinitions n [] []
  | cons {n : Nat} {ts us : List Token} {d : Definition} {ds : List Definition}
      (h : DerivesDefinition n ts d) (hs : DerivesDefinitions n us ds) :
      DerivesDefinitions n (ts ++ us) (d :: ds)

/-- The tokens of a body: definitions, then at least one expression. -/
inductive DerivesBody : (n : Nat) → List Token → Body → Prop
  | mk {n : Nat} {ts us : List Token} {b : Body} (hdefs : DerivesDefinitions n ts b.defs)
      (hexprs : DerivesExprs n us b.exprs) : DerivesBody n (ts ++ us) b

end

variable {n : Nat} {s : Span} {ts us : List Token} {e : Expr} {es : List Expr} {d : Definition}
  {ds : List Definition}

/-! ## First tokens -/

/-- The token begins an expression. -/
def Token.BeginsExpr (t : Token) : Prop := t.opens = true ∨ ∃ a, t.lexeme = .atom a

theorem Token.BeginsExpr.closes_eq_false {t : Token} (h : t.BeginsExpr) : t.closes = false := by
  rcases h with h | ⟨a, h⟩
  · simp_all [Token.opens, Token.closes, Token.isKeyword]
  · simp [Token.closes, Token.isKeyword, h]

/-- No word begins an expression. -/
theorem Token.BeginsExpr.lexeme_ne {t : Token} (h : t.BeginsExpr) {k : Keyword}
    (hk : k ≠ .opening) : t.lexeme ≠ .keyword k := by
  rcases h with h | ⟨a, h⟩
  · rw [Token.opens, Token.isKeyword, beq_iff_eq] at h
    rw [h]
    simpa using hk.symm
  · simp [h]

theorem DerivesExpr.exists_head (h : DerivesExpr n ts e) :
    ∃ t us, ts = t :: us ∧ t.BeginsExpr := by
  cases h with
  | atom n s a => exact ⟨_, [], rfl, .inr ⟨a, rfl⟩⟩
  | form ho hk h => exact ⟨_, _, rfl, .inl ho⟩

/-- Behind its bracket, an expression does not go on like a definition. -/
theorem DerivesForm.exists_head (h : DerivesForm n s ts e) :
    ∃ t us, ts = t :: us ∧ t.lexeme ≠ .keyword .define := by
  cases h with
  | call hoperator hargs =>
      obtain ⟨t, us, rfl, ht⟩ := hoperator.exists_head
      exact ⟨t, _, rfl, ht.lexeme_ne (by decide)⟩
  | choice hw | choiceElse hw | variadic hw | procedure hw | assignment hw =>
      exact ⟨_, _, rfl, by simp [hw]⟩

theorem DerivesBinding.exists_head (h : DerivesBinding n s ts d) :
    ∃ t us, ts = t :: us ∧ t.lexeme = .keyword .define := by
  cases h with
  | value hw | procedure hw => exact ⟨_, _, rfl, hw⟩

/-- An expression does not begin like a definition. -/
theorem DerivesExpr.lexeme_ne_define {o : Token} {rest tail : List Token}
    (h : DerivesExpr n ts e) (hrest : ts ++ rest = o :: tail) (ho : o.opens = true) :
    tail[0]?.map Token.lexeme ≠ some (.keyword .define) := by
  cases h with
  | atom n s a =>
      obtain ⟨rfl, -⟩ := List.cons.inj hrest
      cases ho
  | form ho hk h =>
      obtain ⟨t, us, rfl, ht⟩ := h.exists_head
      obtain ⟨-, rfl⟩ := List.cons.inj hrest
      simpa using ht

theorem DerivesDefinition.exists_head (h : DerivesDefinition n ts d) :
    ∃ o w us, ts = o :: w :: us ∧ o.opens = true ∧ w.lexeme = .keyword .define := by
  cases h with
  | form ho hk h =>
      obtain ⟨w, us, rfl, hw⟩ := h.exists_head
      exact ⟨_, w, _, rfl, ho, hw⟩

/-- What has a derivation is no error. -/
theorem DerivesExpr.isError_eq_false (h : DerivesExpr n ts e) : e.isError = false := by
  cases h with
  | atom => rfl
  | form ho hk h => cases h <;> rfl

end SchemeFront
