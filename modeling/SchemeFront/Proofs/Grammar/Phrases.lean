import Mathlib.Computability.MyhillNerode
import SchemeFront.Proofs.Grammar
import SchemeFront.Proofs.Token.Nesting

set_option autoImplicit false

/-! # Phrases

The grammar of programs without its side conditions: forms may be nested to any depth, names may
be repeated, and in a body definitions and expressions stand in any order (`Phrase.Derives`). The
token lists of each phrase are a language, and these languages satisfy the equations of the grammar.
What a language allows behind a token is its left quotient by that token, and from the equations it
can be calculated for every phrase and token: the equations are stated for a phrase and what follows
it.
-/

namespace SchemeFront

/-- Sets of token lists, with the operations of formal languages. -/
abbrev TokenLanguage := Language Token

variable {t : Token} {ts us : List Token} {K L M : TokenLanguage}

/-- The kinds of phrases. -/
inductive Phrase where
  | expression
  | form
  | expressions
  | formals
  | names
  | definition
  | binding
  | items
  | body
deriving DecidableEq

/-- The tokens are a phrase. A form and a binding are what stands between the brackets of an
expression and of a definition; items become a body by an expression among them. -/
inductive Phrase.Derives : Phrase → List Token → Prop
  | atom (a : Atom) (s : Span) : Derives .expression [⟨.atom a, s⟩]
  | compound {o c : Token} {ts : List Token} (ho : o.lexeme = .keyword .opening)
      (hc : c.lexeme = .keyword .closing) (h : Derives .form ts) :
      Derives .expression (o :: (ts ++ [c]))
  | choice {w : Token} {ts us : List Token} (hw : w.lexeme = .keyword .conditional)
      (htest : Derives .expression ts) (hconseq : Derives .expression us) :
      Derives .form (w :: (ts ++ us))
  | choiceElse {w : Token} {ts us vs : List Token} (hw : w.lexeme = .keyword .conditional)
      (htest : Derives .expression ts) (hconseq : Derives .expression us)
      (halter : Derives .expression vs) : Derives .form (w :: (ts ++ (us ++ vs)))
  | procedure {w : Token} {ts us : List Token} (hw : w.lexeme = .keyword .lambda)
      (hformals : Derives .formals ts) (hbody : Derives .body us) : Derives .form (w :: (ts ++ us))
  | assignment {w i : Token} {ts : List Token} (hw : w.lexeme = .keyword .assign)
      (hi : i.name?.isSome = true) (hvalue : Derives .expression ts) : Derives .form (w :: i :: ts)
  | call {ts us : List Token} (hoperator : Derives .expression ts)
      (hargs : Derives .expressions us) : Derives .form (ts ++ us)
  | noExpression : Derives .expressions []
  | moreExpressions {ts us : List Token} (h : Derives .expression ts)
      (more : Derives .expressions us) : Derives .expressions (ts ++ us)
  | variadic {i : Token} (hi : i.name?.isSome = true) : Derives .formals [i]
  | parameters {o c : Token} {ts : List Token} (ho : o.lexeme = .keyword .opening)
      (hc : c.lexeme = .keyword .closing) (h : Derives .names ts) :
      Derives .formals (o :: (ts ++ [c]))
  | noName : Derives .names []
  | moreNames {i : Token} {ts : List Token} (hi : i.name?.isSome = true)
      (more : Derives .names ts) : Derives .names (i :: ts)
  | definition {o c : Token} {ts : List Token} (ho : o.lexeme = .keyword .opening)
      (hc : c.lexeme = .keyword .closing) (h : Derives .binding ts) :
      Derives .definition (o :: (ts ++ [c]))
  | value {w i : Token} {ts : List Token} (hw : w.lexeme = .keyword .define)
      (hi : i.name?.isSome = true) (hvalue : Derives .expression ts) :
      Derives .binding (w :: i :: ts)
  | namedProcedure {w o i c : Token} {ts us : List Token} (hw : w.lexeme = .keyword .define)
      (ho : o.lexeme = .keyword .opening) (hi : i.name?.isSome = true)
      (hnames : Derives .names ts) (hc : c.lexeme = .keyword .closing)
      (hbody : Derives .body us) : Derives .binding (w :: o :: i :: (ts ++ c :: us))
  | noItem : Derives .items []
  | expressionItem {ts us : List Token} (h : Derives .expression ts) (more : Derives .items us) :
      Derives .items (ts ++ us)
  | definitionItem {ts us : List Token} (h : Derives .definition ts) (more : Derives .items us) :
      Derives .items (ts ++ us)
  | firstExpression {ts us : List Token} (h : Derives .expression ts)
      (more : Derives .items us) : Derives .body (ts ++ us)
  | earlyDefinition {ts us : List Token} (h : Derives .definition ts)
      (more : Derives .body us) : Derives .body (ts ++ us)

/-- The token lists that are a phrase. -/
def Phrase.language (p : Phrase) : TokenLanguage := {ts | p.Derives ts}

/-- The single tokens that say something of a kind. -/
def Token.saying (P : Lexeme → Prop) : TokenLanguage := {ts | ∃ t, P t.lexeme ∧ ts = [t]}

/-- The keyword `k`. -/
def Token.word (k : Keyword) : TokenLanguage := Token.saying (· = .keyword k)

/-- An identifier. -/
def Token.name : TokenLanguage := Token.saying (·.name?.isSome = true)

/-- A literal or an identifier. -/
def Token.atom : TokenLanguage := Token.saying fun l => ∃ a, l = .atom a

/-! ## The equations of the grammar -/

open Token

theorem Token.mem_saying_mul {P : Lexeme → Prop} :
    ts ∈ saying P * K ↔ ∃ t us, ts = t :: us ∧ P t.lexeme ∧ us ∈ K := by
  rw [Language.mem_mul]
  constructor
  · rintro ⟨-, ⟨t, ht, rfl⟩, us, hus, rfl⟩
    exact ⟨t, us, rfl, ht, hus⟩
  · rintro ⟨t, us, rfl, ht, hus⟩
    exact ⟨[t], ⟨t, ht, rfl⟩, us, hus, rfl⟩

namespace Phrase

/-- Behind an expression. -/
theorem expression_mul (K : TokenLanguage) :
    expression.language * K
      = Token.atom * K + word .opening * (form.language * (word .closing * K)) := by
  have heq : expression.language
      = Token.atom + word .opening * (form.language * word .closing) := by
    ext ts
    rw [Language.mem_add, word, mem_saying_mul]
    constructor
    · intro h
      cases h with
      | atom a s => exact .inl ⟨⟨.atom a, s⟩, ⟨a, rfl⟩, rfl⟩
      | compound ho hc h => exact .inr ⟨_, _, rfl, ho, Language.append_mem_mul h ⟨_, hc, rfl⟩⟩
    · rintro (⟨⟨-, s⟩, ⟨a, rfl⟩, rfl⟩ | ⟨o, us, rfl, ho, hus⟩)
      · exact .atom a s
      · obtain ⟨ts, h, -, ⟨c, hc, rfl⟩, rfl⟩ := Language.mem_mul.1 hus
        exact .compound ho hc h
  rw [heq, add_mul, mul_assoc, mul_assoc]

/-- Behind what is between the brackets of an expression. -/
theorem form_mul (K : TokenLanguage) :
    form.language * K
      = word .conditional
          * (expression.language * (expression.language * (K + expression.language * K)))
        + word .lambda * (formals.language * (body.language * K))
        + word .assign * (name * (expression.language * K))
        + expression.language * (expressions.language * K) := by
  have heq : form.language
      = word .conditional * (expression.language * (expression.language
          * (1 + expression.language)))
        + word .lambda * (formals.language * body.language)
        + word .assign * (name * expression.language)
        + expression.language * expressions.language := by
    ext ts
    simp only [Language.mem_add, word, name, mem_saying_mul]
    constructor
    · intro h
      cases h with
      | choice hw htest hconseq =>
          -- There is no alternative, and the empty list in its place.
          have hnone : [] ∈ 1 + expression.language := (Language.mem_add _ _ _).2 (.inl rfl)
          have hrest := Language.append_mem_mul htest (Language.append_mem_mul hconseq hnone)
          rw [List.append_nil] at hrest
          exact .inl (.inl (.inl ⟨_, _, rfl, hw, hrest⟩))
      | choiceElse hw htest hconseq halter =>
          have hsome := (Language.mem_add 1 expression.language _).2 (.inr halter)
          have hrest := Language.append_mem_mul htest (Language.append_mem_mul hconseq hsome)
          exact .inl (.inl (.inl ⟨_, _, rfl, hw, hrest⟩))
      | procedure hw hformals hbody =>
          exact .inl (.inl (.inr ⟨_, _, rfl, hw, Language.append_mem_mul hformals hbody⟩))
      | assignment hw hi hvalue => exact .inl (.inr ⟨_, _, rfl, hw, _, _, rfl, hi, hvalue⟩)
      | call hoperator hargs => exact .inr (Language.append_mem_mul hoperator hargs)
    · rintro (((⟨w, us, rfl, hw, hus⟩ | ⟨w, us, rfl, hw, hus⟩) | ⟨w, us, rfl, hw, hus⟩) | h)
      · obtain ⟨test, htest, vs, hvs, rfl⟩ := Language.mem_mul.1 hus
        obtain ⟨conseq, hconseq, alter, halter, rfl⟩ := Language.mem_mul.1 hvs
        rcases halter with rfl | halter
        · rw [List.append_nil]
          exact .choice hw htest hconseq
        · exact .choiceElse hw htest hconseq halter
      · obtain ⟨ts, hformals, us, hbody, rfl⟩ := Language.mem_mul.1 hus
        exact .procedure hw hformals hbody
      · obtain ⟨i, us, rfl, hi, hvalue⟩ := hus
        exact .assignment hw hi hvalue
      · obtain ⟨ts, hoperator, us, hargs, rfl⟩ := Language.mem_mul.1 h
        exact .call hoperator hargs
  rw [heq]
  simp only [add_mul, mul_add, mul_one, mul_assoc]

theorem expressions_mul (K : TokenLanguage) :
    expressions.language * K = K + expression.language * (expressions.language * K) := by
  have heq : expressions.language = 1 + expression.language * expressions.language := by
    ext ts
    rw [Language.mem_add, Language.mem_mul]
    constructor
    · intro h
      cases h with
      | noExpression => exact .inl rfl
      | moreExpressions h more => exact .inr ⟨_, h, _, more, rfl⟩
    · rintro (rfl | ⟨ts, h, us, more, rfl⟩)
      · exact .noExpression
      · exact .moreExpressions h more
  nth_rewrite 1 [heq]
  rw [add_mul, one_mul, mul_assoc]

theorem formals_mul (K : TokenLanguage) :
    formals.language * K = name * K + word .opening * (names.language * (word .closing * K)) := by
  have heq : formals.language = name + word .opening * (names.language * word .closing) := by
    ext ts
    rw [Language.mem_add, word, mem_saying_mul]
    constructor
    · intro h
      cases h with
      | variadic hi => exact .inl ⟨_, hi, rfl⟩
      | parameters ho hc h => exact .inr ⟨_, _, rfl, ho, Language.append_mem_mul h ⟨_, hc, rfl⟩⟩
    · rintro (⟨i, hi, rfl⟩ | ⟨o, us, rfl, ho, hus⟩)
      · exact .variadic hi
      · obtain ⟨ts, h, -, ⟨c, hc, rfl⟩, rfl⟩ := Language.mem_mul.1 hus
        exact .parameters ho hc h
  rw [heq, add_mul, mul_assoc, mul_assoc]

theorem names_mul (K : TokenLanguage) :
    names.language * K = K + name * (names.language * K) := by
  have heq : names.language = 1 + name * names.language := by
    ext ts
    rw [Language.mem_add, name, mem_saying_mul]
    constructor
    · intro h
      cases h with
      | noName => exact .inl rfl
      | moreNames hi more => exact .inr ⟨_, _, rfl, hi, more⟩
    · rintro (rfl | ⟨i, us, rfl, hi, more⟩)
      · exact .noName
      · exact .moreNames hi more
  nth_rewrite 1 [heq]
  rw [add_mul, one_mul, mul_assoc]

theorem definition_mul (K : TokenLanguage) :
    definition.language * K = word .opening * (binding.language * (word .closing * K)) := by
  have heq : definition.language = word .opening * (binding.language * word .closing) := by
    ext ts
    rw [word, mem_saying_mul]
    constructor
    · intro h
      cases h with
      | definition ho hc h => exact ⟨_, _, rfl, ho, Language.append_mem_mul h ⟨_, hc, rfl⟩⟩
    · rintro ⟨o, us, rfl, ho, hus⟩
      obtain ⟨ts, h, -, ⟨c, hc, rfl⟩, rfl⟩ := Language.mem_mul.1 hus
      exact .definition ho hc h
  rw [heq, mul_assoc, mul_assoc]

theorem binding_mul (K : TokenLanguage) :
    binding.language * K = word .define * (name * (expression.language * K)
      + word .opening * (name * (names.language * (word .closing * (body.language * K))))) := by
  have heq : binding.language = word .define * (name * expression.language
      + word .opening * (name * (names.language * (word .closing * body.language)))) := by
    ext ts
    simp only [word, name, mem_saying_mul, Language.mem_add]
    constructor
    · intro h
      cases h with
      | value hw hi hvalue => exact ⟨_, _, rfl, hw, .inl ⟨_, _, rfl, hi, hvalue⟩⟩
      | namedProcedure hw ho hi hnames hc hbody =>
          have hclosed : _ ∈ word .closing * body.language :=
            mem_saying_mul.2 ⟨_, _, rfl, hc, hbody⟩
          have hbehind := Language.append_mem_mul hnames hclosed
          exact ⟨_, _, rfl, hw, .inr ⟨_, _, rfl, ho, _, _, rfl, hi, hbehind⟩⟩
    · rintro ⟨w, -, rfl, hw, ⟨i, us, rfl, hi, hvalue⟩ | ⟨o, -, rfl, ho, i, us, rfl, hi, hus⟩⟩
      · exact .value hw hi hvalue
      · obtain ⟨ts, hnames, vs, hvs, rfl⟩ := Language.mem_mul.1 hus
        obtain ⟨c, us, rfl, hc, hbody⟩ := mem_saying_mul.1 hvs
        exact .namedProcedure hw ho hi hnames hc hbody
  rw [heq]
  simp only [add_mul, mul_assoc]

theorem items_mul (K : TokenLanguage) :
    items.language * K = K + (expression.language * (items.language * K)
      + definition.language * (items.language * K)) := by
  have heq : items.language = 1 + (expression.language * items.language
      + definition.language * items.language) := by
    ext ts
    simp only [Language.mem_add, Language.mem_mul]
    constructor
    · intro h
      cases h with
      | noItem => exact .inl rfl
      | expressionItem h more => exact .inr (.inl ⟨_, h, _, more, rfl⟩)
      | definitionItem h more => exact .inr (.inr ⟨_, h, _, more, rfl⟩)
    · rintro (rfl | ⟨ts, h, us, more, rfl⟩ | ⟨ts, h, us, more, rfl⟩)
      · exact .noItem
      · exact .expressionItem h more
      · exact .definitionItem h more
  nth_rewrite 1 [heq]
  simp only [add_mul, one_mul, mul_assoc]

theorem body_mul (K : TokenLanguage) :
    body.language * K = expression.language * (items.language * K)
      + definition.language * (body.language * K) := by
  have heq : body.language = expression.language * items.language
      + definition.language * body.language := by
    ext ts
    simp only [Language.mem_add, Language.mem_mul]
    constructor
    · intro h
      cases h with
      | firstExpression h more => exact .inl ⟨_, h, _, more, rfl⟩
      | earlyDefinition h more => exact .inr ⟨_, h, _, more, rfl⟩
    · rintro (⟨ts, h, us, more, rfl⟩ | ⟨ts, h, us, more, rfl⟩)
      · exact .firstExpression h more
      · exact .earlyDefinition h more
  nth_rewrite 1 [heq]
  simp only [add_mul, mul_assoc]

end Phrase

/-! ## Behind one token -/

@[simp] theorem leftQuotient_zero (ts : List Token) :
    (0 : TokenLanguage).leftQuotient ts = 0 := rfl

@[simp] theorem leftQuotient_add (L M : TokenLanguage) (ts : List Token) :
    (L + M).leftQuotient ts = L.leftQuotient ts + M.leftQuotient ts := rfl

theorem leftQuotient_one (t : Token) : (1 : TokenLanguage).leftQuotient [t] = 0 := by
  ext us
  simp

namespace Phrase

open Classical in
theorem leftQuotient_saying_mul (P : Lexeme → Prop) (K : TokenLanguage) (t : Token) :
    (saying P * K).leftQuotient [t] = if P t.lexeme then K else 0 := by
  ext us
  rw [Language.mem_leftQuotient, List.singleton_append, mem_saying_mul]
  split
  · rename_i ht
    constructor
    · rintro ⟨u, vs, heq, -, hvs⟩
      cases heq
      exact hvs
    · exact fun hus => ⟨t, us, rfl, ht, hus⟩
  · rename_i ht
    constructor
    · rintro ⟨u, vs, heq, hu, -⟩
      cases heq
      exact absurd hu ht
    · exact fun hus => absurd hus (Language.notMem_zero us)

@[simp] theorem leftQuotient_word_mul (k : Keyword) (K : TokenLanguage) (t : Token) :
    (word k * K).leftQuotient [t] = if t.lexeme = .keyword k then K else 0 := by
  rw [word, leftQuotient_saying_mul]
  congr

@[simp] theorem leftQuotient_name_mul (K : TokenLanguage) (t : Token) :
    (name * K).leftQuotient [t] = if t.name?.isSome = true then K else 0 := by
  rw [name, leftQuotient_saying_mul]
  congr

open Classical in
@[simp] theorem leftQuotient_expression_mul (K : TokenLanguage) (t : Token) :
    (expression.language * K).leftQuotient [t] =
      (if ∃ a, t.lexeme = .atom a then K else 0)
        + if t.lexeme = .keyword .opening then form.language * (word .closing * K) else 0 := by
  rw [expression_mul, leftQuotient_add, leftQuotient_word_mul, Token.atom, leftQuotient_saying_mul]

@[simp] theorem leftQuotient_form_mul (K : TokenLanguage) (t : Token) :
    (form.language * K).leftQuotient [t] =
      (if t.lexeme = .keyword .conditional then
          expression.language * (expression.language * (K + expression.language * K)) else 0)
        + (if t.lexeme = .keyword .lambda then formals.language * (body.language * K) else 0)
        + (if t.lexeme = .keyword .assign then name * (expression.language * K) else 0)
        + (expression.language * (expressions.language * K)).leftQuotient [t] := by
  simp only [form_mul, leftQuotient_add, leftQuotient_word_mul]

@[simp] theorem leftQuotient_expressions_mul (K : TokenLanguage) (t : Token) :
    (expressions.language * K).leftQuotient [t] =
      K.leftQuotient [t] + (expression.language * (expressions.language * K)).leftQuotient [t] := by
  nth_rewrite 1 [expressions_mul]
  rw [leftQuotient_add]

@[simp] theorem leftQuotient_formals_mul (K : TokenLanguage) (t : Token) :
    (formals.language * K).leftQuotient [t] =
      (if t.name?.isSome = true then K else 0)
        + if t.lexeme = .keyword .opening then names.language * (word .closing * K) else 0 := by
  rw [formals_mul, leftQuotient_add, leftQuotient_name_mul, leftQuotient_word_mul]

@[simp] theorem leftQuotient_names_mul (K : TokenLanguage) (t : Token) :
    (names.language * K).leftQuotient [t] =
      K.leftQuotient [t] + if t.name?.isSome = true then names.language * K else 0 := by
  nth_rewrite 1 [names_mul]
  rw [leftQuotient_add, leftQuotient_name_mul]

@[simp] theorem leftQuotient_definition_mul (K : TokenLanguage) (t : Token) :
    (definition.language * K).leftQuotient [t] =
      if t.lexeme = .keyword .opening then binding.language * (word .closing * K) else 0 := by
  rw [definition_mul, leftQuotient_word_mul]

@[simp] theorem leftQuotient_binding_mul (K : TokenLanguage) (t : Token) :
    (binding.language * K).leftQuotient [t] =
      if t.lexeme = .keyword .define then
        name * (expression.language * K)
          + word .opening * (name * (names.language * (word .closing * (body.language * K))))
      else 0 := by
  rw [binding_mul, leftQuotient_word_mul]

@[simp] theorem leftQuotient_items_mul (K : TokenLanguage) (t : Token) :
    (items.language * K).leftQuotient [t] =
      K.leftQuotient [t] + ((expression.language * (items.language * K)).leftQuotient [t]
        + (definition.language * (items.language * K)).leftQuotient [t]) := by
  nth_rewrite 1 [items_mul]
  rw [leftQuotient_add, leftQuotient_add]

@[simp] theorem leftQuotient_body_mul (K : TokenLanguage) (t : Token) :
    (body.language * K).leftQuotient [t] =
      (expression.language * (items.language * K)).leftQuotient [t]
        + (definition.language * (body.language * K)).leftQuotient [t] := by
  nth_rewrite 1 [body_mul]
  rw [leftQuotient_add]

end Phrase

/-! ## What can be completed -/

namespace Token

/-- The tokens begin some token list of the language. -/
def Viable (L : TokenLanguage) (ts : List Token) : Prop := ∃ us, ts ++ us ∈ L

/-- There is a token list in the language. -/
def Live (L : TokenLanguage) : Prop := Viable L []

theorem viable_append : Viable L (ts ++ us) ↔ Viable (L.leftQuotient ts) us := by
  simp only [Viable, Language.mem_leftQuotient, List.append_assoc]

theorem Viable.of_append (h : Viable L (ts ++ us)) : Viable L ts := by
  obtain ⟨vs, hvs⟩ := h
  exact ⟨us ++ vs, by rwa [← List.append_assoc]⟩

theorem Viable.add_left (h : Viable L ts) : Viable (L + M) ts := by
  obtain ⟨us, hus⟩ := h
  exact ⟨us, .inl hus⟩

theorem Viable.add_right (h : Viable M ts) : Viable (L + M) ts := by
  obtain ⟨us, hus⟩ := h
  exact ⟨us, .inr hus⟩

theorem viable_mul (hts : ts ∈ L) (hK : Live K) : Viable (L * K) ts := by
  obtain ⟨us, hus⟩ := hK
  exact ⟨us, Language.append_mem_mul hts hus⟩

/-- A token behind which nothing is allowed begins nothing. -/
theorem not_viable_of_leftQuotient_eq_zero (h : L.leftQuotient ts = 0) : ¬ Viable L ts := by
  rintro ⟨us, hus⟩
  rw [← Language.mem_leftQuotient, h] at hus
  exact Language.notMem_zero us hus

theorem live_of_mem (h : ts ∈ L) : Live L := ⟨ts, h⟩

theorem Live.mul (hL : Live L) (hK : Live K) : Live (L * K) := by
  obtain ⟨ts, hts⟩ := hL
  exact (viable_mul hts hK).of_append

theorem live_word (k : Keyword) : Live (word k) :=
  live_of_mem ⟨⟨.keyword k, Span.point "" 0⟩, rfl, rfl⟩

theorem live_name : Live name :=
  live_of_mem ⟨⟨.atom (.ident ""), Span.point "" 0⟩, rfl, rfl⟩

end Token

namespace Phrase

theorem live_expression : Live expression.language :=
  live_of_mem (.atom (.boolean true) (Span.point "" 0))

theorem live_expressions : Live expressions.language := live_of_mem .noExpression

theorem live_names : Live names.language := live_of_mem .noName

theorem live_formals : Live formals.language :=
  live_of_mem (.variadic (i := ⟨.atom (.ident ""), Span.point "" 0⟩) rfl)

theorem live_items : Live items.language := live_of_mem .noItem

theorem live_body : Live body.language :=
  live_of_mem (.firstExpression (.atom (.boolean true) (Span.point "" 0)) .noItem)

end Phrase

/-! ## The grammar with its side conditions -/

theorem Phrase.derives_names (is : List Identifier) :
    names.Derives (is.map Identifier.token) := by
  induction is with
  | nil => exact .noName
  | cons i is ih => exact .moreNames rfl ih

mutual

theorem DerivesExpr.phrase : ∀ {n : Nat} {ts : List Token} {e : Expr}, DerivesExpr n ts e →
    Phrase.expression.Derives ts
  | _, _, _, .atom _ s a => .atom a s
  | _, _, _, .form ho hk h => .compound (eq_of_beq ho) (eq_of_beq hk) h.phrase

theorem DerivesForm.phrase : ∀ {n : Nat} {s : Span} {ts : List Token} {e : Expr},
    DerivesForm n s ts e → Phrase.form.Derives ts
  | _, _, _, _, .choice hw htest hconseq => .choice hw htest.phrase hconseq.phrase
  | _, _, _, _, .choiceElse hw htest hconseq halter =>
      .choiceElse hw htest.phrase hconseq.phrase halter.phrase
  | _, _, _, _, .variadic hw hbody => .procedure hw (.variadic rfl) hbody.phrase
  | _, _, _, _, .procedure hw ho hk _ hbody => by
      have hbody := hbody.phrase
      rw [List.append_cons, ← List.cons_append]
      exact .procedure hw
        (.parameters (eq_of_beq ho) (eq_of_beq hk) (Phrase.derives_names _)) hbody
  | _, _, _, _, .assignment hw hvalue => .assignment hw rfl hvalue.phrase
  | _, _, _, _, .call hoperator hargs => .call hoperator.phrase hargs.phrases.1

/-- Expressions one after the other are items as well, and a body if there are any. -/
theorem DerivesExprs.phrases : ∀ {n : Nat} {ts : List Token} {es : List Expr},
    DerivesExprs n ts es → Phrase.expressions.Derives ts ∧ Phrase.items.Derives ts ∧
      (es ≠ [] → Phrase.body.Derives ts)
  | _, _, _, .nil _ => ⟨.noExpression, .noItem, fun h => absurd rfl h⟩
  | _, _, _, .cons h hs =>
      have hitems := hs.phrases.2.1
      ⟨.moreExpressions h.phrase hs.phrases.1, .expressionItem h.phrase hitems,
        fun _ => .firstExpression h.phrase hitems⟩

theorem DerivesDefinition.phrase : ∀ {n : Nat} {ts : List Token} {d : Definition},
    DerivesDefinition n ts d → Phrase.definition.Derives ts
  | _, _, _, .form ho hk h => .definition (eq_of_beq ho) (eq_of_beq hk) h.phrase

theorem DerivesBinding.phrase : ∀ {n : Nat} {s : Span} {ts : List Token} {d : Definition},
    DerivesBinding n s ts d → Phrase.binding.Derives ts
  | _, _, _, _, .value hw hvalue => .value hw rfl hvalue.phrase
  | _, _, _, _, .procedure hw ho hk _ hbody =>
      .namedProcedure hw (eq_of_beq ho) rfl (Phrase.derives_names _) (eq_of_beq hk) hbody.phrase

/-- Definitions may stand before a body. -/
theorem DerivesDefinitions.phrase : ∀ {n : Nat} {ts us : List Token} {ds : List Definition},
    DerivesDefinitions n ts ds → Phrase.body.Derives us → Phrase.body.Derives (ts ++ us)
  | _, _, _, _, .nil _, hus => hus
  | _, _, _, _, .cons h hs, hus => by
      have hd := h.phrase
      have hbody := hs.phrase hus
      rw [List.append_assoc]
      exact .earlyDefinition hd hbody

/-- Every program of the grammar with its side conditions is a body. -/
theorem DerivesBody.phrase : ∀ {n : Nat} {ts : List Token} {b : Body},
    DerivesBody n ts b → Phrase.body.Derives ts
  | _, _, _, .mk hdefs hexprs => hdefs.phrase (hexprs.phrases.2.2 (by simp [Body.exprs]))

end

end SchemeFront
