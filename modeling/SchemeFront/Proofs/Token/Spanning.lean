import SchemeFront.Proofs.Token.Nesting

set_option autoImplicit false

/-! # Forms with spans

A span cannot end before it starts, so the span of a form is not there for any tokens. It is there
if the tokens are in order, and it is enough that the last token of each form does not end before
the first one starts (`Token.Spanned`).
-/

namespace SchemeFront.Token

variable {ts us : List Token}

/-- Each form has a span. -/
def Spanned (ts : List Token) : Prop :=
  ∀ us, us <:+ ts → ∀ fallback, ∃ s, cover (us.take (extent us)) fallback = .ok s

theorem Spanned.of_suffix (h : Spanned ts) (hs : us <:+ ts) : Spanned us :=
  fun vs hvs => h vs (hvs.trans hs)

/-- Forms of tokens in order have spans. -/
theorem Ascending.spanned (h : Ascending ts) : Spanned ts := by
  intro us hus fallback
  have hform : Ascending (us.take (extent us)) :=
    Ascending.of_prefix (h.of_suffix hus) (List.take_prefix _ us)
  exact hform.exists_cover fallback

end SchemeFront.Token
