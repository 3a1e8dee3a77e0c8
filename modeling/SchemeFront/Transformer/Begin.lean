import SchemeFront.Transformer

set_option autoImplicit false

/-! # Sequences

`(begin e₁ e₂ …)` stands for `((lambda () e₁ e₂ …))`: a call of a procedure without parameters
whose body is the sequence.
-/

namespace SchemeFront.Transformer

/-- The name that heads a sequence. -/
def beginName : String := "begin"

/-- The call that a sequence stands for. The procedure runs from the name `begin` to the end of
the form, and so lies strictly inside the call. -/
def expandBegin : Datum → Except Fault Datum
  | .list (head :: body) s =>
      if (Datum.list (head :: body) s).isHeadedBy beginName then do
        let inner ← Span.make s.path head.span.start s.stop
        let procedure := .leaf (.keyword .lambda) head.span :: .list [] head.span :: body
        return .list [.list procedure inner] s
      else return .list (head :: body) s
  | d => .ok d

/-- The rule for sequences. -/
def sequence : Transformer := ⟨"Begin", fun d => (expandBegin d).map (·, [])⟩

/-- The rules that are always there. -/
def builtin : List Transformer := [sequence]

end SchemeFront.Transformer
