import SchemeFront.Transformer

set_option autoImplicit false

/-! # Sample rules

Rules that each show one thing a transformer can do: rearrange a form (`swap`), register another
rule (`installSwap`), nest a form more deeply than it was written (`wrap`), rename single data
(`respell`), and have no rule at all (`unruled`).
-/

namespace SchemeFront.Transformer

/-- `(swap a b)` becomes `(b a)`. -/
def swap : Transformer := ofFunction "Swap" fun
  | .list [head, a, b] s =>
      if head.name? = some "swap" then .list [b, a] s else .list [head, a, b] s
  | d => d

/-- A list headed by `use-swap` becomes zero and registers `swap`. -/
def installSwap : Transformer where
  name := "InstallSwap"
  transform d :=
    if d.isHeadedBy "use-swap" then .ok (.leaf (.atom (.integer 0)) d.span, [swap])
    else .ok (d, [])

/-- `(wrap e …)` becomes `(((((e …)))))`; all lists but the outermost stand where `wrap` does. -/
def wrap : Transformer := ofFunction "Wrap" fun
  | .list (head :: body) s =>
      if head.name? = some "wrap" then
        let inner := .list body head.span
        .list [.list [.list [.list [inner] head.span] head.span] head.span] s
      else .list (head :: body) s
  | d => d

/-- The identifier `do` becomes `begin`, and a point becomes the decimal `-0.50`, without the
record of a written sign. -/
def respell : Transformer := ofFunction "Alias" fun
  | .leaf l s =>
      if l.name? = some "do" then .leaf (.atom (.ident "begin")) s
      else if l = .keyword .point then .leaf (.atom (.real ⟨-50, 2, false⟩)) s
      else .leaf l s
  | d => d

/-- A transformer without a rule: every datum is a fault. -/
def unruled : Transformer := ⟨"Transformer", fun _ => .error .noRule⟩

end SchemeFront.Transformer
