import SchemeFront.Proofs.Datum.Findings
import SchemeFront.Proofs.Transformer.Rewriting

set_option autoImplicit false

/-! # Brackets in expanded tokens

Expansion adds brackets, but only in pairs and only inside of whole data. So the brackets without
a partner are the same before and after it (`Transformer.strays_rewrite`).
-/

namespace SchemeFront.Transformer

open Token

variable {limit : Int} {endOfInput : Span}

mutual

/-- A whole datum is expanded to tokens whose brackets all have their partners. -/
theorem balanced_rewrite (d : Datum) (h : d.IsWhole) : Balanced (rewrite (marks d) d.flatten) := by
  cases d with
  | leaf l s => exact balanced_singleton h.1 h.2
  | broken ts s =>
      rw [marks, Datum.flatten, rewrite_keep]
      exact h
  | list ds s =>
      cases hhead : (Datum.list ds s).isHeadedBy beginName with
      | false =>
          rw [rewrite_list hhead]
          exact (balanced_rewriteAll ds h).bracketed rfl rfl
      | true =>
          -- The procedure has its own brackets within those of the call, and around its parameters.
          obtain ⟨l, hs, body, s', heq, hl⟩ := exists_leaf_of_isHeadedBy hhead
          cases heq
          have hword : Balanced [⟨.keyword .lambda, hs⟩] := balanced_singleton rfl rfl
          have hformals : Balanced
              ([⟨.keyword .opening, hs.first⟩] ++ [⟨.keyword .closing, hs.final⟩]) :=
            balanced_nil.bracketed rfl rfl
          have hbody : Balanced (rewrite (marksAll body) (Datum.flattenAll body)) :=
            balanced_rewriteAll body h.2
          have hprocedure : Balanced (⟨.keyword .opening, hs.first⟩ :: _ ++
              [⟨.keyword .closing, s.final⟩]) :=
            (hword.append (hformals.append hbody)).bracketed rfl rfl
          have hcall : Balanced (⟨.keyword .opening, s.first⟩ :: _ ++
              [⟨.keyword .closing, s.final⟩]) :=
            hprocedure.bracketed rfl rfl
          rw [rewrite_sequence body hl]
          simpa [Mark.replace] using hcall

theorem balanced_rewriteAll (ds : List Datum) (h : Datum.AreWhole ds) :
    Balanced (rewrite (marksAll ds) (Datum.flattenAll ds)) := by
  cases ds with
  | nil => rfl
  | cons d ds =>
      rw [marksAll, Datum.flattenAll, rewrite_append (length_marks d)]
      exact (balanced_rewrite d h.1).append (balanced_rewriteAll ds h.2)

end

/-- **Expansion keeps the brackets without a partner**, those that close nothing and the one that is
never closed. -/
theorem strays_rewrite {ts : List Token} {ds : List Datum} {notes : List Diagnostic}
    (h : Datum.Reads limit endOfInput ts ds notes) :
    strays 0 (rewrite (marksAll ds) (Datum.flattenAll ds)) = strays 0 ts ∧
      unclosed? (rewrite (marksAll ds) (Datum.flattenAll ds)) = unclosed? ts := by
  induction h with
  | nil => exact ⟨rfl, rfl⟩
  | @stray t ts ds notes ht more ih =>
      have ho := opens_eq_false_of_closes ht
      rw [rewrite_broken, List.singleton_append, strays_zero_cons_of_closes ht,
        strays_zero_cons_of_closes ht, unclosed?_cons_of_not_opens ho,
        unclosed?_cons_of_not_opens ho, ih.1, ih.2]
      exact ⟨rfl, rfl⟩
  | @whole d xs ts ds early notes hx hd hearly more ih =>
      have hbalanced := balanced_rewrite d hd
      rw [marksAll, Datum.flattenAll, rewrite_append (length_marks d), hbalanced.strays_append,
        hbalanced.unclosed?_append, hx.strays_append, hx.unclosed?_append]
      exact ih
  | @never t ts s early ht hts hearly =>
      rw [rewrite_broken]
      simp [marksAll, Datum.flattenAll, rewrite]

end SchemeFront.Transformer
