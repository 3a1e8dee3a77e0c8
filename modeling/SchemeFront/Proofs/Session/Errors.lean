import SchemeFront.Proofs.Parse.Explained
import SchemeFront.Proofs.Transformer.Rewriting

set_option autoImplicit false

/-! # Errors of the programs of a source

Forms of the tokens of a source cover their tokens, and so do those of the expanded tokens: where
tokens overlap, there is a bracket behind them that is closed later. So all errors of the programs
that they give have findings of their own (`Session.errors_explained`).
-/

namespace SchemeFront

open Token

variable {src : Source} {l : Lexed} {t u : Token} {ts : List Token}

/-! ## The last of the expanded tokens -/

namespace Transformer

variable {m : Mark} {ms : List Mark}

/-- What is written in the place of a token ends within it, and the last part where it does. -/
theorem Mark.stop_replace (m : Mark) (ht : t.span.start < t.span.stop) :
    (∀ u ∈ m.replace t, u.span.stop ≤ t.span.stop) ∧
      ∃ front last, m.replace t = front ++ [last] ∧ last.span.stop = t.span.stop := by
  cases m with
  | keep => exact ⟨by simp [Mark.replace], [], t, rfl, rfl⟩
  | head =>
      refine ⟨?_, [_, _, _], _, rfl, by simp⟩
      have hfirst : t.span.start + 1 ≤ t.span.stop := ht
      simp [Mark.replace, hfirst]
  | close => exact ⟨by simp [Mark.replace], [_], t, rfl, rfl⟩

theorem exists_of_mem_rewrite (hu : u ∈ rewrite ms ts) : ∃ m, ∃ t ∈ ts, u ∈ Mark.replace m t := by
  induction ts generalizing ms with
  | nil => simp [rewrite] at hu
  | cons t ts ih =>
      cases ms with
      | nil => simp [rewrite] at hu
      | cons m ms =>
          rw [rewrite_cons, List.mem_append] at hu
          rcases hu with hu | hu
          · exact ⟨m, t, by simp, hu⟩
          · obtain ⟨m', t', ht', hu'⟩ := ih hu
            exact ⟨m', t', List.mem_cons_of_mem t ht', hu'⟩

/-- The expanded tokens end where the last of them does. -/
theorem stop_le_last (hsep : Separate ts) (hlen : ms.length = ts.length) :
    ∀ t ∈ rewrite ms ts, ∀ u ∈ (rewrite ms ts).getLast?, t.span.stop ≤ u.span.stop := by
  rcases List.eq_nil_or_concat' ts with rfl | ⟨front, last, rfl⟩
  · simp [rewrite]
  rw [List.length_append, List.length_singleton] at hlen
  obtain ⟨marks, m, rfl⟩ : ∃ marks m, ms = marks ++ [m] := by
    rcases List.eq_nil_or_concat' ms with rfl | ⟨marks, m, rfl⟩
    · simp at hlen
    · exact ⟨marks, m, rfl⟩
  have hfront : marks.length = front.length := by simpa using hlen
  have hlast : rewrite (marks ++ [m]) (front ++ [last])
      = rewrite marks front ++ m.replace last := by
    rw [rewrite_append hfront]
    simp [rewrite]
  obtain ⟨hbound, before, final, hreplace, hfinal⟩ :=
    m.stop_replace (hsep.nonempty last (by simp))
  intro t ht u hu
  -- The last token that is written ends with the last one that was there.
  have hstop : u.span.stop = last.span.stop := by
    rw [hlast, hreplace, ← List.append_assoc, List.getLast?_concat] at hu
    cases hu
    exact hfinal
  rw [hstop]
  rw [hlast, List.mem_append] at ht
  rcases ht with ht | ht
  · -- It is in the place of an earlier token, which ends before the last one begins.
    obtain ⟨m', s, hs, hmem⟩ := exists_of_mem_rewrite ht
    have hwithin := (m'.stop_replace (hsep.nonempty s (by simp [hs]))).1 t hmem
    have hbefore := (List.pairwise_append.1 hsep.ordered).2.2 s hs last (by simp)
    have hlast := last.span.start_le_stop
    omega
  · exact hbound t ht

end Transformer

/-- Separate tokens cover what is between them. -/
theorem Token.Separate.snug (h : Separate ts) : Snug ts where
  ascending := h.ascending
  enclosing := .of_pairwise h.ordered
  last := by
    have hkeep := Transformer.stop_le_last h (List.length_map fun _ => Transformer.Mark.keep)
    rwa [Transformer.rewrite_keep] at hkeep

theorem Expansion.Rewrites.snug {limit : Int} {r : Datum.Reading (List Datum)}
    {events : List Event} {x : Expansion} (h : Rewrites limit src ts r events x)
    (hsep : Separate ts) : Snug x.tokens where
  ascending := h.ascending
  enclosing := h.enclosing
  last := by
    have hlen := Transformer.length_marksAll r.value
    rw [h.flatten_eq] at hlen
    rw [h.tokens_eq]
    exact Transformer.stop_le_last hsep hlen

/-! ## Programs -/

/-- Each error of the program has a finding of its own that points into it. So there are no more
errors than findings, and without findings there is no error. -/
structure Body.IsExplained (p : Program) (notes : List Diagnostic) : Prop where
  injective : ∃ f : Fin (p.nodes.filter Node.isErrorExpr).length → Fin notes.length,
    Function.Injective f ∧
      ∀ i : Fin (p.nodes.filter Node.isErrorExpr).length,
        (p.nodes.filter Node.isErrorExpr)[i].span.contains notes[f i].place = true
  length_le : (p.nodes.filter Node.isErrorExpr).length ≤ notes.length
  sound : notes = [] → p.hasErrors = false

theorem Explained.isExplained {p : Program} {notes : List Diagnostic}
    (h : Explained (p.nodes.filter Node.isErrorExpr) notes) : p.IsExplained notes := by
  obtain ⟨f, hf, hplace⟩ := h.exists_injective
  have hle := h.length_le
  refine ⟨⟨f, hf, hplace⟩, hle, ?_⟩
  rintro rfl
  have hnone : p.nodes.filter Node.isErrorExpr = [] :=
    List.length_eq_zero_iff.1 (by simpa using hle)
  rw [Body.hasErrors, List.any_eq_false]
  exact List.filter_eq_nil_iff.1 hnone

namespace Session

/-- **Errors are explained.** Whatever nesting is allowed, the tokens of a source and the expanded
ones give programs, each error of which has a finding of its own: it points into the error, or, if
a form is never closed, its bracket is in the error. -/
theorem errors_explained (limit expansionLimit : Int) (h : Lexed.ofSource src = .ok l) :
    (∃ p notes, Body.ofTokens limit src l.tokens = .ok (p, notes) ∧ p.IsExplained notes) ∧
    ∃ events x, Expansion.ofTokens Transformer.builtin expansionLimit src l.tokens
        = (events, .ok x) ∧
      ∃ p notes, Body.ofTokens limit src x.tokens = .ok (p, notes) ∧ p.IsExplained notes := by
  have hsep := Lexed.separate h
  constructor
  · obtain ⟨p, notes, hp, hexplained⟩ := Body.exists_ofTokens_explained limit src hsep.snug
    exact ⟨p, notes, hp, hexplained.isExplained⟩
  · obtain ⟨r, events, x, hx⟩ := Expansion.exists_rewrites expansionLimit h
    obtain ⟨p, notes, hp, hexplained⟩ :=
      Body.exists_ofTokens_explained limit src (hx.snug hsep)
    exact ⟨events, x, hx.expanded, p, notes, hp, hexplained.isExplained⟩

/-- A sequence with an error inside, a definition behind an expression, a form that is too deep and
one that is never closed leave four errors, and a bracket that closes nothing leaves none. -/
theorem errors_explained_sequence :
    ∃ l, Lexed.ofSource ⟨"a.scm", "(begin (if) (f (g (h)))) (define x 1) ) (set! x".toList⟩
        = .ok l ∧
      (∃ p notes, Body.ofTokens 2
          ⟨"a.scm", "(begin (if) (f (g (h)))) (define x 1) ) (set! x".toList⟩ l.tokens
            = .ok (p, notes) ∧ p.IsExplained notes) ∧
      ∃ events x, Expansion.ofTokens Transformer.builtin 100
          ⟨"a.scm", "(begin (if) (f (g (h)))) (define x 1) ) (set! x".toList⟩ l.tokens
            = (events, .ok x) ∧
        ∃ p notes, Body.ofTokens 2
            ⟨"a.scm", "(begin (if) (f (g (h)))) (define x 1) ) (set! x".toList⟩ x.tokens
              = .ok (p, notes) ∧ p.IsExplained notes ∧
          (p.nodes.filter Node.isErrorExpr).length = 4 ∧ notes.length = 5 := by
  obtain ⟨l, hl⟩ : ∃ l, Lexed.ofSource
      ⟨"a.scm", "(begin (if) (f (g (h)))) (define x 1) ) (set! x".toList⟩ = .ok l := ⟨_, rfl⟩
  obtain ⟨htokens, events, x, hx, p, notes, hp, hexplained⟩ := errors_explained 2 100 hl
  have hcounts : ((Expansion.ofTokens Transformer.builtin 100
      ⟨"a.scm", "(begin (if) (f (g (h)))) (define x 1) ) (set! x".toList⟩ l.tokens).2.toOption.bind
        fun x => (Body.ofTokens 2
          ⟨"a.scm", "(begin (if) (f (g (h)))) (define x 1) ) (set! x".toList⟩ x.tokens).toOption).map
        (fun r => ((r.1.nodes.filter Node.isErrorExpr).length, r.2.length)) = some (4, 5) := by
    cases hl
    decide +kernel
  rw [hx] at hcounts
  simp only [Except.toOption, Option.bind_some, hp, Option.map_some] at hcounts
  obtain ⟨herrors, hnotes⟩ := Prod.mk.inj (Option.some.inj hcounts)
  exact ⟨l, hl, htokens, events, x, hx, p, notes, hp, hexplained, herrors, hnotes⟩

end Session

end SchemeFront
