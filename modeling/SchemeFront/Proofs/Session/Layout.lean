import SchemeFront.Proofs.Datum.Sameness
import SchemeFront.Proofs.Parse.Alike
import SchemeFront.Proofs.Session.Calls
import SchemeFront.Proofs.Session.Pointing

set_option autoImplicit false

/-! # Layout

Spaces, lines and comments between tokens have no influence on the program, although the parser
looks at the text to tell written brackets from others. Data that say the same are marked in the
same way, and a bracket is written in the one source if it is in the other
(`Transformer.alike_rewrite`), so the expanded tokens are alike.
-/

namespace SchemeFront

open Token

variable {ctx ctx' : Context} {t u : Token} {ts us : List Token} {src src' : Source} {l l' : Lexed}

/-! ## Written brackets -/

/-- Tokens of two sources are alike if they say the same. -/
theorem Token.Told.alike (h : Told ctx ts) (h' : Told ctx' us) (ht : t ∈ ts) (hu : u ∈ us)
    (hbare : t.bare = u.bare) : Alike ctx ctx' t u where
  bare_eq := hbare
  written ho := by
    rw [h.opening t ht ho, h'.opening u hu (opens_eq_of_bare hbare ▸ ho)]

theorem Token.Told.alikeAll (h : Told ctx ts) (h' : Told ctx' us)
    (hbare : ts.map Token.bare = us.map Token.bare) : List.Forall₂ (Alike ctx ctx') ts us := by
  induction ts generalizing us with
  | nil =>
      rw [List.map_nil, eq_comm, List.map_eq_nil_iff] at hbare
      rw [hbare]
      exact .nil
  | cons t ts ih =>
      obtain ⟨u, us, rfl, hu, hus⟩ := List.map_eq_cons_iff.1 hbare.symm
      exact .cons (h.alike h' (by simp) (by simp) hu.symm)
        (ih (h.mono (List.subset_cons_self t ts)) (h'.mono (List.subset_cons_self u us)) hus.symm)

/-- A token that opens nothing is like any that says the same. -/
theorem Token.Alike.of_not_opens (hbare : t.bare = u.bare) (ho : t.opens = false) :
    Alike ctx ctx' t u :=
  ⟨hbare, fun h => by rw [ho] at h; cases h⟩

/-! ## Marks -/

namespace Transformer

theorem name?_eq_of_same {d e : Datum} (h : d.same e = true) : d.name? = e.name? := by
  cases d <;> cases e
  case leaf.leaf l s m s' =>
    rw [Datum.same, beq_iff_eq] at h
    exact name?_eq_of_bare (t := ⟨l, s⟩) (u := ⟨m, s'⟩) h
  all_goals first | rfl | simp [Datum.same] at h

theorem isHeadedBy_eq_of_sameAll {ds es : List Datum} (h : Datum.sameAll ds es = true)
    (name : String) (s s' : Span) :
    (Datum.list ds s).isHeadedBy name = (Datum.list es s').isHeadedBy name := by
  cases ds <;> cases es
  case nil.nil => rfl
  case cons.cons d ds e es =>
    rw [Datum.sameAll, Bool.and_eq_true] at h
    show (d.name? == _) = (e.name? == _)
    rw [name?_eq_of_same h.1]
  all_goals simp [Datum.sameAll] at h

/-- What is written in the place of the name of a sequence is not written in any source. -/
theorem alike_head {b c : Token} (h : Told ctx ts) (h' : Told ctx' us) (hb : b ∈ ts) (hc : c ∈ us)
    (hname : b.name? = some beginName) (hname' : c.name? = some beginName) :
    List.Forall₂ (Alike ctx ctx') (Mark.head.replace b) (Mark.head.replace c) := by
  have hopening : Alike ctx ctx' ⟨.keyword .opening, b.span.first⟩
      ⟨.keyword .opening, c.span.first⟩ :=
    ⟨rfl, fun _ => by rw [h.name b hb hname, h'.name c hc hname']⟩
  exact .cons hopening (.cons (.of_not_opens rfl rfl) (.cons hopening
    (.cons (.of_not_opens rfl rfl) .nil)))

mutual

/-- Data that say the same, in two sources, are rewritten to tokens that are alike. -/
theorem alike_rewrite (d e : Datum) (hsame : d.same e = true) (h : Told ctx d.flatten)
    (h' : Told ctx' e.flatten) :
    List.Forall₂ (Alike ctx ctx') (rewrite (marks d) d.flatten) (rewrite (marks e) e.flatten) := by
  cases d <;> cases e
  case leaf.leaf l s m s' =>
    rw [Datum.same, beq_iff_eq] at hsame
    have hbare : (Datum.leaf l s).flatten.map Token.bare =
        (Datum.leaf m s').flatten.map Token.bare := by
      simpa [Datum.flatten, bare] using hsame
    exact h.alikeAll h' hbare
  case broken.broken ts s us s' =>
    rw [Datum.same, sameAll_iff] at hsame
    rw [marks, marks, Datum.flatten, Datum.flatten, rewrite_keep, rewrite_keep]
    exact h.alikeAll h' hsame
  case list.list ds s es s' =>
    rw [Datum.same] at hsame
    have hopening : Alike ctx ctx' ⟨.keyword .opening, s.first⟩ ⟨.keyword .opening, s'.first⟩ :=
      h.alike h' (by simp [Datum.flatten]) (by simp [Datum.flatten]) rfl
    have hheaded := isHeadedBy_eq_of_sameAll hsame beginName s s'
    cases hhead : (Datum.list ds s).isHeadedBy beginName with
    | false =>
        rw [hhead, eq_comm] at hheaded
        rw [rewrite_list hhead, rewrite_list hheaded]
        have hmore := alike_rewriteAll ds es hsame (h.mono (by simp [Datum.flatten]))
          (h'.mono (by simp [Datum.flatten]))
        exact .cons hopening (List.rel_append hmore (.cons (.of_not_opens rfl rfl) .nil))
    | true =>
        rw [hhead, eq_comm] at hheaded
        obtain ⟨l, hs, body, _, heq, hl⟩ := exists_leaf_of_isHeadedBy hhead
        obtain ⟨l', hs', body', _, heq', hl'⟩ := exists_leaf_of_isHeadedBy hheaded
        cases heq
        cases heq'
        rw [Datum.sameAll, Bool.and_eq_true] at hsame
        rw [rewrite_sequence body hl, rewrite_sequence body' hl']
        have hname : List.Forall₂ (Alike ctx ctx') (Mark.head.replace ⟨l, hs⟩)
            (Mark.head.replace ⟨l', hs'⟩) :=
          alike_head h h' (by simp [Datum.flatten, Datum.flattenAll])
            (by simp [Datum.flatten, Datum.flattenAll]) hl hl'
        have hmore := alike_rewriteAll body body' hsame.2
          (h.mono fun u hu => by simp [Datum.flatten, Datum.flattenAll, hu])
          (h'.mono fun u hu => by simp [Datum.flatten, Datum.flattenAll, hu])
        have hlast : List.Forall₂ (Alike ctx ctx')
            (Mark.close.replace ⟨.keyword .closing, s.final⟩)
            (Mark.close.replace ⟨.keyword .closing, s'.final⟩) :=
          .cons (.of_not_opens rfl rfl) (.cons (.of_not_opens rfl rfl) .nil)
        exact .cons hopening (List.rel_append hname (List.rel_append hmore hlast))
  all_goals simp [Datum.same] at hsame

theorem alike_rewriteAll (ds es : List Datum) (hsame : Datum.sameAll ds es = true)
    (h : Told ctx (Datum.flattenAll ds)) (h' : Told ctx' (Datum.flattenAll es)) :
    List.Forall₂ (Alike ctx ctx') (rewrite (marksAll ds) (Datum.flattenAll ds))
      (rewrite (marksAll es) (Datum.flattenAll es)) := by
  cases ds <;> cases es
  case nil.nil => exact .nil
  case cons.cons d ds e es =>
    rw [Datum.sameAll, Bool.and_eq_true] at hsame
    rw [Datum.flattenAll] at h h'
    rw [marksAll, Datum.flattenAll, rewrite_append (length_marks d), marksAll, Datum.flattenAll,
      rewrite_append (length_marks e)]
    exact List.rel_append
      (alike_rewrite d e hsame.1 (h.mono (List.subset_append_left _ _))
        (h'.mono (List.subset_append_left _ _)))
      (alike_rewriteAll ds es hsame.2 (h.mono (List.subset_append_right _ _))
        (h'.mono (List.subset_append_right _ _)))
  all_goals simp [Datum.sameAll] at hsame

end

end Transformer

/-! ## Sources with the same tokens -/

namespace Session

open Transformer

/-- **Layout does not matter.** If two sources have the same tokens, wherever these stand, then
sessions that only know sequences and have the same limit answer with the same program. The
findings are the same too, but for where they are. -/
theorem parseLenientTokens_of_sameAll (limit : Int) (log log' : List Event)
    (hl : Lexed.ofSource src = .ok l) (hl' : Lexed.ofSource src' = .ok l')
    (h : Token.sameAll l.tokens l'.tokens = true) :
    ∃ p q report? report'?,
      answer (parseLenientTokens src l.tokens) ⟨builtin, limit, log⟩ = .ok (p, report?) ∧
      answer (parseLenientTokens src' l'.tokens) ⟨builtin, limit, log'⟩ = .ok (q, report'?) ∧
      p.same q = true ∧ report?.map Report.bare = report'?.map Report.bare := by
  obtain ⟨r, events, x, hx⟩ := Expansion.exists_rewrites limit hl
  obtain ⟨r', events', x', hx'⟩ := Expansion.exists_rewrites limit hl'
  have hsame := Datum.same_readAll (sameAll_iff.1 h) hx.read hx'.read
  have halike : List.Forall₂ (Alike (Context.ofSource limit src) (Context.ofSource limit src'))
      x.tokens x'.tokens := by
    rw [hx.tokens_eq, hx'.tokens_eq, ← hx.flatten_eq, ← hx'.flatten_eq]
    exact alike_rewriteAll r.value r'.value hsame.value (hx.flatten_eq ▸ Lexed.told limit hl)
      (hx'.flatten_eq ▸ Lexed.told limit hl')
  obtain ⟨p, q, notes, notes', hp, hq, hpq, hnotes⟩ :=
    Body.exists_ofTokens_of_alike hx.ascending.spanned hx'.ascending halike
  refine ⟨p, q, (Report.of? .syntactic notes src).or x.report?,
    (Report.of? .syntactic notes' src').or x'.report?, ?_, ?_, hpq, ?_⟩
  · rw [answer_parseLenientTokens_of_expansion (s := ⟨builtin, limit, log⟩) hx.expanded, hp]
  · rw [answer_parseLenientTokens_of_expansion (s := ⟨builtin, limit, log'⟩) hx'.expanded, hq]
  · -- What the parser found comes first, and where it found nothing, what was found in the data.
    rw [Option.map_or, Option.map_or, Report.bare_of? .syntactic src src' hnotes, hx.report_eq,
      hx'.report_eq, Report.bare_of? .syntactic src src' hsame.notes]

/-- Sequences in a list that is never closed, on one line and on several, with a comment. -/
theorem parseLenientTokens_of_sameAll_lines :
    ∃ l l', Lexed.ofSource ⟨"a.scm", "(begin (f +1.0)) ((begin x)".toList⟩ = .ok l ∧
      Lexed.ofSource ⟨"b.scm", " ( begin;\n(f 1.0 ) )\n\n((\nbegin x )".toList⟩ = .ok l' ∧
      Token.sameAll l.tokens l'.tokens = true ∧
      ∃ p q report? report'?,
        answer (parseLenientTokens ⟨"a.scm", "(begin (f +1.0)) ((begin x)".toList⟩ l.tokens)
          ⟨builtin, 2, []⟩ = .ok (p, report?) ∧
        answer (parseLenientTokens ⟨"b.scm", " ( begin;\n(f 1.0 ) )\n\n((\nbegin x )".toList⟩
          l'.tokens) ⟨builtin, 2, []⟩ = .ok (q, report'?) ∧
        p.same q = true ∧ report?.map Report.bare = report'?.map Report.bare :=
  ⟨_, _, rfl, rfl, by decide +kernel, parseLenientTokens_of_sameAll 2 [] [] rfl rfl
    (by decide +kernel)⟩

end Session

end SchemeFront
