import SchemeFront.Proofs.Datum.Hereditary
import SchemeFront.Proofs.Transformer.Sequence
import SchemeFront.Transformer.Samples

set_option autoImplicit false

/-! # Rules that keep a predicate on data

What is hereditary and kept by a rule at a single datum (`Transformer.Keeps`) is kept by the
expansion of whole data, and by any number of rules in a row (`Transformer.keeps_runAll`). The rule
for sequences and the samples put lists together from what they are given, and the few tokens that
they make are named (`Transformer.made`), so they keep whatever holds of these
(`Transformer.keeps_of_mem_known`). For what tokens say, `Expansion.says_of_ofTokens` goes from the
tokens of the input to the expanded ones.
-/

namespace SchemeFront

open Datum

variable {Q : Datum → Prop} {rule : Transformer} {rules : List Transformer}

namespace Transformer

/-- `Q` holds of what the rule makes of a datum if it holds of the datum. -/
def Keeps (Q : Datum → Prop) (rule : Transformer) : Prop :=
  ∀ d e registered, Q d → rule.transform d = .ok (e, registered) → Q e

/-! ## Expansion -/

mutual

theorem keeps_expand (hQ : Hereditary Q) (hrule : rule.Keeps Q) (d : Datum) {e : Datum}
    {registered : List Transformer} (h : expand rule d = .ok (e, registered)) (hd : Q d) : Q e := by
  cases d with
  | leaf l s => exact hrule _ _ _ hd h
  | broken ts s =>
      cases h
      exact hd
  | list ds s =>
      rw [expand] at h
      obtain ⟨⟨es, early⟩, hes, h⟩ := exists_of_bind_eq_ok h
      obtain ⟨⟨e', late⟩, he, hlast⟩ := exists_of_bind_eq_ok h
      cases hlast
      have hparts := keeps_expandAll hQ hrule ds hes ((hQ ds s).1 hd)
      exact hrule _ _ _ ((hQ es s).2 hparts) he

theorem keeps_expandAll (hQ : Hereditary Q) (hrule : rule.Keeps Q) (ds : List Datum)
    {es : List Datum} {registered : List Transformer}
    (h : expandAll rule ds = .ok (es, registered)) (hds : ∀ d ∈ ds, Q d) : ∀ e ∈ es, Q e := by
  cases ds with
  | nil =>
      cases h
      simp
  | cons d ds =>
      rw [expandAll] at h
      obtain ⟨⟨e, early⟩, he, h⟩ := exists_of_bind_eq_ok h
      obtain ⟨⟨es, late⟩, hes, h⟩ := exists_of_bind_eq_ok h
      cases h
      have hfirst := keeps_expand hQ hrule d he (hds d (by simp))
      have hmore := keeps_expandAll hQ hrule ds hes fun d hd => hds d (by simp [hd])
      exact List.forall_mem_cons.2 ⟨hfirst, hmore⟩

end

/-- The first rule has been run over all data, and then the others. -/
theorem exists_of_runAll_cons {ds es : List Datum} {registered : List Transformer}
    {events : List Event} (h : runAll (rule :: rules) ds = (events, .ok (es, registered))) :
    ∃ data early more late, expandAll rule ds = .ok (data, early) ∧
      runAll rules data = (more, .ok (es, late)) := by
  rw [runAll] at h
  cases hexpand : expandAll rule ds with
  | error fault =>
      rw [hexpand] at h
      cases h
  | ok expanded =>
      obtain ⟨data, early⟩ := expanded
      rw [hexpand] at h
      dsimp only at h
      cases hmore : runAll rules data with
      | mk more result =>
          rw [hmore] at h
          cases result with
          | error fault => cases h
          | ok last =>
              cases h
              exact ⟨data, early, more, _, rfl, hmore⟩

theorem keeps_runAll (hQ : Hereditary Q) {ds es : List Datum} {registered : List Transformer}
    {events : List Event} (hrules : ∀ r ∈ rules, r.Keeps Q)
    (h : runAll rules ds = (events, .ok (es, registered))) (hds : ∀ d ∈ ds, Q d) :
    ∀ e ∈ es, Q e := by
  induction rules generalizing ds registered events with
  | nil =>
      cases h
      exact hds
  | cons rule rules ih =>
      rw [List.forall_mem_cons] at hrules
      obtain ⟨data, early, more, late, hexpand, hmore⟩ := exists_of_runAll_cons h
      exact ih hrules.2 hmore (keeps_expandAll hQ hrules.1 ds hexpand hds)

/-! ## Sequences and samples -/

/-- The rule for sequences, and those that show what rules can do. -/
def known : List Transformer := [sequence, swap, installSwap, wrap, respell, unruled]

/-- What the known rules put in besides what they are given. -/
def made : List Lexeme :=
  [.keyword .lambda, .atom (.integer 0), .atom (.ident "begin"), .atom (.real ⟨-50, 2, false⟩)]

theorem keeps_ofFunction {name : String} {f : Datum → Datum} (h : ∀ d, Q d → Q (f d)) :
    (ofFunction name f).Keeps Q := by
  intro d e registered hd he
  cases he
  exact h d hd

section

variable (hQ : Hereditary Q)

include hQ

theorem keeps_sequence (hmade : ∀ s, Q (.leaf (.keyword .lambda) s)) : sequence.Keeps Q := by
  intro d e registered hd h
  obtain ⟨e', he, hlast⟩ := exists_of_bind_eq_ok (f := fun e => .ok (e, [])) h
  cases hlast
  cases hhead : d.isHeadedBy beginName with
  | false =>
      rw [expandBegin_of_not_headed hhead] at he
      cases he
      exact hd
  | true =>
      cases d with
      | leaf l s => cases hhead
      | broken ts s => cases hhead
      | list ds s =>
          cases ds with
          | nil => cases hhead
          | cons head body =>
              rw [expandBegin, if_pos hhead] at he
              obtain ⟨inner, -, he⟩ := exists_of_bind_eq_ok he
              cases he
              -- What is behind the word becomes the body of a procedure without parameters.
              have hbody := (List.forall_mem_cons.1 ((hQ _ _).1 hd)).2
              have hparams : Q (.list [] head.span) := (hQ _ _).2 (by simp)
              have hprocedure := List.forall_mem_cons.2
                ⟨hmade head.span, List.forall_mem_cons.2 ⟨hparams, hbody⟩⟩
              exact (hQ _ _).2 (by simpa using (hQ _ inner).2 hprocedure)

theorem keeps_swap : swap.Keeps Q := by
  refine keeps_ofFunction fun d hd => ?_
  split
  · split
    · rw [hQ] at hd ⊢
      simp only [List.mem_cons, List.not_mem_nil, or_false, forall_eq_or_imp, forall_eq] at hd ⊢
      exact ⟨hd.2.2, hd.2.1⟩
    · exact hd
  · exact hd

omit hQ in
theorem keeps_installSwap (hmade : ∀ s, Q (.leaf (.atom (.integer 0)) s)) :
    installSwap.Keeps Q := by
  intro d e registered hd h
  simp only [installSwap] at h
  split at h
  · cases h
    exact hmade d.span
  · cases h
    exact hd

theorem keeps_wrap : wrap.Keeps Q := by
  refine keeps_ofFunction fun d hd => ?_
  split
  · split
    · have hbody := (List.forall_mem_cons.1 ((hQ _ _).1 hd)).2
      dsimp only
      simpa [hQ _ _] using hbody
    · exact hd
  · exact hd

omit hQ in
theorem keeps_respell (hname : ∀ s, Q (.leaf (.atom (.ident "begin")) s))
    (hreal : ∀ s, Q (.leaf (.atom (.real ⟨-50, 2, false⟩)) s)) : respell.Keeps Q := by
  refine keeps_ofFunction fun d hd => ?_
  split
  · split
    · exact hname _
    · split
      · exact hreal _
      · exact hd
  · exact hd

omit hQ in
theorem keeps_unruled : unruled.Keeps Q := by
  rintro d e registered - ⟨⟩

/-- The known rules keep what holds of the tokens that they make. -/
theorem keeps_of_mem_known (hmade : ∀ l ∈ made, ∀ s, Q (.leaf l s)) (h : rule ∈ known) :
    rule.Keeps Q := by
  simp only [made, List.mem_cons, List.not_mem_nil, or_false, forall_eq_or_imp, forall_eq] at hmade
  obtain ⟨hlambda, hzero, hname, hreal⟩ := hmade
  simp only [known, List.mem_cons, List.not_mem_nil, or_false] at h
  rcases h with rfl | rfl | rfl | rfl | rfl | rfl
  · exact keeps_sequence hQ hlambda
  · exact keeps_swap hQ
  · exact keeps_installSwap hzero
  · exact keeps_wrap hQ
  · exact keeps_respell hname hreal
  · exact keeps_unruled

end

end Transformer

/-! ## Expanded tokens -/

/-- Expansion reads the data, runs the rules over them and writes what comes out. -/
theorem Expansion.stages_of_ofTokens {limit : Int} {src : Source} {ts : List Token}
    {events : List Event} {x : Expansion} (hx : ofTokens rules limit src ts = (events, .ok x)) :
    ∃ r data, readAll limit src.endOfInput ts = .ok r ∧
      Transformer.runAll rules r.value = (events, .ok (data, x.registered)) ∧
      x.tokens = flattenAll data ∧ x.report? = Report.of? .syntactic r.notes src := by
  rw [ofTokens, Datum.ofTokens] at hx
  cases hr : readAll limit src.endOfInput ts with
  | error fault =>
      rw [hr] at hx
      cases hx
  | ok r =>
      rw [hr] at hx
      simp only [bind, Except.bind, pure, Except.pure] at hx
      cases hrun : Transformer.runAll rules r.value with
      | mk begun result =>
          rw [hrun] at hx
          cases result with
          | error fault => cases hx
          | ok expanded =>
              cases hx
              exact ⟨r, expanded.1, rfl, hrun, rfl, rfl⟩

/-- `P` holds of what the tokens of the datum say. -/
def Datum.Says (P : Lexeme → Prop) (d : Datum) : Prop := ∀ t ∈ d.flatten, P t.lexeme

section

variable {P : Lexeme → Prop}

theorem Datum.says_leaf {l : Lexeme} (h : P l) (s : Span) : (leaf l s).Says P := by
  simpa [Says, flatten] using h

theorem Datum.says_flattenAll {ds : List Datum} :
    (∀ t ∈ flattenAll ds, P t.lexeme) ↔ ∀ d ∈ ds, d.Says P := by
  induction ds with
  | nil => simp [flattenAll]
  | cons d ds ih => rw [flattenAll, List.forall_mem_append, ih, List.forall_mem_cons, Says]

/-- The brackets of a list are written around its elements. -/
theorem Datum.hereditary_of_keywords (hkey : ∀ k, P (.keyword k)) : Hereditary (Says P) := by
  intro ds s
  rw [← says_flattenAll, Says, flatten]
  rw [List.cons_append, List.forall_mem_cons, List.forall_mem_append, List.forall_mem_singleton]
  simp only [hkey, true_and, and_true]

theorem Datum.grounded_of_lexemes {ts : List Token} (hts : ∀ t ∈ ts, P t.lexeme) :
    Grounded (Says P) ts where
  leaf t ht _ := says_leaf (hts t ht) t.span
  broken _ _ hus t ht := hts t (hus.subset ht)

/-- What the tokens say and the rules keep is said by the expanded tokens. -/
theorem Expansion.says_of_ofTokens {limit : Int} {src : Source} {ts : List Token}
    {events : List Event} {x : Expansion} (hkey : ∀ k, P (.keyword k))
    (hrules : ∀ r ∈ rules, r.Keeps (Says P)) (hts : ∀ t ∈ ts, P t.lexeme)
    (hx : ofTokens rules limit src ts = (events, .ok x)) : ∀ t ∈ x.tokens, P t.lexeme := by
  obtain ⟨r, data, hr, hrun, htokens, -⟩ := stages_of_ofTokens hx
  have hQ := hereditary_of_keywords hkey
  have hdata := hereditary_of_readFrom hQ (grounded_of_lexemes hts) hr
  rw [htokens, says_flattenAll]
  exact Transformer.keeps_runAll hQ hrules hrun hdata

end

end SchemeFront
