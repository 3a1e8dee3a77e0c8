import SchemeFront.Proofs.Datum.Rereading
import SchemeFront.Proofs.Transformer.Rewriting

set_option autoImplicit false

/-! # Expanding what was expanded

Expansion nests data more deeply, so when expanded tokens are read again, more lists may be too
deep, and the names of sequences inside them are hidden. No list comes to light that was hidden: a
malformed region still stands where lists are refused, or somewhere deeper
(`Transformer.isLegible_of_expand`). So reading again gives the expanded data but for what is newly
hidden, no list in them is headed by `begin`, and nothing is left to expand
(`Expansion.ofTokens_idempotent`).
-/

namespace SchemeFront

open Token

variable {limit : Int} {src : Source} {l : Lexed} {endOfInput : Span}

/-! ## Reading again brings no sequence to light -/

namespace Datum

theorem name?_reread (limit : Int) (depth : Nat) (d : Datum) :
    (d.reread limit depth).name? = d.name? := by
  cases d with
  | leaf l s => rfl
  | broken ts s => rfl
  | list ds s =>
      rw [reread]
      split <;> rfl

theorem isHeadedBy_rereadAll (limit : Int) (depth : Nat) (name : String) (ds : List Datum)
    (s s' : Span) :
    (list (rereadAll limit depth ds) s).isHeadedBy name = (list ds s').isHeadedBy name := by
  cases ds with
  | nil => rfl
  | cons d ds =>
      show ((d.reread limit depth).name? == _) = (d.name? == _)
      rw [name?_reread]

mutual

/-- Where no list is headed by `begin`, none is when the tokens are read again. -/
theorem isPlain_reread (limit : Int) (depth : Nat) (d : Datum) (h : d.IsPlain) :
    (d.reread limit depth).IsPlain := by
  cases d with
  | leaf l s => exact isPlain_leaf l s
  | broken ts s => exact isPlain_broken ts s
  | list ds s =>
      obtain ⟨hhead, hds⟩ := isPlain_list.1 h
      rw [reread]
      split
      · exact isPlain_broken _ s
      · refine isPlain_list.2 ⟨?_, arePlain_rereadAll limit (depth + 1) ds hds⟩
        rw [isHeadedBy_rereadAll, hhead]

theorem arePlain_rereadAll (limit : Int) (depth : Nat) (ds : List Datum) (h : ArePlain ds) :
    ArePlain (rereadAll limit depth ds) := by
  cases ds with
  | nil => exact h
  | cons d ds =>
      obtain ⟨hd, hds⟩ := arePlain_cons.1 h
      exact arePlain_cons.2 ⟨isPlain_reread limit depth d hd, arePlain_rereadAll limit depth ds hds⟩

end

end Datum

/-! ## Expanded data can be read again -/

namespace Transformer

mutual

/-- A datum that can be read can be read when it is expanded: what is malformed in it is nested no
less deeply. -/
theorem isLegible_of_expand (depth : Nat) (d : Datum) {e : Datum} {registered : List Transformer}
    (h : expand sequence d = .ok (e, registered)) (hd : d.IsLegible limit depth) :
    e.IsLegible limit depth := by
  cases d with
  | leaf l s =>
      cases h
      exact hd
  | broken ts s =>
      cases h
      exact hd
  | list ds s =>
      obtain ⟨es, early, hes, he⟩ := exists_of_expand_list h
      have hchildren : Datum.AreLegible limit (depth + 1) es :=
        areLegible_of_expandAll (depth + 1) ds hes hd
      cases hhead : (Datum.list es s).isHeadedBy beginName with
      | false =>
          rw [expandBegin_of_not_headed hhead] at he
          cases he
          exact hchildren
      | true =>
          obtain ⟨l, hs, body, s', heq, hname⟩ := exists_leaf_of_isHeadedBy hhead
          cases heq
          obtain ⟨hle, rfl⟩ := exists_of_expandBegin_headed hname he
          -- The body is now in the procedure, and that in the call.
          have hbody : Datum.AreLegible limit (depth + 2) body :=
            hchildren.2.mono body (Int.le_refl limit) (Nat.le_succ _)
          have hprocedure : Datum.AreLegible limit (depth + 2)
              (.leaf (.keyword .lambda) hs :: .list [] hs :: body) :=
            ⟨⟨rfl, rfl⟩, trivial, hbody⟩
          exact ⟨hprocedure, trivial⟩

theorem areLegible_of_expandAll (depth : Nat) (ds : List Datum) {es : List Datum}
    {registered : List Transformer} (h : expandAll sequence ds = .ok (es, registered))
    (hds : Datum.AreLegible limit depth ds) : Datum.AreLegible limit depth es := by
  cases ds with
  | nil =>
      cases h
      trivial
  | cons d ds =>
      obtain ⟨e, es, early, late, he, hes, rfl⟩ := exists_of_expandAll_cons h
      exact ⟨isLegible_of_expand depth d he hds.1, areLegible_of_expandAll depth ds hes hds.2⟩

end

/-- Data that can be read can be read when they are expanded. -/
theorem legible_of_expandAll {ds es : List Datum} {registered : List Transformer}
    (h : expandAll sequence ds = .ok (es, registered)) (hds : Datum.Legible limit endOfInput ds) :
    Datum.Legible limit endOfInput es := by
  induction hds generalizing es registered with
  | nil =>
      cases h
      exact .nil
  | stray ht more ih =>
      obtain ⟨e, es, early, late, he, hes, rfl⟩ := exists_of_expandAll_cons h
      cases he
      exact .stray ht (ih hes)
  | whole hd more ih =>
      obtain ⟨e, es, early, late, he, hes, rfl⟩ := exists_of_expandAll_cons h
      exact .whole (isLegible_of_expand 0 _ he hd) (ih hes)
  | never ht hts hasc hs =>
      obtain ⟨e, es, early, late, he, hes, rfl⟩ := exists_of_expandAll_cons h
      cases he
      cases hes
      exact .never ht hts hasc hs

end Transformer

/-! ## Expanding the tokens of a source -/

namespace Expansion

open Transformer

/-- The rule for sequences leaves no sequence in the data of a source, and their tokens are in
order. -/
theorem exists_expandAll (limit : Int) (h : Lexed.ofSource src = .ok l) :
    ∃ r es, Datum.readAll limit src.endOfInput l.tokens = .ok r ∧
      Datum.Legible limit src.endOfInput r.value ∧ expandAll sequence r.value = .ok (es, []) ∧
      SpreadAll (fun _ => True) 0 src.text.length es := by
  have hsep := Lexed.separate h
  obtain ⟨r, hr, hflat⟩ := Datum.exists_readAll limit h
  have hbetween : Between (fun _ => True) 0 src.text.length (Datum.flattenAll r.value) :=
    hflat ▸ Lexed.between h fun _ _ => trivial
  obtain ⟨es, hes, hspread⟩ := expandAll_sequence (fun _ => trivial) 0 src.text.length
    (Int.natCast_nonneg _) r.value hbetween (hflat.symm ▸ hsep.ordered)
  exact ⟨r, es, hr, Datum.legible_of_readAll hsep.ascending hr, hes, hspread⟩

/-- The tokens of data in which no list is headed by `begin` are expanded to themselves. -/
theorem exists_ofTokens_flattenAll {es : List Datum} (hes : Datum.Legible limit src.endOfInput es)
    (hplain : Datum.ArePlain es) (hasc : Ascending (Datum.flattenAll es)) :
    ∃ events x, ofTokens [sequence] limit src (Datum.flattenAll es) = (events, .ok x) ∧
      x.tokens = Datum.flattenAll es := by
  obtain ⟨notes, hread⟩ := Datum.readAll_flattenAll hes
  have hnothing : (runAll [sequence] (Datum.rereadAll limit 0 es)).2
      = .ok (Datum.rereadAll limit 0 es, []) :=
    runAll_of_arePlain (fun _ h => List.mem_singleton.1 h)
      (Datum.arePlain_rereadAll limit 0 es hplain)
  obtain ⟨events, hx⟩ := exists_ofTokens_of_runAll hread hnothing
  exact ⟨events, _, hx, Datum.flattenAll_rereadAll limit 0 es (Datum.areWide_of_ascending es hasc)⟩

/-- **Expansion of sequences is complete and idempotent.** When the data of a source are expanded,
no list in them is headed by `begin`, whatever malformed regions contain. Running the rule any
number of times over the data changes nothing more, and if the expanded tokens are read and
expanded again, they stay as they are. -/
theorem ofTokens_idempotent (limit : Int) (h : Lexed.ofSource src = .ok l) :
    ∃ data report? es events x,
      Datum.ofTokens limit src l.tokens = .ok (data, report?) ∧
      (runAll [sequence] data).2 = .ok (es, []) ∧ Datum.ArePlain es ∧
      ofTokens [sequence] limit src l.tokens = (events, .ok x) ∧
      x.tokens = Datum.flattenAll es ∧
      (∀ n, ∃ more, ofTokens (List.replicate (n + 1) sequence) limit src l.tokens = (more, .ok x)) ∧
      ∃ again x', ofTokens [sequence] limit src x.tokens = (again, .ok x') ∧
        x'.tokens = x.tokens := by
  obtain ⟨r, es, hr, hlegible, hes, hspread⟩ := exists_expandAll limit h
  have hround : ∀ n, (runAll (List.replicate (n + 1) sequence) r.value).2 = .ok (es, []) := by
    intro n
    exact runAll_of_expandAll (fun _ hrule => List.eq_of_mem_replicate hrule) hes hspread.plain
  have hrounds := fun n => exists_ofTokens_of_runAll hr (hround n)
  obtain ⟨events, hx⟩ := hrounds 0
  obtain ⟨again, x', hx', htokens⟩ := exists_ofTokens_flattenAll
    (legible_of_expandAll hes hlegible) hspread.plain hspread.ascending
  refine ⟨r.value, Report.of? .syntactic r.notes src, es, events, _, ?_, hround 0, hspread.plain,
    hx, rfl, hrounds, again, x', hx', htokens⟩
  rw [Datum.ofTokens, hr]
  rfl

/-- Within two levels: a sequence in a sequence, which is too deep when the outer one is expanded, a
list that is too deep from the beginning and has a sequence in it, a bracket that closes nothing,
and a sequence that is never closed. -/
theorem ofTokens_idempotent_sequences :
    ∃ l, Lexed.ofSource ⟨"a.scm",
        "(begin (begin x)) (f (g (begin y))) ) (begin (begin z)".toList⟩ = .ok l ∧
      ∃ data report? es events x,
        Datum.ofTokens 2 ⟨"a.scm",
          "(begin (begin x)) (f (g (begin y))) ) (begin (begin z)".toList⟩ l.tokens
            = .ok (data, report?) ∧
        (runAll [sequence] data).2 = .ok (es, []) ∧ Datum.ArePlain es ∧
        ofTokens [sequence] 2 ⟨"a.scm",
          "(begin (begin x)) (f (g (begin y))) ) (begin (begin z)".toList⟩ l.tokens
            = (events, .ok x) ∧
        x.tokens = Datum.flattenAll es ∧
        (∀ n, ∃ more, ofTokens (List.replicate (n + 1) sequence) 2 ⟨"a.scm",
          "(begin (begin x)) (f (g (begin y))) ) (begin (begin z)".toList⟩ l.tokens
            = (more, .ok x)) ∧
        ∃ again x', ofTokens [sequence] 2 ⟨"a.scm",
          "(begin (begin x)) (f (g (begin y))) ) (begin (begin z)".toList⟩ x.tokens
            = (again, .ok x') ∧ x'.tokens = x.tokens :=
  ⟨_, rfl, ofTokens_idempotent 2 rfl⟩

end Expansion

end SchemeFront
