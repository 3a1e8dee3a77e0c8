import SchemeFront.Proofs.Datum.Spans
import SchemeFront.Proofs.Transformer.Idempotence

set_option autoImplicit false

/-! # Where expanded data stand

A sequence becomes two lists, and both borrow their ends: the call stands where the sequence does,
and its procedure from the name `begin` on. So the elements of a list need no longer stand one
behind the other. But the rule leaves every datum where it stands
(`Transformer.isAround_of_expand`), and as the data were spaced before, each list still has more in
its span than each of its elements (`Expansion.spans_nest`).
-/

namespace SchemeFront

open Token

variable {limit : Int} {src : Source} {l : Lexed}

namespace Datum

/-- A list stands around each of its elements, and a malformed region where its tokens do. -/
def IsAround : Datum → Prop
  | leaf _ _ => True
  | list ds s => ∀ d ∈ ds, s.Surrounds d.span
  | broken ts s => s.RunsOver ts

/-- Where the elements of a list stand strictly between its ends, the list stands around them. -/
theorem isAround_of_isSpaced (d : Datum) (h : d.IsSpaced) : d.IsAround := by
  cases d with
  | leaf l s => trivial
  | list ds s =>
      intro d hd
      obtain ⟨hstart, hstop⟩ := h.1 d hd
      exact Span.surrounds_of_start_lt hstart (Int.le_of_lt hstop)
  | broken ts s => exact h

end Datum

namespace Transformer

/-- The two lists that a sequence becomes stand around their elements, if what follows the name
begins behind the start of the name. -/
theorem isAround_of_call {body : List Datum} {s hs : Span} (hle : hs.start ≤ s.stop)
    (hhead : s.start < hs.start ∧ hs.stop < s.stop)
    (hbody : ∀ d ∈ body, hs.start < d.span.start ∧ d.span.stop < s.stop)
    (haround : Datum.ThroughoutAll Datum.IsAround body) :
    (Datum.list [.list (.leaf (.keyword .lambda) hs :: .list [] hs :: body)
      ⟨s.path, hs.start, s.stop, hle⟩] s).Throughout Datum.IsAround := by
  have hprocedure : (Datum.list (.leaf (.keyword .lambda) hs :: .list [] hs :: body)
      ⟨s.path, hs.start, s.stop, hle⟩).IsAround := by
    intro d hd
    -- The name and the parameters end before the procedure, the body begins behind its start.
    simp only [List.mem_cons] at hd
    rcases hd with rfl | rfl | hd
    · exact Span.surrounds_of_stop_lt (Int.le_refl _) hhead.2
    · exact Span.surrounds_of_stop_lt (Int.le_refl _) hhead.2
    · obtain ⟨hstart, hstop⟩ := hbody d hd
      exact Span.surrounds_of_start_lt hstart (Int.le_of_lt hstop)
  have hcall : (Datum.list [.list (.leaf (.keyword .lambda) hs :: .list [] hs :: body)
      ⟨s.path, hs.start, s.stop, hle⟩] s).IsAround := by
    intro d hd
    obtain rfl := List.mem_singleton.1 hd
    exact Span.surrounds_of_start_lt hhead.1 (Int.le_refl _)
  have hformals : (Datum.list [] hs).IsAround := by simp [Datum.IsAround]
  refine Datum.throughout_list.2 ⟨hcall, Datum.throughoutAll_cons.2 ⟨Datum.throughout_list.2
    ⟨hprocedure, ?_⟩, Datum.throughoutAll_nil⟩⟩
  exact Datum.throughoutAll_cons.2 ⟨Datum.throughout_leaf.2 trivial, Datum.throughoutAll_cons.2
    ⟨Datum.throughout_list.2 ⟨hformals, Datum.throughoutAll_nil⟩, haround⟩⟩

mutual

/-- A datum that is spaced is expanded where it stands, and the lists that this gives stand around
their elements. -/
theorem isAround_of_expand (d : Datum) {e : Datum} {registered : List Transformer}
    (h : expand sequence d = .ok (e, registered)) (hd : d.Throughout Datum.IsSpaced) :
    e.span = d.span ∧ e.Throughout Datum.IsAround := by
  cases d with
  | leaf l s =>
      cases h
      exact ⟨rfl, Datum.throughout_leaf.2 trivial⟩
  | broken ts s =>
      cases h
      have hspan : (Datum.broken ts s).IsSpaced := Datum.throughout_broken.1 hd
      exact ⟨rfl, Datum.throughout_broken.2 hspan⟩
  | list ds s =>
      obtain ⟨es, early, hes, he⟩ := exists_of_expand_list h
      obtain ⟨⟨hinside, hordered⟩, hspaced⟩ := Datum.throughout_list.1 hd
      obtain ⟨hspans, haround⟩ := areAround_of_expandAll ds hes hspaced
      -- What is said of the places of the elements is as true of the expanded ones.
      have hinside : ∀ e ∈ es, s.start < e.span.start ∧ e.span.stop < s.stop := by
        intro e he
        have hmem : e.span ∈ ds.map Datum.span := hspans ▸ List.mem_map_of_mem he
        obtain ⟨d, hd, hspan⟩ := List.mem_map.1 hmem
        exact hspan ▸ hinside d hd
      rw [← hspans] at hordered
      cases hhead : (Datum.list es s).isHeadedBy beginName with
      | false =>
          rw [expandBegin_of_not_headed hhead] at he
          cases he
          refine ⟨rfl, Datum.throughout_list.2 ⟨?_, haround⟩⟩
          intro e he
          obtain ⟨hstart, hstop⟩ := hinside e he
          exact Span.surrounds_of_start_lt hstart (Int.le_of_lt hstop)
      | true =>
          obtain ⟨l, hs, body, s', heq, hname⟩ := exists_leaf_of_isHeadedBy hhead
          cases heq
          obtain ⟨hle, rfl⟩ := exists_of_expandBegin_headed hname he
          refine ⟨rfl, isAround_of_call hle (hinside (.leaf l hs) (by simp)) ?_
            (Datum.throughoutAll_cons.1 haround).2⟩
          intro d hd
          have hbehind := (List.pairwise_cons.1 hordered).1 d.span (List.mem_map_of_mem hd)
          exact ⟨hbehind.1, (hinside d (by simp [hd])).2⟩

/-- The same of a list of data. -/
theorem areAround_of_expandAll (ds : List Datum) {es : List Datum} {registered : List Transformer}
    (h : expandAll sequence ds = .ok (es, registered))
    (hds : Datum.ThroughoutAll Datum.IsSpaced ds) :
    es.map Datum.span = ds.map Datum.span ∧ Datum.ThroughoutAll Datum.IsAround es := by
  cases ds with
  | nil =>
      cases h
      exact ⟨rfl, Datum.throughoutAll_nil⟩
  | cons d ds =>
      obtain ⟨e, es, early, late, he, hes, rfl⟩ := exists_of_expandAll_cons h
      obtain ⟨hd, hds⟩ := Datum.throughoutAll_cons.1 hds
      obtain ⟨hspan, haround⟩ := isAround_of_expand d he hd
      obtain ⟨hspans, hall⟩ := areAround_of_expandAll ds hes hds
      exact ⟨by rw [List.map_cons, List.map_cons, hspan, hspans],
        Datum.throughoutAll_cons.2 ⟨haround, hall⟩⟩

end

end Transformer

namespace Expansion

open Transformer

/-- **The spans of data nest strictly.** The data of a source stand one behind the other, and so do
the elements of each list, strictly between its brackets; every malformed region goes from its first
token to its last. When sequences are expanded, in any number of rounds, every list still has more
in its span than each of its elements, and malformed regions stay what they are. -/
theorem spans_nest (limit : Int) (h : Lexed.ofSource src = .ok l) {rules : List Transformer}
    (hrules : ∀ r ∈ rules, r = sequence) :
    ∃ data report? es, Datum.ofTokens limit src l.tokens = .ok (data, report?) ∧
      (runAll rules data).2 = .ok (es, []) ∧
      (data.map Datum.span).Pairwise Span.Precedes ∧
      Datum.ThroughoutAll Datum.IsSpaced data ∧ Datum.ThroughoutAll Datum.IsAround data ∧
      Datum.ThroughoutAll Datum.IsAround es := by
  obtain ⟨r, es, hr, hlegible, hes, hspread⟩ := exists_expandAll limit h
  obtain ⟨r', hr', hflat⟩ := Datum.exists_readAll limit h
  cases hr.symm.trans hr'
  have hbetween : Between (fun _ => True) 0 src.text.length (Datum.flattenAll r.value) :=
    hflat ▸ Lexed.between h fun _ _ => trivial
  have hsits : Datum.SitAll 0 src.text.length r.value :=
    Datum.sitAll_of_legible hlegible (Int.natCast_nonneg _) hbetween
      (hflat.symm ▸ (Lexed.separate h).ordered)
  have hbefore : Datum.ThroughoutAll Datum.IsAround r.value :=
    fun d hd => Datum.isAround_of_isSpaced d (hsits.spaced d hd)
  have hdata : Datum.ofTokens limit src l.tokens
      = .ok (r.value, Report.of? .syntactic r.notes src) := by
    rw [Datum.ofTokens, hr]
    rfl
  cases rules with
  | nil => exact ⟨_, _, r.value, hdata, rfl, hsits.ordered, hsits.spaced, hbefore, hbefore⟩
  | cons rule rules =>
      obtain rfl := hrules rule (by simp)
      have hmore : ∀ r ∈ rules, r = sequence := fun r hr => hrules r (by simp [hr])
      have hrun := runAll_of_expandAll hmore hes hspread.plain
      exact ⟨_, _, es, hdata, hrun, hsits.ordered, hsits.spaced, hbefore,
        (areAround_of_expandAll r.value hes hsits.spaced).2⟩

/-- A sequence in a sequence, a list that is too deep, a bracket that closes nothing, and a sequence
that is never closed. -/
theorem spans_nest_sequences :
    ∃ l, Lexed.ofSource ⟨"a.scm",
        "(begin (begin) x) (f (g (begin y))) ) (begin (begin z)".toList⟩ = .ok l ∧
      (∀ r ∈ [sequence, sequence], r = sequence) ∧
      ∃ data report? es, Datum.ofTokens 2 ⟨"a.scm",
          "(begin (begin) x) (f (g (begin y))) ) (begin (begin z)".toList⟩ l.tokens
            = .ok (data, report?) ∧
        (runAll [sequence, sequence] data).2 = .ok (es, []) ∧
        (data.map Datum.span).Pairwise Span.Precedes ∧
        Datum.ThroughoutAll Datum.IsSpaced data ∧ Datum.ThroughoutAll Datum.IsAround data ∧
        Datum.ThroughoutAll Datum.IsAround es :=
  have hrules : ∀ r ∈ [sequence, sequence], r = sequence := by simp
  ⟨_, rfl, hrules, spans_nest 2 rfl hrules⟩

end Expansion

end SchemeFront
