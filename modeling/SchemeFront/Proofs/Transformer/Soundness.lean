import SchemeFront.Proofs.Datum.Soundness
import SchemeFront.Proofs.Transformer.Keeping

set_option autoImplicit false

/-! # Rules that keep data sound

A rule that puts lists together from what it is given, and makes no brackets of its own, keeps data
sound (`Transformer.KeepsSound`). After any number of such rules each form of the expanded tokens
has a span, if the tokens were in order (`Expansion.spanned_of_ofTokens`). The rule for sequences
is one of them, and so are the samples.
-/

namespace SchemeFront

open Datum

namespace Transformer

variable {rule : Transformer} {rules registered : List Transformer} {ds es : List Datum}

/-- What the rule makes of a sound datum is sound. -/
def KeepsSound (rule : Transformer) : Prop :=
  ∀ d e registered, d.IsSound → rule.transform d = .ok (e, registered) → e.IsSound

/-! ## Expansion -/

/-- Brackets without a partner are kept, between data that stay sound. -/
theorem areRegular_of_expandAll (hrule : rule.KeepsSound) (h : AreRegular ds)
    (hes : expandAll rule ds = .ok (es, registered)) : AreRegular es := by
  induction h generalizing es registered with
  | nil =>
      cases hes
      exact .nil
  | sound hd more ih =>
      rw [expandAll] at hes
      obtain ⟨⟨e, early⟩, he, hes⟩ := exists_of_bind_eq_ok hes
      obtain ⟨⟨es, late⟩, hmore, hes⟩ := exists_of_bind_eq_ok hes
      cases hes
      exact .sound (keeps_expand (fun _ _ => isSound_list) hrule _ he hd) (ih hmore)
  | stray ht more ih =>
      rw [expandAll] at hes
      obtain ⟨⟨e, early⟩, he, hes⟩ := exists_of_bind_eq_ok hes
      obtain ⟨⟨es, late⟩, hmore, hes⟩ := exists_of_bind_eq_ok hes
      cases he
      cases hes
      exact .stray ht (ih hmore)
  | never hts =>
      cases hes
      exact .never hts

theorem areRegular_of_runAll {events : List Event} (hrules : ∀ r ∈ rules, r.KeepsSound)
    (h : AreRegular ds) (hrun : runAll rules ds = (events, .ok (es, registered))) :
    AreRegular es := by
  induction rules generalizing ds es registered events with
  | nil =>
      cases hrun
      exact h
  | cons rule rules ih =>
      obtain ⟨data, early, more, late, hexpand, hmore⟩ := exists_of_runAll_cons hrun
      exact ih (fun r hr => hrules r (by simp [hr]))
        (areRegular_of_expandAll (hrules rule (by simp)) h hexpand) hmore

/-- The known rules make no brackets of their own. -/
theorem keepsSound_of_mem_known {rule : Transformer} (h : rule ∈ known) : KeepsSound rule := by
  refine keeps_of_mem_known (fun _ _ => isSound_list) ?_ h
  simp only [made, List.mem_cons, List.not_mem_nil, or_false, forall_eq_or_imp, forall_eq]
  exact ⟨fun s => isSound_leaf rfl rfl, fun s => isSound_leaf rfl rfl,
    fun s => isSound_leaf rfl rfl, fun s => isSound_leaf rfl rfl⟩

end Transformer

/-! ## Expanded tokens -/

/-- Rules that keep data sound leave a span to each form. -/
theorem Expansion.spanned_of_ofTokens {rules : List Transformer} {limit : Int} {src : Source}
    {ts : List Token} {events : List Event} {x : Expansion}
    (hrules : ∀ r ∈ rules, r.KeepsSound) (hts : Token.Ascending ts)
    (hx : ofTokens rules limit src ts = (events, .ok x)) : Token.Spanned x.tokens := by
  obtain ⟨r, data, hr, hrun, htokens, -⟩ := Expansion.stages_of_ofTokens hx
  rw [htokens]
  exact (Transformer.areRegular_of_runAll hrules (areRegular_of_readAll hts hr) hrun).spanned

end SchemeFront
