import SchemeFront.Proofs.Datum.Findings
import SchemeFront.Proofs.Datum.Hereditary
import SchemeFront.Proofs.Token.Spanning

set_option autoImplicit false

/-! # Sound data

Flattening writes the brackets of a list at the ends of its span, so the form has a span again,
whatever the list is made of. It is different with brackets that stand in a datum as they are: in a
sound datum (`Datum.IsSound`) those are malformed regions whose brackets have their partners, and
each form in them has a span. All data of tokens in order are sound, but for brackets without a
partner (`Datum.AreRegular`), and then all forms of the flattened data have spans.
-/

namespace SchemeFront

open Token

/-! ## Forms with spans, one behind another -/

namespace Token

variable {t : Token} {ts xs rest : List Token} {d : Nat}

theorem Spanned.cons (h : Spanned ts)
    (hform : ∀ fallback, ∃ s, cover ((t :: ts).take (extent (t :: ts))) fallback = .ok s) :
    Spanned (t :: ts) := by
  intro us hus fallback
  rcases List.suffix_cons_iff.1 hus with rfl | hus
  · exact hform fallback
  · exact h us hus fallback

theorem Spanned.cons_of_not_opens (ho : t.opens = false) (h : Spanned ts) : Spanned (t :: ts) := by
  refine h.cons fun fallback => ?_
  rw [extent_cons_of_not_opens ho]
  exact ⟨_, Span.make_of_le t.span.start_le_stop⟩

/-- What follows balanced tokens has no influence on the forms in them. -/
theorem Spanned.append (hx : openAfter d xs = some 0) (hxs : Spanned xs) (hrest : Spanned rest) :
    Spanned (xs ++ rest) := by
  induction xs generalizing d with
  | nil => exact hrest
  | cons t xs ih =>
      have htail : Spanned xs := hxs.of_suffix (List.suffix_cons t xs)
      rcases bracket_cases t with ho | hc | ⟨ho, hc⟩
      · rw [openAfter_cons_of_opens ho] at hx
        refine (ih hx htail).cons fun fallback => ?_
        have hform := hxs (t :: xs) (List.suffix_refl _) fallback
        rcases closed_or_confined xs with ⟨ys, c, us, rfl, hys, hc⟩ | hconf
        · rw [take_extent_of_balanced ho hys hc] at hform
          rw [List.append_assoc, List.cons_append, take_extent_of_balanced ho hys hc]
          exact hform
        · -- The bracket would still be open at the end.
          obtain ⟨e, he⟩ := Option.isSome_iff_exists.1 hconf
          have hopen := openAfter_add he (d + 1)
          rw [Nat.zero_add, hx] at hopen
          exact absurd (Option.some.inj hopen) (by omega)
      · cases d with
        | zero =>
            rw [openAfter_zero_cons_of_closes hc] at hx
            cases hx
        | succ d =>
            rw [openAfter_cons_of_closes hc] at hx
            exact (ih hx htail).cons_of_not_opens (opens_eq_false_of_closes hc)
      · rw [openAfter_cons_of_plain ho hc] at hx
        exact (ih hx htail).cons_of_not_opens ho

end Token

namespace Datum

variable {d : Datum} {ds : List Datum} {t : Token} {ts rest : List Token} {s : Span}
  {limit : Int} {endOfInput : Span} {rounds depth : Nat} {notes : List Diagnostic}

/-! ## Malformed regions -/

mutual

/-- The malformed regions in a datum. -/
def regions : Datum → List (List Token)
  | leaf _ _ => []
  | list ds _ => regionsAll ds
  | broken ts _ => [ts]

/-- The malformed regions in the data of a list. -/
def regionsAll : List Datum → List (List Token)
  | [] => []
  | d :: ds => regions d ++ regionsAll ds

end

/-- All brackets in the datum have their partners, and the forms in malformed regions have
spans. -/
structure IsSound (d : Datum) : Prop where
  whole : d.IsWhole
  spanned : ∀ us ∈ d.regions, Spanned us

theorem areWhole_iff : AreWhole ds ↔ ∀ d ∈ ds, d.IsWhole := by
  induction ds with
  | nil => simp [AreWhole]
  | cons d ds ih => simp [AreWhole, ih]

theorem mem_regionsAll {us : List Token} : us ∈ regionsAll ds ↔ ∃ d ∈ ds, us ∈ d.regions := by
  induction ds with
  | nil => simp [regionsAll]
  | cons d ds ih => simp [regionsAll, ih]

theorem isSound_leaf {l : Lexeme} (ho : Token.opens ⟨l, s⟩ = false)
    (hc : Token.closes ⟨l, s⟩ = false) : (leaf l s).IsSound :=
  ⟨⟨ho, hc⟩, by simp [regions]⟩

/-- A list is sound if its elements are, wherever it stands. -/
theorem isSound_list : (list ds s).IsSound ↔ ∀ d ∈ ds, d.IsSound := by
  constructor
  · intro h d hd
    exact ⟨areWhole_iff.1 h.whole d hd, fun us hus => h.spanned us (mem_regionsAll.2 ⟨d, hd, hus⟩)⟩
  · intro h
    refine ⟨areWhole_iff.2 fun d hd => (h d hd).whole, fun us hus => ?_⟩
    obtain ⟨d, hd, hus⟩ := mem_regionsAll.1 hus
    exact (h d hd).spanned us hus

/-! ## Flattening -/

mutual

theorem balanced_flatten (d : Datum) (h : d.IsWhole) : Balanced d.flatten := by
  cases d with
  | leaf l s => exact balanced_singleton h.1 h.2
  | broken ts s => exact h
  | list ds s => exact (balanced_flattenAll ds h).bracketed rfl rfl

theorem balanced_flattenAll (ds : List Datum) (h : AreWhole ds) : Balanced (flattenAll ds) := by
  cases ds with
  | nil => rfl
  | cons d ds =>
      rw [flattenAll]
      exact (balanced_flatten d h.1).append (balanced_flattenAll ds h.2)

end

mutual

/-- The forms of a sound datum have spans, whatever follows it. -/
theorem spanned_flatten (d : Datum) {rest : List Token} (hd : d.IsWhole)
    (hregions : ∀ us ∈ d.regions, Spanned us) (hrest : Spanned rest) :
    Spanned (d.flatten ++ rest) := by
  cases d with
  | leaf l s => exact hrest.cons_of_not_opens hd.1
  | broken ts s => exact Spanned.append hd (hregions ts (by simp [regions])) hrest
  | list ds s =>
      have hclosing : Spanned (⟨.keyword .closing, s.final⟩ :: rest) :=
        hrest.cons_of_not_opens rfl
      have hinside := spanned_flattenAll ds hd hregions hclosing
      rw [flatten, List.cons_append, List.cons_append, List.append_assoc, List.singleton_append]
      refine hinside.cons fun fallback => ?_
      rw [take_extent_of_balanced rfl (balanced_flattenAll ds hd) rfl]
      refine ⟨⟨s.path, s.start, s.stop, s.start_le_stop⟩, ?_⟩
      have hlast : (⟨.keyword .opening, s.first⟩ :: (flattenAll ds ++
          [(⟨.keyword .closing, s.final⟩ : Token)])).getLast? =
          some ⟨.keyword .closing, s.final⟩ := by
        rw [← List.cons_append, List.getLast?_concat]
      rw [cover, List.head?_cons, hlast]
      simp only [Span.between, Span.first_start, Span.final_stop]
      exact Span.make_of_le s.start_le_stop

theorem spanned_flattenAll (ds : List Datum) {rest : List Token} (hds : AreWhole ds)
    (hregions : ∀ us ∈ regionsAll ds, Spanned us) (hrest : Spanned rest) :
    Spanned (flattenAll ds ++ rest) := by
  cases ds with
  | nil => exact hrest
  | cons d ds =>
      rw [flattenAll, List.append_assoc]
      refine spanned_flatten d hds.1 (fun us hus => hregions us (by simp [regionsAll, hus])) ?_
      refine spanned_flattenAll ds hds.2 (fun us hus => ?_) hrest
      exact hregions us (by simp [regionsAll, hus])

end

/-- Sound data, with closing brackets between them, and perhaps a list at the end that is never
closed. -/
inductive AreRegular : List Datum → Prop
  | nil : AreRegular []
  | sound {d : Datum} {ds : List Datum} (hd : d.IsSound) (more : AreRegular ds) :
      AreRegular (d :: ds)
  | stray {t : Token} {s : Span} {ds : List Datum} (ht : t.closes = true)
      (more : AreRegular ds) : AreRegular (broken [t] s :: ds)
  | never {ts : List Token} {s : Span} (hts : Spanned ts) : AreRegular [broken ts s]

/-- Each form of the flattened data has a span. -/
theorem AreRegular.spanned (h : AreRegular ds) : Spanned (flattenAll ds) := by
  induction h with
  | nil =>
      intro us hus fallback
      obtain rfl := List.suffix_nil.1 hus
      exact ⟨fallback, rfl⟩
  | sound hd more ih => exact spanned_flatten _ hd.whole hd.spanned ih
  | stray ht more ih => exact ih.cons_of_not_opens (opens_eq_false_of_closes ht)
  | @never ts s hts =>
      rw [flattenAll, flattenAll, List.append_nil]
      exact hts

/-! ## Reading -/

/-- Malformed regions are kept as they stand in the tokens. -/
theorem regions_of_readFrom {r : Reading (List Datum)}
    (h : readFrom limit endOfInput rounds depth ts = .ok r) :
    ∀ us ∈ regionsAll r.value, us <:+: ts := by
  have hQ : Hereditary fun d => ∀ us ∈ d.regions, us <:+: ts := by
    intro ds s
    simp only [regions, mem_regionsAll]
    exact ⟨fun h d hd us hus => h us ⟨d, hd, hus⟩, fun h us ⟨d, hd, hus⟩ => h d hd us hus⟩
  have hground : Grounded (fun d => ∀ us ∈ d.regions, us <:+: ts) ts :=
    ⟨fun t ht ho => by simp [regions], fun us s hus => by simpa [regions] using hus⟩
  intro us hus
  obtain ⟨d, hd, hus⟩ := mem_regionsAll.1 hus
  exact hereditary_of_readFrom hQ hground h d hd us hus

theorem Reads.areRegular (h : Reads limit endOfInput ts ds notes)
    (hregions : ∀ us ∈ regionsAll ds, Spanned us) : AreRegular ds := by
  induction h with
  | nil => exact .nil
  | stray ht more ih => exact .stray ht (ih fun us hus => hregions us (by simp [regionsAll, hus]))
  | whole hx hd hearly more ih =>
      exact .sound ⟨hd, fun us hus => hregions us (by simp [regionsAll, hus])⟩
        (ih fun us hus => hregions us (by simp [regionsAll, hus]))
  | never ht hts hearly => exact .never (hregions _ (by simp [regionsAll, regions]))

/-- The data of tokens in order are sound, but for brackets without a partner. -/
theorem areRegular_of_readAll {r : Reading (List Datum)} (h : Ascending ts)
    (hr : readAll limit endOfInput ts = .ok r) : AreRegular r.value :=
  (reads_of_readFrom hr).areRegular fun us hus =>
    Ascending.spanned (h.sublist (regions_of_readFrom hr us hus).sublist)

end Datum

end SchemeFront
