import SchemeFront.Proofs.Parse.Isolation
import SchemeFront.Proofs.Parse.Program

set_option autoImplicit false

/-! # Forms at top level

Outside all forms no failure is passed on, and an item takes just the first form
(`Parse.exists_outerItem_eq_done`). So the first form gives the same item whether or not more
tokens follow (`Parse.exists_outerItem_of_isFirstForm`).
-/

namespace SchemeFront

open Token

variable {ts us : List Token} {ctx : Context} {pos : Position}

namespace Parse

variable {inner : Inner} {P : Lexeme → Prop} {n : Nat}

/-- Outside all forms, a form does not fail. -/
theorem exists_of_lands {α : Type} {r : Reply (Parsed α)} {Q : α → Prop} (hforms : pos.forms = [])
    (h : r.Lands P pos Q) :
    ∃ p trace, r = .done p trace (pos.moveTo (pos.rest.drop (extent pos.rest))) := by
  cases r with
  | done p trace after =>
      obtain ⟨rfl, -⟩ := h
      exact ⟨p, trace, rfl⟩
  | failed why trace after =>
      obtain ⟨-, -, hinside, -⟩ := h
      exact absurd hforms hinside
  | fault fault => exact h.elim

theorem map_eq_done {α β : Type} {p : Parse α} {f : α → β} {a : α} {trace : Trace}
    {after : Position} (h : p ctx pos = .done a trace after) :
    (f <$> p) ctx pos = .done (f a) trace after := by
  rw [← bind_pure_comp, bind_apply, h]
  simp [Reply.behind]

/-- An expression that begins with a bracket outside all forms is read. -/
theorem exists_compound_eq_done (hin : inner.Tidy P ctx n) (hs : Supply P (n + 1) pos.rest)
    (hforms : pos.forms = []) {t : Token} {tail : List Token} (hrest : pos.rest = t :: tail)
    (ht : t.opens = true) :
    ∃ e trace, compound inner ctx pos
      = .done e trace (pos.moveTo (pos.rest.drop (extent pos.rest))) := by
  obtain ⟨p, trace, hp⟩ := exists_of_lands hforms (form_formOf_lands hin hs hrest ht)
  refine ⟨ofParsed p, trace, ?_⟩
  rw [compound, peek_bind_apply]
  exact map_eq_done hp

/-- Outside all forms, an expression is read, unless a word stands in its place that begins
none. -/
theorem expression_cases (hin : inner.Tidy P ctx n) (hs : Supply P (n + 1) pos.rest)
    (hforms : pos.forms = []) {t : Token} {tail : List Token} (hrest : pos.rest = t :: tail) :
    (∃ e trace, expression inner [] ctx pos
      = .done e trace (pos.moveTo (pos.rest.drop (extent pos.rest)))) ∨
      t.opens = false ∧ ∃ why, expression inner [] ctx pos = .failed why ∅ pos := by
  rw [expression, peek_bind_apply]
  have hnext : pos.rest[0]? = some t := by simp [hrest]
  rw [hnext]
  obtain ⟨l, s⟩ := t
  cases l with
  | atom a =>
      refine .inl ⟨.atom s a, .ofPosition (pos.moveTo tail), ?_⟩
      rw [hrest, extent_cons_of_not_opens rfl]
      simp only [bind_apply, advance, hrest, pure_apply, Reply.behind, Trace.append_empty]
      rfl
  | keyword k =>
      cases k with
      | opening => exact .inl (exists_compound_eq_done hin hs hforms hrest rfl)
      | _ => exact .inr ⟨rfl, _, rfl⟩

/-- What stands in the place of an expression outside all forms is passed. -/
theorem exists_recovered_eq_done (hin : inner.Tidy P ctx n) (hs : Supply P (n + 1) pos.rest)
    (hforms : pos.forms = []) {t : Token} {tail : List Token} (hrest : pos.rest = t :: tail) :
    ∃ e trace, recovered (expression inner []) ctx pos
      = .done e trace (pos.moveTo (pos.rest.drop (extent pos.rest))) := by
  unfold recovered
  rcases expression_cases hin hs hforms hrest with ⟨e, trace, he⟩ | ⟨-, why, hfailed⟩
  · rw [he]
    exact ⟨e, trace, rfl⟩
  · obtain ⟨span, hspan⟩ := recover_eq Expr ctx pos hs.ascending.spanned (by simp) why
    rw [hfailed]
    dsimp only
    rw [map_eq_done hspan]
    exact ⟨_, _, rfl⟩

/-- Both runs recover from a failure in the same way, if they fail before a word. -/
theorem carries_recovered {long short : Inner} (hcarries : long.Carries us ctx short)
    (hin : short.Tidy P ctx n) (hs : Supply P (n + 1) pos.rest) (hforms : pos.forms = [])
    {t : Token} {tail : List Token} (hrest : pos.rest = t :: tail)
    (hopens : t.opens = true → Hides us 1 tail) :
    (recovered (expression long []) ctx (pos.onto us)).Carries us 0 pos.rest
      (recovered (expression short []) ctx pos) := by
  have key := carries_expression_cons hcarries hrest (hides_zero us _) hopens
    (fun _ _ => hides_zero us tail) []
  unfold recovered
  rcases expression_cases hin hs hforms hrest with ⟨e, trace, he⟩ | ⟨ht, why, hfailed⟩
  · rw [he] at key ⊢
    obtain ⟨hlong, hafter⟩ := key
    rw [hlong]
    exact ⟨rfl, hafter⟩
  · rw [hfailed] at key ⊢
    obtain ⟨hlong, -⟩ := key
    rw [hlong]
    dsimp only
    have hextent : extent (pos.rest ++ us) = extent pos.rest := by
      rw [hrest, List.cons_append, extent_cons_of_not_opens ht, extent_cons_of_not_opens ht]
    exact (carries_map (carries_recover hextent (List.suffix_refl _) (hides_zero us _)
      (hides_zero us _))).behind ∅

/-- The next item outside all forms is read, and it is nothing only for a bracket that closes
nothing. -/
theorem exists_outerItem_eq_done (hin : inner.Tidy P ctx n) (hs : Supply P (n + 1) pos.rest)
    (hforms : pos.forms = []) {t : Token} {tail : List Token} (hrest : pos.rest = t :: tail) :
    ∃ i trace, (∀ started, outerItem inner started ctx pos
      = .done (some i) trace (pos.moveTo (pos.rest.drop (extent pos.rest)))) ∧
      (i = .nothing ↔ t.closes = true) := by
  simp only [outerItem, peek_bind_apply]
  have hnext : pos.rest[0]? = some t := by simp [hrest]
  rw [hnext]
  dsimp only
  split
  · rename_i hc
    refine ⟨.nothing, .ofNote (strayClose t) ++ .ofPosition (pos.moveTo tail), fun _ => ?_,
      by simp [hc]⟩
    rw [hrest, extent_cons_of_not_opens (opens_eq_false_of_closes hc)]
    simp only [bind_apply, note, advance, hrest, pure_apply, Reply.behind, Trace.append_empty]
    rfl
  · rename_i hc
    have hitem : ∃ i trace, item inner (recovered (expression inner [])) ctx pos
        = .done i trace (pos.moveTo (pos.rest.drop (extent pos.rest))) ∧ i ≠ .nothing := by
      rw [item, atDefinition_bind_apply]
      split
      · rename_i hhead
        obtain ⟨opened, tail, hcons, ho, hdef⟩ := begins_of_atDefinition hhead
        obtain ⟨p, trace, hp⟩ :=
          exists_of_lands hforms (form_definition_lands hin hs hcons ho hdef)
        refine ⟨itemOfParsed p, trace, map_eq_done hp, ?_⟩
        cases p <;> simp [itemOfParsed]
      · obtain ⟨e, trace, he⟩ := exists_recovered_eq_done hin hs hforms hrest
        exact ⟨.expression e, trace, map_eq_done he, by simp⟩
    obtain ⟨i, trace, hi, hne⟩ := hitem
    exact ⟨i, trace, fun _ => map_eq_done hi, by simp [hne, hc]⟩

/-- The first item is the same in both runs, if the tokens behind it are the ones that only the
second run has. -/
theorem carries_outerItem {long short : Inner} (hcarries : long.Carries us ctx short)
    (hin : short.Tidy P ctx n) (hs : Supply P (n + 1) pos.rest) (hforms : pos.forms = [])
    {t : Token} {tail : List Token} (hrest : pos.rest = t :: tail)
    (hopens : t.opens = true → Hides us 1 tail) (started : Bool) :
    (outerItem long started ctx (pos.onto us)).Carries us 0 pos.rest
      (outerItem short started ctx pos) := by
  rw [outerItem, outerItem, peek_bind_apply, peek_bind_apply, Position.onto_rest]
  have hnext : (pos.rest ++ us)[0]? = some t := by simp [hrest]
  have hnext' : pos.rest[0]? = some t := by simp [hrest]
  rw [hnext, hnext']
  dsimp only
  split
  · refine carries_bind (Nat.le_refl 0) (carries_note (hides_zero us _)) ?_
    intro _ _ _
    exact carries_bind (Nat.le_refl 0) (carries_advance fun _ _ _ => hides_zero us _)
      fun _ _ h => carries_pure h
  · exact carries_map (carries_item hcarries hrest hopens
      (carries_recovered hcarries hin hs hforms hrest hopens))

/-- **The first form on its own.** At top level the first form gives the same item with the same
findings, whether or not more tokens follow. All its tokens are read, and no others. -/
theorem exists_outerItem_of_isFirstForm {t : Token} {front : List Token}
    (h : IsFirstForm t front us) (hasc : Ascending (t :: front)) (ctx : Context) :
    ∃ i trace, (∀ started, outerItem (nested (t :: front).length) started ctx
        { rest := t :: front } = .done (some i) trace { rest := [] }) ∧
      (∀ n started, (t :: front).length ≤ n → outerItem (nested n) started ctx
        { rest := t :: (front ++ us) } = .done (some i) (trace.onto us) { rest := us }) ∧
      (i = .nothing ↔ t.closes = true) := by
  have hs : Supply (fun _ => True) ((t :: front).length + 1) (t :: front) :=
    ⟨Nat.lt_succ_self _, hasc, fun _ _ => trivial⟩
  have hin : (nested (t :: front).length).Tidy (fun _ => True) ctx (t :: front).length :=
    nested_tidy ctx _
  obtain ⟨i, trace, hshort, hnothing⟩ : ∃ i trace, (∀ started, outerItem
      (nested (t :: front).length) started ctx { rest := t :: front }
        = .done (some i) trace { rest := (t :: front).drop (extent (t :: front)) }) ∧
      (i = .nothing ↔ t.closes = true) := exists_outerItem_eq_done hin hs rfl rfl
  have hend : (t :: front).drop (extent (t :: front)) = [] := by
    rw [h.extent_alone]
    exact List.drop_length
  rw [hend] at hshort
  refine ⟨i, trace, hshort, ?_, hnothing⟩
  intro n started hn
  have hlong : (outerItem (nested n) started ctx { rest := t :: (front ++ us) }).Carries us 0
      (t :: front) (outerItem (nested (t :: front).length) started ctx { rest := t :: front }) :=
    carries_outerItem (carries_nested hn us ctx) hin hs rfl rfl h.hides started
  rw [hshort] at hlong
  exact hlong.1

end Parse

end SchemeFront
