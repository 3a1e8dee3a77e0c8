import SchemeFront.Proofs.Datum.Depth
import SchemeFront.Proofs.Parse.Mirrored
import SchemeFront.Proofs.Token.Layered

set_option autoImplicit false

/-! # Procedures that cost no level

A bracket that is not written costs no level in a form that costs one. So a procedure without
parameters whose brackets are not written is as good as one that is written out, under a limit
that is large enough for its brackets (`Body.exists_ofTokens_of_unfolded`). The brackets of its
parameters would cost a level, but no form begins with them: they are read behind the word
`lambda`, and this is why the places behind it are told from others.
-/

namespace SchemeFront

open Token

variable {ctx ctx' : Context} {pos pos' : Position} {written : Token → Bool} {limit bound : Int}
  {forms : List Bool} {front ts us : List Token} {t : Token} {src src' : Source}

/-! ## Tokens -/

/-- Tokens behind the open forms `forms`. All brackets are closed, and they are written, but for
those of procedures without parameters that are first in a written form. At most `limit` written
brackets are open at once, and at most `bound` brackets. -/
inductive Token.Unfolded (written : Token → Bool) (limit bound : Int) :
    (forms : List Bool) → List Token → Prop
  | nil : Unfolded written limit bound [] []
  | plain {forms : List Bool} {t : Token} {ts : List Token} (ho : t.opens = false)
      (hc : t.closes = false) (more : Unfolded written limit bound forms ts) :
      Unfolded written limit bound forms (t :: ts)
  | opening {forms : List Bool} {t : Token} {ts : List Token} (ho : t.opens = true)
      (hwritten : written t = true) (hlimit : (forms.count true : Int) < limit)
      (hbound : (forms.length : Int) < bound)
      (more : Unfolded written limit bound (true :: forms) ts) :
      Unfolded written limit bound forms (t :: ts)
  | procedure {forms : List Bool} {o l p q : Token} {ts : List Token} (ho : o.opens = true)
      (hfree : written o = false) (hl : l.lexeme = .keyword .lambda) (hp : p.opens = true)
      (hq : q.closes = true) (hbound : (forms.length + 2 : Int) < bound)
      (more : Unfolded written limit bound (false :: true :: forms) ts) :
      Unfolded written limit bound (true :: forms) (o :: l :: p :: q :: ts)
  | closing {counted : Bool} {forms : List Bool} {t : Token} {ts : List Token}
      (hc : t.closes = true) (more : Unfolded written limit bound forms ts) :
      Unfolded written limit bound (counted :: forms) (t :: ts)

namespace Token

/-- There is room for the bracket that comes next, or an open form that it closes. At the end no
form is open. -/
def Room (written : Token → Bool) (limit bound : Int) (forms : List Bool) : List Token → Prop
  | [] => forms = []
  | t :: _ => (t.closes = true → forms ≠ []) ∧
      (t.opens = true → if written t then (forms.count true : Int) < limit ∧
        (forms.length : Int) < bound else (forms.length + 1 : Int) < bound)

/-- Unfolded tokens are in layers, with room for all brackets. -/
theorem unfolded_iff_layered :
    Unfolded written limit bound forms ts ↔
      Layered written (Room written limit bound) forms ts := by
  constructor
  · intro h
    induction h with
    | nil =>
        refine .nil ?_
        intro outer houter
        exact List.suffix_nil.1 houter
    | plain ho hc more ih => exact .plain ho hc ⟨by simp [hc], by simp [ho]⟩ ih
    | opening ho hwritten hlimit hbound more ih =>
        refine .opening ho hwritten ⟨by simp [closes_eq_false_of_opens ho], fun _ => ?_⟩ ih
        rw [if_pos hwritten]
        exact ⟨hlimit, hbound⟩
    | procedure ho hfree hl hp hq hbound more ih =>
        refine .procedure ho hfree hl hp hq ⟨by simp, fun _ => ?_⟩ ih
        rw [if_neg (by simp [hfree]), List.length_cons]
        omega
    | closing hc more ih => exact .closing hc ⟨by simp, by simp [opens_eq_false_of_closes hc]⟩ ih
  · intro h
    induction h with
    | @nil forms hG =>
        obtain rfl : forms = [] := hG forms (List.suffix_refl forms)
        exact .nil
    | plain ho hc _ _ ih => exact .plain ho hc ih
    | opening ho hwritten hG _ ih =>
        have hroom := hG.2 ho
        rw [if_pos hwritten] at hroom
        exact .opening ho hwritten hroom.1 hroom.2 ih
    | procedure ho hfree hl hp hq hG _ ih =>
        have hroom := hG.2 ho
        rw [if_neg (by simp [hfree]), List.length_cons] at hroom
        exact .procedure ho hfree hl hp hq (by omega) ih
    | closing hc _ _ ih => exact .closing hc ih
    | stray hc hG _ _ => exact absurd rfl (hG.1 hc)

namespace Unfolded

theorem fits (h : Unfolded written limit bound forms ts) :
    Fits bound forms.length ts := by
  induction h with
  | nil => exact .nil
  | plain ho hc more ih => exact .plain ho hc ih
  | opening ho hwritten hlimit hbound more ih => exact .opening ho hbound ih
  | closing hc more ih => exact .closing hc ih
  | procedure ho hfree hl hp hq hbound more ih =>
      obtain ⟨hlo, hlc⟩ := not_bracket_of_keyword hl (by decide) (by decide)
      simp only [List.length_cons] at ih ⊢
      refine .opening ho (by omega) (.plain hlo hlc ?_)
      exact .opening hp (by omega) (.closing hq ih)

/-- A bracket is written, or a procedure without parameters begins with it. -/
theorem opening_cases (ho : t.opens = true)
    (h : Unfolded written limit bound forms (t :: ts)) :
    (written t = true ∧ (forms.count true : Int) < limit ∧ (forms.length : Int) < bound ∧
      Unfolded written limit bound (true :: forms) ts) ∨
    ∃ l p q us, ts = l :: p :: q :: us ∧ l.lexeme = .keyword .lambda ∧ p.opens = true ∧
      q.closes = true ∧ written t = false ∧ forms.headD false = true ∧
      (forms.length : Int) < bound ∧ Unfolded written limit bound (false :: forms) us := by
  have hlayered := unfolded_iff_layered.1 h
  have hroom := hlayered.guard.2 ho
  rcases hlayered.opening_cases ho with ⟨hwritten, more⟩ |
    ⟨l, p, q, us, hts, hl, hp, hq, hfree, hhead, more⟩
  · rw [if_pos hwritten] at hroom
    exact .inl ⟨hwritten, hroom.1, hroom.2, unfolded_iff_layered.2 more⟩
  · rw [if_neg (by simp [hfree])] at hroom
    exact .inr ⟨l, p, q, us, hts, hl, hp, hq, hfree, hhead, by omega,
      unfolded_iff_layered.2 more⟩

/-- Behind a form the same forms are open as in front of it. -/
theorem drop_extent (ho : t.opens = true) (h : Unfolded written limit bound forms (t :: ts)) :
    Unfolded written limit bound forms ((t :: ts).drop (extent (t :: ts))) :=
  unfolded_iff_layered.2 ((unfolded_iff_layered.1 h).drop_extent ho)

theorem tail_of_plain (ho : t.opens = false) (hc : t.closes = false)
    (h : Unfolded written limit bound forms (t :: ts)) : Unfolded written limit bound forms ts :=
  unfolded_iff_layered.2 ((unfolded_iff_layered.1 h).tail_of_plain ho hc)

end Unfolded

end Token

/-! ## Places -/

/-- Both runs are at the same tokens, the first one in the text as it was written, the second one
where everything is written. `front` are tokens that are read before a form can begin. -/
structure Position.Unfolds (ctx ctx' : Context) (front : List Token) (pos pos' : Position) :
    Prop where
  twin : Twin pos pos'
  rest : ∃ ts, pos.rest = front ++ ts ∧
    Unfolded ctx.written ctx.limit ctx'.limit pos.forms ts
  written : ∀ t ∈ pos'.rest, t.opens = true → ctx'.written t = true
  levels : pos.depth = pos.forms.count true
  levels' : pos'.depth = pos.forms.length

namespace Position.Unfolds

theorem unfolded (h : Unfolds ctx ctx' [] pos pos') :
    Unfolded ctx.written ctx.limit ctx'.limit pos.forms pos.rest := by
  obtain ⟨ts, hts, hunfolded⟩ := h.rest
  rw [hts]
  exact hunfolded

/-- In the same forms, further on. -/
theorem moveTo {rest rest' : List Token} (h : Unfolds ctx ctx' front pos pos')
    (htwin : Twin (pos.moveTo rest) (pos'.moveTo rest')) (hs : rest' ⊆ pos'.rest)
    {front' ts : List Token} (hrest : rest = front' ++ ts)
    (hts : Unfolded ctx.written ctx.limit ctx'.limit pos.forms ts) :
    Unfolds ctx ctx' front' (pos.moveTo rest) (pos'.moveTo rest') where
  twin := htwin
  rest := ⟨ts, hrest, hts⟩
  written t ht := h.written t (hs ht)
  levels := h.levels
  levels' := h.levels'

/-- Behind one token of those that are read first. -/
theorem tail {rest rest' : List Token} {t' : Token} (h : Unfolds ctx ctx' (t :: front) pos pos')
    (hrest : pos.rest = t :: rest) (hrest' : pos'.rest = t' :: rest') :
    Unfolds ctx ctx' front (pos.moveTo rest) (pos'.moveTo rest') := by
  obtain ⟨ts, hts, hunfolded⟩ := h.rest
  rw [hrest, List.cons_append] at hts
  refine h.moveTo (h.twin.tail hrest hrest') ?_ (List.cons.inj hts).2 hunfolded
  rw [hrest']
  exact List.subset_cons_self t' rest'

theorem tail_of_plain {ts' : List Token} {t' : Token} (h : Unfolds ctx ctx' [] pos pos')
    (hrest : pos.rest = t :: ts) (hrest' : pos'.rest = t' :: ts') (ho : t.opens = false)
    (hc : t.closes = false) : Unfolds ctx ctx' [] (pos.moveTo ts) (pos'.moveTo ts') := by
  have hunfolded := h.unfolded
  rw [hrest] at hunfolded
  refine h.moveTo (h.twin.tail hrest hrest') ?_ rfl (hunfolded.tail_of_plain ho hc)
  rw [hrest']
  exact List.subset_cons_self t' ts'

/-- Inside a form that costs a level in the first run if `counted`. -/
theorem enter {ts' us : List Token} {t' : Token} {counted : Bool}
    (h : Unfolds ctx ctx' [] pos pos') (hrest : pos.rest = t :: ts)
    (hrest' : pos'.rest = t' :: ts') (hts : ts = front ++ us)
    (hus : Unfolded ctx.written ctx.limit ctx'.limit (counted :: pos.forms) us) :
    Unfolds ctx ctx' front (pos.enter counted ts) (pos'.enter true ts') where
  twin := h.twin.enter hrest hrest' counted true
  rest := ⟨us, hts, hus⟩
  written u hu := h.written u (by rw [hrest']; exact List.mem_cons_of_mem t' hu)
  levels := by
    have hlevels := h.levels
    cases counted <;> simp [Position.enter, hlevels]
  levels' := by
    have hlevels' := h.levels'
    simp [Position.enter, hlevels']

end Position.Unfolds

/-- Behind the word `lambda` a form can begin, or brackets stand around no parameters. -/
def Position.UnfoldsFormals (ctx ctx' : Context) (pos pos' : Position) : Prop :=
  Unfolds ctx ctx' [] pos pos' ∨
    ∃ p q, p.opens = true ∧ q.closes = true ∧ Unfolds ctx ctx' [p, q] pos pos'

/-- Inside a form another one can begin, or the word `lambda` stands, and such brackets. -/
def Position.UnfoldsInside (ctx ctx' : Context) (pos pos' : Position) : Prop :=
  Unfolds ctx ctx' [] pos pos' ∨
    ∃ l p q, l.lexeme = .keyword .lambda ∧ p.opens = true ∧ q.closes = true ∧
      Unfolds ctx ctx' [l, p, q] pos pos'

/-- Runs on unfolded tokens go together: no form is nested too deeply. -/
theorem Parse.pairing_unfolds :
    Pairing ctx ctx' (Position.Unfolds ctx ctx' []) (Position.UnfoldsInside ctx ctx')
      (Position.UnfoldsFormals ctx ctx') where
  twin pos pos' h := by
    rcases h with h | ⟨p, q, -, -, h⟩
    · exact h.twin
    · exact h.twin
  twin_inside pos pos' h := by
    rcases h with h | ⟨l, p, q, -, -, -, h⟩
    · exact h.twin
    · exact h.twin
  formals pos pos' h := .inl h
  plain pos pos' t ts t' ts' h hrest hrest' ho hc := by
    rcases h with h | ⟨p, q, hp, hq, h⟩
    · exact h.tail_of_plain hrest hrest' ho hc
    · obtain ⟨us, hus, -⟩ := h.rest
      rw [hrest] at hus
      cases hus
      rw [ho] at hp
      cases hp
  form pos pos' t ts h hrest ho := by
    rcases h with h | ⟨p, q, hp, hq, h⟩
    · refine h.moveTo h.twin.drop_extent (List.drop_subset _ _) rfl ?_
      have hunfolded := h.unfolded
      rw [hrest] at hunfolded ⊢
      exact hunfolded.drop_extent ho
    · obtain ⟨us, hus, hunfolded⟩ := h.rest
      refine h.moveTo h.twin.drop_extent (List.drop_subset _ _) ?_ hunfolded
      rw [hus]
      have hnone : ∀ u ∈ ([] : List Token), u.name?.isSome = true := by simp
      exact drop_extent_of_names hp hnone hq
  enter pos pos' t ts t' ts' h hrest hrest' ho := by
    refine .inr ?_
    have hwritten' : ctx'.written t' = true :=
      h.written t' (by simp [hrest']) (opens_eq_of_bare (h.twin.bare_head hrest hrest') ▸ ho)
    have hcounts' : ctx'.counts pos' t' = true := by simp [Context.counts, hwritten']
    rw [Context.refuses, Context.refuses, hcounts', h.levels, h.levels']
    have hunfolded := h.unfolded
    rw [hrest] at hunfolded
    rcases hunfolded.opening_cases ho with ⟨hwritten, hlimit, hbound, more⟩ |
      ⟨l, p, q, us, hts, hl, hp, hq, hfree, hhead, hbound, more⟩
    · have hcounts : ctx.counts pos t = true := by simp [Context.counts, hwritten]
      rw [hcounts]
      exact ⟨by simpa using hlimit, by simpa using hbound, .inl (h.enter hrest hrest' rfl more)⟩
    · -- It is first in a form that costs a level.
      have hcounts : ctx.counts pos t = false := by rw [Context.counts, hfree, hhead]; rfl
      rw [hcounts]
      exact ⟨rfl, by simpa using hbound,
        .inr ⟨l, p, q, hl, hp, hq, h.enter hrest hrest' hts more⟩⟩
  inside pos pos' h hword := by
    rcases h with h | ⟨l, p, q, hl, -, -, h⟩
    · exact h
    · obtain ⟨us, hus, -⟩ := h.rest
      rw [hus] at hword
      exact absurd (congrArg some hl) hword
  word pos pos' t ts t' ts' h hrest hrest' ht := by
    rcases h with h | ⟨l, p, q, -, hp, hq, h⟩
    · obtain ⟨ho, hc⟩ := not_bracket_of_keyword ht (by decide) (by decide)
      exact .inl (h.tail_of_plain hrest hrest' ho hc)
    · obtain ⟨us, hus, -⟩ := h.rest
      rw [hrest] at hus
      cases hus
      exact .inr ⟨p, q, hp, hq, h.tail hrest hrest'⟩
  stray pos pos' t ts t' ts' h hforms hrest hrest' hc := by
    have hunfolded := h.unfolded
    rw [hforms, hrest] at hunfolded
    cases hunfolded with
    | plain _ hc' _ =>
        rw [hc] at hc'
        cases hc'
    | opening ho _ _ _ _ =>
        rw [closes_eq_false_of_opens ho] at hc
        cases hc

/-! ## Programs -/

/-- Unfolded tokens give the same program where they are all written, under a limit that is large
enough for all of them, with the same findings. -/
theorem Body.exists_ofTokens_of_unfolded (hts : Spanned ts) (hus : Ascending us)
    (hbare : ts.map Token.bare = us.map Token.bare)
    (hunfolded : Unfolded (Context.ofSource limit src).written limit bound [] ts)
    (hwritten : ∀ u ∈ us, u.opens = true → (Context.ofSource bound src').written u = true) :
    ∃ p q notes notes', ofTokens limit src ts = .ok (p, notes) ∧
      ofTokens bound src' us = .ok (q, notes') ∧ p.same q = true ∧
      notes.map Diagnostic.bare = notes'.map Diagnostic.bare := by
  have hstart : Position.Unfolds (Context.ofSource limit src) (Context.ofSource bound src') []
      { rest := ts } { rest := us } :=
    ⟨⟨hbare, hts, hus, Iff.rfl⟩, ⟨ts, rfl, hunfolded⟩, hwritten, rfl, rfl⟩
  exact exists_ofTokens_of_pairing Parse.pairing_unfolds hstart

end SchemeFront
