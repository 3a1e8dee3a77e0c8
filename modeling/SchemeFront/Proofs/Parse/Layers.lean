import SchemeFront.Proofs.Parse.Accounting
import SchemeFront.Proofs.Token.Layered

set_option autoImplicit false

/-! # Parsing in layers

On tokens in layers, the open forms of a parser are those of the layers, and it is as deep as there
are written ones among them. A bracket that is not written never costs a level, since it opens the
first form of a written one. The brackets of its parameters open no form: they are read behind the
word `lambda`, and this is why the places behind it are told from others.
-/

namespace SchemeFront

open Token

variable {ctx : Context} {G : List Bool → List Token → Prop} {pos : Position}
  {front ts us : List Token} {t : Token}

/-- The tokens that are left are in layers, behind those in `front`, which are read before a form
can begin. -/
structure Position.InLayers (ctx : Context) (G : List Bool → List Token → Prop)
    (front : List Token) (pos : Position) : Prop where
  rest : ∃ ts, pos.rest = front ++ ts ∧ Layered ctx.written G pos.forms ts
  levels : pos.depth = pos.forms.count true

namespace Position.InLayers

theorem layered (h : InLayers ctx G [] pos) : Layered ctx.written G pos.forms pos.rest := by
  obtain ⟨ts, hts, hlayered⟩ := h.rest
  rw [hts]
  exact hlayered

/-- In the same forms, further on. -/
theorem moveTo {rest front' : List Token} (h : InLayers ctx G front pos)
    (hrest : rest = front' ++ ts) (hts : Layered ctx.written G pos.forms ts) :
    InLayers ctx G front' (pos.moveTo rest) :=
  ⟨⟨ts, hrest, hts⟩, h.levels⟩

/-- Behind one token of those that are read first. -/
theorem tail (h : InLayers ctx G (t :: front) pos) (hrest : pos.rest = t :: us) :
    InLayers ctx G front (pos.moveTo us) := by
  obtain ⟨ts, hts, hlayered⟩ := h.rest
  rw [hrest, List.cons_append] at hts
  exact h.moveTo (List.cons.inj hts).2 hlayered

theorem tail_of_plain (h : InLayers ctx G [] pos) (hrest : pos.rest = t :: ts)
    (ho : t.opens = false) (hc : t.closes = false) : InLayers ctx G [] (pos.moveTo ts) := by
  have hlayered := h.layered
  rw [hrest] at hlayered
  exact h.moveTo rfl (hlayered.tail_of_plain ho hc)

/-- Inside a form that costs a level if `counted`. -/
theorem enter {counted : Bool} (h : InLayers ctx G [] pos) (hts : ts = front ++ us)
    (hus : Layered ctx.written G (counted :: pos.forms) us) :
    InLayers ctx G front (pos.enter counted ts) where
  rest := ⟨us, hts, hus⟩
  levels := by
    have hlevels := h.levels
    cases counted <;> simp [Position.enter, hlevels]

/-- A form that is refused begins with a written bracket, with as many written forms around it as
are allowed. -/
theorem of_refuses (h : InLayers ctx G [] pos) (hrest : pos.rest = t :: ts) (ho : t.opens = true)
    (hrefuses : ctx.refuses pos t = true) :
    ctx.written t = true ∧ ctx.limit ≤ pos.forms.count true ∧ G pos.forms (t :: ts) := by
  have hlayered := h.layered
  rw [hrest] at hlayered
  rw [Context.refuses, Bool.and_eq_true, decide_eq_true_eq, h.levels] at hrefuses
  obtain ⟨hcounts, hlimit⟩ := hrefuses
  rcases hlayered.opening_cases ho with ⟨hwritten, -⟩ | ⟨_, _, _, _, -, -, -, -, hfree, hhead, -⟩
  · exact ⟨hwritten, hlimit, hlayered.guard⟩
  · rw [Context.counts, hfree, hhead] at hcounts
    cases hcounts

end Position.InLayers

/-- Behind the word `lambda` a form can begin, or brackets stand around no parameters. -/
def Position.InLayersFormals (ctx : Context) (G : List Bool → List Token → Prop) (pos : Position) :
    Prop :=
  InLayers ctx G [] pos ∨ ∃ p q, p.opens = true ∧ q.closes = true ∧ InLayers ctx G [p, q] pos

/-- Inside a form another one can begin, or the word `lambda` stands, and such brackets. -/
def Position.InLayersInside (ctx : Context) (G : List Bool → List Token → Prop) (pos : Position) :
    Prop :=
  InLayers ctx G [] pos ∨
    ∃ l p q, l.lexeme = .keyword .lambda ∧ p.opens = true ∧ q.closes = true ∧
      InLayers ctx G [l, p, q] pos

/-- On tokens in layers, a parser stays in layers. -/
theorem Parse.route_inLayers :
    Route ctx (Position.InLayers ctx G []) (Position.InLayersInside ctx G)
      (Position.InLayersFormals ctx G) where
  formals pos h := .inl h
  plain pos t ts h hrest ho hc := by
    rcases h with h | ⟨p, q, hp, hq, h⟩
    · exact h.tail_of_plain hrest ho hc
    · obtain ⟨us, hus, -⟩ := h.rest
      rw [hrest] at hus
      cases hus
      rw [ho] at hp
      cases hp
  form pos t ts h hrest ho := by
    rcases h with h | ⟨p, q, hp, hq, h⟩
    · have hlayered := h.layered
      rw [hrest] at hlayered ⊢
      exact h.moveTo rfl (hlayered.drop_extent ho)
    · obtain ⟨us, hus, hlayered⟩ := h.rest
      refine h.moveTo ?_ hlayered
      rw [hus]
      have hnone : ∀ u ∈ ([] : List Token), u.name?.isSome = true := by simp
      exact drop_extent_of_names hp hnone hq
  enter pos t ts h hrest ho _ := by
    have hlayered := h.layered
    rw [hrest] at hlayered
    rcases hlayered.opening_cases ho with ⟨hwritten, more⟩ |
      ⟨l, p, q, us, hts, hl, hp, hq, hfree, hhead, more⟩
    · have hcounts : ctx.counts pos t = true := by simp [Context.counts, hwritten]
      rw [hcounts]
      exact .inl (h.enter rfl more)
    · -- It is first in a form that costs a level.
      have hcounts : ctx.counts pos t = false := by rw [Context.counts, hfree, hhead]; rfl
      rw [hcounts]
      exact .inr ⟨l, p, q, hl, hp, hq, h.enter hts more⟩
  inside pos h hword := by
    rcases h with h | ⟨l, p, q, hl, -, -, h⟩
    · exact h
    · obtain ⟨us, hus, -⟩ := h.rest
      rw [hus] at hword
      exact absurd (congrArg some hl) hword
  word pos t ts h hrest ht := by
    rcases h with h | ⟨l, p, q, -, hp, hq, h⟩
    · obtain ⟨ho, hc⟩ := not_bracket_of_keyword ht (by decide) (by decide)
      exact .inl (h.tail_of_plain hrest ho hc)
    · obtain ⟨us, hus, -⟩ := h.rest
      rw [hrest] at hus
      cases hus
      exact .inr ⟨p, q, hp, hq, h.tail hrest⟩
  stray pos t ts h hforms hrest hc := by
    have hlayered := h.layered
    rw [hforms, hrest] at hlayered
    exact h.moveTo rfl (hforms ▸ hlayered.tail_of_stray hc)

end SchemeFront
