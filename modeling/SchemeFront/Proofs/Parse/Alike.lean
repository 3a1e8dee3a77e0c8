import Mathlib.Data.List.Forall2
import SchemeFront.Proofs.Parse.Mirrored

set_option autoImplicit false

/-! # Tokens that parse alike

Tokens are alike in two contexts if they say the same and the same brackets are written
(`Token.Alike`). Then as many levels are open in both runs wherever they are
(`Parse.pairing_alike`), and lists of tokens that are alike give the same program. Tokens that
have a span for each form are alike to tokens in order (`Token.spaced`), and so they give a
program, wherever they stand (`Body.exists_ofTokens_of_spanned`).
-/

namespace SchemeFront

open Token

variable {ctx ctx' : Context} {pos pos' : Position} {t t' : Token} {ts ts' us : List Token}
  {limit : Int} {src src' : Source}

/-! ## Positions -/

/-- The tokens say the same, and if they open a bracket, both are written or none is. -/
structure Token.Alike (ctx ctx' : Context) (t u : Token) : Prop where
  bare_eq : t.bare = u.bare
  written : t.opens = true → ctx.written t = ctx'.written u

/-- As many levels and the same forms are open, and the tokens that are left are alike. -/
structure Position.Alike (ctx ctx' : Context) (pos pos' : Position) : Prop where
  rest : List.Forall₂ (Token.Alike ctx ctx') pos.rest pos'.rest
  spanned : Spanned pos.rest
  ascending : Ascending pos'.rest
  depth_eq : pos.depth = pos'.depth
  forms_eq : pos.forms = pos'.forms

theorem Token.Alike.bareAll (h : List.Forall₂ (Token.Alike ctx ctx') ts us) :
    ts.map Token.bare = us.map Token.bare := by
  induction h with
  | nil => rfl
  | cons htu _ ih => rw [List.map_cons, List.map_cons, htu.bare_eq, ih]

namespace Position.Alike

theorem twin (h : Alike ctx ctx' pos pos') : Twin pos pos' where
  bare_eq := Token.Alike.bareAll h.rest
  spanned := h.spanned
  ascending := h.ascending
  outside := by rw [h.forms_eq]

theorem drop (h : Alike ctx ctx' pos pos') (i : Nat) :
    Alike ctx ctx' (pos.moveTo (pos.rest.drop i)) (pos'.moveTo (pos'.rest.drop i)) where
  rest := List.forall₂_drop i h.rest
  spanned := h.spanned.of_suffix (List.drop_suffix i _)
  ascending := h.ascending.of_suffix (List.drop_suffix i _)
  depth_eq := h.depth_eq
  forms_eq := h.forms_eq

theorem head (h : Alike ctx ctx' pos pos') (hrest : pos.rest = t :: ts)
    (hrest' : pos'.rest = t' :: ts') : Token.Alike ctx ctx' t t' := by
  have hforall := h.rest
  rw [hrest, hrest'] at hforall
  exact (List.forall₂_cons.1 hforall).1

theorem tail (h : Alike ctx ctx' pos pos') (hrest : pos.rest = t :: ts)
    (hrest' : pos'.rest = t' :: ts') : Alike ctx ctx' (pos.moveTo ts) (pos'.moveTo ts') := by
  have key := h.drop 1
  rwa [hrest, hrest'] at key

theorem counts_eq (h : Alike ctx ctx' pos pos') (ht : Token.Alike ctx ctx' t t')
    (ho : t.opens = true) : ctx.counts pos t = ctx'.counts pos' t' := by
  rw [Context.counts, Context.counts, ht.written ho, h.forms_eq]

theorem enter (h : Alike ctx ctx' pos pos') (hrest : pos.rest = t :: ts)
    (hrest' : pos'.rest = t' :: ts') (counted : Bool) :
    Alike ctx ctx' (pos.enter counted ts) (pos'.enter counted ts') where
  rest := (h.tail hrest hrest').rest
  spanned := (h.tail hrest hrest').spanned
  ascending := (h.tail hrest hrest').ascending
  depth_eq := by simp only [Position.enter, h.depth_eq]
  forms_eq := by simp only [Position.enter, h.forms_eq]

end Position.Alike

/-- Runs on tokens that are alike go together, under the same limit. -/
theorem Parse.pairing_alike (hlimit : ctx.limit = ctx'.limit) :
    Pairing ctx ctx' (Position.Alike ctx ctx') (Position.Alike ctx ctx')
      (Position.Alike ctx ctx') where
  twin _ _ h := h.twin
  twin_inside _ _ h := h.twin
  formals _ _ h := h
  plain pos pos' t ts t' ts' h hrest hrest' _ _ := h.tail hrest hrest'
  form pos pos' t ts h _ _ := by
    rw [← h.twin.extent_eq]
    exact h.drop _
  enter pos pos' t ts t' ts' h hrest hrest' ho := by
    have hcounts := h.counts_eq (h.head hrest hrest') ho
    have hrefuses : ctx.refuses pos t = ctx'.refuses pos' t' := by
      rw [Context.refuses, Context.refuses, hcounts, hlimit, h.depth_eq]
    rw [hrefuses, hcounts]
    cases ctx'.refuses pos' t' with
    | true => exact .inl ⟨rfl, rfl, hlimit⟩
    | false => exact .inr ⟨rfl, rfl, h.enter hrest hrest' _⟩
  inside _ _ h _ := h
  word pos pos' t ts t' ts' h hrest hrest' _ := h.tail hrest hrest'
  stray pos pos' t ts t' ts' h _ hrest hrest' _ := h.tail hrest hrest'

/-! ## Programs -/

/-- Tokens that are alike give the same program, with the same findings. -/
theorem Body.exists_ofTokens_of_alike (hts : Spanned ts) (hus : Ascending us)
    (h : List.Forall₂
      (Token.Alike (Context.ofSource limit src) (Context.ofSource limit src')) ts us) :
    ∃ p q notes notes', ofTokens limit src ts = .ok (p, notes) ∧
      ofTokens limit src' us = .ok (q, notes') ∧ p.same q = true ∧
      notes.map Diagnostic.bare = notes'.map Diagnostic.bare := by
  have hstart : Position.Alike (Context.ofSource limit src) (Context.ofSource limit src')
      { rest := ts } { rest := us } := ⟨h, hts, hus, rfl, rfl⟩
  exact exists_ofTokens_of_pairing (Parse.pairing_alike rfl) hstart

/-! ## Tokens with spans for their forms -/

/-- What the tokens say, each in a place of its own. -/
def Token.spaced (ts : List Token) : List Token :=
  ts.mapIdx fun i t => ⟨t.lexeme, .ofLength "" i 1⟩

/-- The tokens that are written, told by their places. -/
def Context.spaced (ctx : Context) (ts : List Token) : Context :=
  { ctx with written := fun u => ts[u.span.start.toNat]?.any ctx.written }

theorem Token.ascending_spaced (ts : List Token) : Ascending (spaced ts) := by
  refine List.pairwise_iff_getElem.2 ?_
  intro i j hi hj hij
  simp only [spaced, List.getElem_mapIdx, Span.ofLength]
  omega

theorem Token.alike_spaced (ctx : Context) (ts : List Token) :
    List.Forall₂ (Token.Alike ctx (ctx.spaced ts)) ts (spaced ts) := by
  refine List.forall₂_iff_get.2 ⟨by simp [spaced], ?_⟩
  intro i hi hi'
  refine ⟨?_, fun _ => ?_⟩
  · simp [spaced, bare]
  · simp [Context.spaced, spaced, Span.ofLength, hi]

/-- If each form of the tokens has a span, they give a program. -/
theorem Body.exists_ofTokens_of_spanned (limit : Int) (src : Source) (h : Spanned ts) :
    ∃ p notes, ofTokens limit src ts = .ok (p, notes) := by
  have hstart : Position.Alike (Context.ofSource limit src) ((Context.ofSource limit src).spaced ts)
      { rest := ts } { rest := spaced ts } :=
    ⟨alike_spaced _ ts, h, ascending_spaced ts, rfl, rfl⟩
  obtain ⟨p, q, trace, trace', after, after', hp, -⟩ :=
    Parse.exists_program_of_pairing (Parse.pairing_alike (by rfl)) hstart rfl
  exact ⟨p, trace.notes, by rw [ofTokens, hp]⟩

end SchemeFront
