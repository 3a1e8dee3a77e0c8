import SchemeFront.Proofs.Parse.Tracked
import SchemeFront.Proofs.Session.Totality

set_option autoImplicit false

/-! # The first unexpected token

A program is read as long as its tokens begin some body of the grammar, and the first token with
which they do not is the one that is blamed (`Body.ofTokens_blames_earliest`). Neither the limit on
nesting nor the other side conditions of the grammar matter for this: what violates them is found
as such, and not as an unexpected token.
-/

namespace SchemeFront

open Token

variable {src : Source} {l : Lexed} {ts : List Token} {t : Token}

/-- The tokens can be completed to a body of the grammar without side conditions. -/
def Token.StartsBody (ts : List Token) : Prop := ∃ us, Phrase.body.Derives (ts ++ us)

/-- A token of a source stands in one place only. -/
theorem Token.Separate.index_unique (h : Separate ts) {i j : Nat} (hi : ts[i]? = some t)
    (hj : ts[j]? = some t) : j = i := by
  obtain ⟨hilt, hi⟩ := List.getElem?_eq_some_iff.1 hi
  obtain ⟨hjlt, hj⟩ := List.getElem?_eq_some_iff.1 hj
  have hne : t.span.start < t.span.stop := h.nonempty t (hi ▸ List.getElem_mem hilt)
  rcases Nat.lt_trichotomy i j with hij | hij | hij
  · have := List.pairwise_iff_getElem.1 h.ordered i j hilt hjlt hij
    rw [hi, hj] at this
    omega
  · exact hij.symm
  · have := List.pairwise_iff_getElem.1 h.ordered j i hjlt hilt hij
    rw [hi, hj] at this
    omega

/-- **The first unexpected token.** Every source without overlong numbers is parsed, within any
limit. If the first finding is that a token is unexpected, then it is one of the tokens, and what
stands before it begins a body, also with anything in its place that is named among the
alternatives, but not with the token. -/
theorem Body.ofTokens_blames_earliest (limit : Int) (h : Lexed.ofSource src = .ok l) :
    ∃ p notes, Body.ofTokens limit src l.tokens = .ok (p, notes) ∧
      ∀ d t expected, notes.head? = some d → d.cause = .unexpected (some (.token t)) expected →
        ∃ i, l.tokens[i]? = some t ∧ (∀ j, l.tokens[j]? = some t → j = i) ∧
          StartsBody (l.tokens.take i) ∧ ¬ StartsBody (l.tokens.take (i + 1)) ∧
          ∀ s ∈ expected, ∀ zs ∈ instances s, StartsBody (l.tokens.take i ++ zs) := by
  have hsep := Lexed.separate h
  obtain ⟨p, trace, hdone, -⟩ := Parse.exists_program_eq_done (P := fun _ => True)
    (Context.ofSource limit src) { rest := l.tokens }
    ⟨Nat.lt_succ_self _, hsep.ascending, fun _ _ => trivial⟩ rfl
  have htracks : (Parse.program (Context.ofSource limit src) { rest := l.tokens }).Tracks
      Phrase.body.language { rest := l.tokens } fun _ _ _ => True := Parse.tracks_program
  rw [hdone] at htracks
  refine ⟨p, trace.notes, by rw [Body.ofTokens, hdone], ?_⟩
  intro d t expected hd hcause
  obtain ⟨xs, us, htokens, hviable, hnot, halternatives⟩ := htracks.2 d hd t expected hcause
  have htokens : l.tokens = xs ++ t :: us := htokens
  have hi : l.tokens[xs.length]? = some t := by simp [htokens]
  have hbefore : l.tokens.take xs.length = xs := by simp [htokens]
  have hwith : l.tokens.take (xs.length + 1) = xs ++ [t] := by
    rw [htokens, List.take_append]
    simp
  refine ⟨xs.length, hi, fun j hj => hsep.index_unique hi hj, ?_, ?_, ?_⟩
  · rw [hbefore]
    exact hviable
  · rw [hwith]
    exact hnot
  · intro s hs zs hzs
    rw [hbefore]
    exact halternatives s hs zs hzs

/-- A point among arguments: in its place an argument or the closing bracket could stand. -/
theorem Body.ofTokens_blames_earliest_point :
    ∃ l t, Lexed.ofSource ⟨"a.scm", "(f . x)".toList⟩ = .ok l ∧ l.tokens[2]? = some t ∧
      (∃ p notes, Body.ofTokens 1 ⟨"a.scm", "(f . x)".toList⟩ l.tokens = .ok (p, notes) ∧
        notes.head?.map Diagnostic.cause
          = some (.unexpected (some (.token t)) [")", "<expression>"])) ∧
      StartsBody (l.tokens.take 2) ∧ ¬ StartsBody (l.tokens.take 3) ∧
      (∀ zs ∈ instances ")", StartsBody (l.tokens.take 2 ++ zs)) ∧
      ∀ zs ∈ instances "<expression>", StartsBody (l.tokens.take 2 ++ zs) := by
  have hrun : (Lexed.ofSource ⟨"a.scm", "(f . x)".toList⟩).toOption.bind (fun l =>
      (Body.ofTokens 1 ⟨"a.scm", "(f . x)".toList⟩ l.tokens).toOption.map fun r =>
        (l.tokens[2]?, r.2.head?.map Diagnostic.cause)) =
      some (some ⟨.keyword .point, Span.ofLength "a.scm" 3 1⟩, some (.unexpected
        (some (.token ⟨.keyword .point, Span.ofLength "a.scm" 3 1⟩)) [")", "<expression>"])) := by
    decide +kernel
  cases hl : Lexed.ofSource ⟨"a.scm", "(f . x)".toList⟩ with
  | error fault =>
      rw [hl] at hrun
      cases hrun
  | ok l =>
      obtain ⟨p, notes, hp, hfirst⟩ := Body.ofTokens_blames_earliest 1 hl
      rw [hl, Except.toOption, Option.bind_some, hp] at hrun
      obtain ⟨ht, hcause⟩ := Prod.mk.inj (Option.some.inj hrun)
      obtain ⟨d, hd, hdcause⟩ := Option.map_eq_some_iff.1 hcause
      obtain ⟨i, -, hunique, hbefore, hnot, hinstances⟩ := hfirst d _ _ hd hdcause
      obtain rfl := hunique 2 ht
      exact ⟨l, _, rfl, ht, ⟨p, notes, hp, hcause⟩, hbefore, hnot, hinstances _ (by simp),
        hinstances _ (by simp)⟩

end SchemeFront
