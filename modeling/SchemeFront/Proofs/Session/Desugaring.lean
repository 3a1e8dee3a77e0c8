import SchemeFront.Proofs.Parse.Unfolded
import SchemeFront.Proofs.Session.Layout

set_option autoImplicit false

/-! # Sequences written out

A sequence is nothing but another way to write a call. The expanded tokens of a source can be
displayed, and the text that shows them is parsed without any rules as the source is with the rule
for sequences (`Session.parse_written_out`). Since the brackets that stand for a sequence cost no
level in the source, but do in that text, the limit has to be higher there. Twice as high and one
more is enough.
-/

namespace SchemeFront

open Token

variable {ctx : Context} {limit : Int} {src : Source} {l : Lexed} {ts us : List Token} {t : Token}

/-! ## Unfolded tokens -/

namespace Transformer

mutual

/-- If a datum nests within the limit, so do the brackets that are written in its place: a sequence
adds two to each level. -/
theorem unfolded_rewrite (d : Datum) {depth : Nat} {forms : List Bool} {rest : List Token}
    (hd : d.Nests limit depth) (hcount : forms.count true = depth)
    (hlength : forms.length ≤ 2 * depth) (htold : Told ctx d.flatten)
    (hrest : Unfolded ctx.written limit (2 * limit + 1) forms rest) :
    Unfolded ctx.written limit (2 * limit + 1) forms (rewrite (marks d) d.flatten ++ rest) := by
  cases d with
  | leaf l s => exact .plain hd.1 hd.2 hrest
  | broken ts s => exact hd.elim
  | list ds s =>
      obtain ⟨hdepth, hds⟩ := hd
      have hwritten : ctx.written ⟨.keyword .opening, s.first⟩ = true :=
        htold.opening _ (by simp [Datum.flatten]) rfl
      cases hhead : (Datum.list ds s).isHeadedBy beginName with
      | false =>
          rw [rewrite_list hhead, List.cons_append, List.append_assoc]
          refine .opening rfl hwritten (by omega) (by omega) ?_
          exact unfolded_rewriteAll ds hds (by simp [hcount])
            (by rw [List.length_cons]; omega) (htold.mono (by simp [Datum.flatten]))
            (.closing rfl hrest)
      | true =>
          obtain ⟨l, hs, body, _, heq, hl⟩ := exists_leaf_of_isHeadedBy hhead
          cases heq
          rw [rewrite_sequence body hl, List.cons_append, List.append_assoc, List.append_assoc]
          have hfree : ctx.written ⟨.keyword .opening, hs.first⟩ = false :=
            htold.name ⟨l, hs⟩ (by simp [Datum.flatten, Datum.flattenAll]) hl
          refine .opening rfl hwritten (by omega) (by omega) ?_
          refine .procedure rfl hfree rfl rfl rfl (by omega) ?_
          exact unfolded_rewriteAll body hds.2 (by simp [hcount])
            (by rw [List.length_cons, List.length_cons]; omega)
            (htold.mono fun u hu => by simp [Datum.flatten, Datum.flattenAll, hu])
            (.closing rfl (.closing rfl hrest))

theorem unfolded_rewriteAll (ds : List Datum) {depth : Nat} {forms : List Bool}
    {rest : List Token} (hds : Datum.NestAll limit depth ds) (hcount : forms.count true = depth)
    (hlength : forms.length ≤ 2 * depth) (htold : Told ctx (Datum.flattenAll ds))
    (hrest : Unfolded ctx.written limit (2 * limit + 1) forms rest) :
    Unfolded ctx.written limit (2 * limit + 1) forms
      (rewrite (marksAll ds) (Datum.flattenAll ds) ++ rest) := by
  cases ds with
  | nil => exact hrest
  | cons d ds =>
      rw [Datum.flattenAll] at htold
      rw [marksAll, Datum.flattenAll, rewrite_append (length_marks d), List.append_assoc]
      exact unfolded_rewrite d hds.1 hcount hlength (htold.mono (List.subset_append_left _ _))
        (unfolded_rewriteAll ds hds.2 hcount hlength (htold.mono (List.subset_append_right _ _))
          hrest)

end

end Transformer

/-! ## The text of expanded tokens -/

/-- The expanded tokens as a text, with blanks between them. -/
def Expansion.display (x : Expansion) : List Char :=
  (" ".intercalate (x.tokens.map Token.text)).toList

theorem Expansion.spaced_display (x : Expansion) :
    Text.Spaced (x.tokens.map fun t => t.text.toList) x.display := by
  have key := Text.spaced_intercalate (x.tokens.map fun t => t.text.toList)
  rw [display, String.toList_intercalate, List.map_map]
  exact key

/-- A sequence with a number that is spelled in another way. -/
example :
    let src : Source := ⟨"a.scm", "(begin f 01)".toList⟩
    ((Lexed.ofSource src).toOption.bind fun l =>
      (Expansion.ofTokens Transformer.builtin 1 src l.tokens).2.toOption).map Expansion.display =
      some "( ( lambda ( ) f 1 ) )".toList := by
  decide +kernel

/-- What was not written are brackets and words. -/
theorem Token.Woven.mem (h : Woven ts us) (ht : t ∈ us) :
    t ∈ ts ∨ ∃ k, t.lexeme = .keyword k := by
  induction h with
  | nil => cases ht
  | keep u more ih =>
      rcases List.mem_cons.1 ht with rfl | ht
      · exact .inl List.mem_cons_self
      · exact (ih ht).imp_left (List.mem_cons_of_mem u)
  | @head o b ts us ho hb more ih =>
      rcases List.mem_cons.1 ht with rfl | ht
      · exact .inl List.mem_cons_self
      · rcases List.mem_append.1 ht with ht | ht
        · simp only [Transformer.Mark.replace, List.mem_cons, List.not_mem_nil, or_false] at ht
          rcases ht with rfl | rfl | rfl | rfl <;> exact .inr ⟨_, rfl⟩
        · exact (ih ht).imp_left fun ht => List.mem_cons_of_mem o (List.mem_cons_of_mem b ht)
  | close hc more ih =>
      rcases List.mem_cons.1 ht with rfl | ht
      · exact .inl List.mem_cons_self
      · rcases List.mem_cons.1 ht with rfl | ht
        · exact .inl List.mem_cons_self
        · exact (ih ht).imp_left (List.mem_cons_of_mem _)

/-- The text shows tokens that say the same as the expanded ones. -/
theorem Expansion.exists_lexed_display {r : Datum.Reading (List Datum)} {events : List Event}
    {x : Expansion} (hl : Lexed.ofSource src = .ok l)
    (hx : Rewrites limit src l.tokens r events x) (path : String) :
    ∃ m, Lexed.ofSource ⟨path, x.display⟩ = .ok m ∧ m.diagnostics = [] ∧
      x.tokens.map Token.bare = m.tokens.map Token.bare := by
  have hspelled : ∀ t ∈ x.tokens, ∃ s : Spelling, s.StandsAlone ∧ s.text = t.text.toList ∧
      s.lexeme = .ok t.lexeme := by
    intro t ht
    rw [hx.tokens_eq, ← hx.flatten_eq] at ht
    rcases (Transformer.woven_rewriteAll r.value).mem ht with ht | ⟨k, hk⟩
    · obtain ⟨s, hs, -, hlexeme⟩ := Lexed.exists_standsAlone hl (hx.flatten_eq ▸ ht)
      exact Spelling.exists_display hs hlexeme
    · refine ⟨.keyword k, trivial, ?_, by rw [hk]; rfl⟩
      rw [Token.text, hk]
      rfl
  obtain ⟨m, hm, hnone, hlexemes⟩ :=
    Lexed.relexes_of_forall (l := ⟨x.tokens, []⟩) hspelled path x.display x.spaced_display
  refine ⟨m, hm, hnone, ?_⟩
  have hbare := congrArg (List.map Lexeme.bare) hlexemes
  rw [List.map_map, List.map_map] at hbare
  exact hbare.symm

/-! ## Expansion without rules -/

/-- Without rules the tokens of a source stay as they are. -/
theorem Expansion.exists_ofTokens_nil (limit : Int) (hl : Lexed.ofSource src = .ok l) :
    ∃ r x, Datum.readAll limit src.endOfInput l.tokens = .ok r ∧
      ofTokens [] limit src l.tokens = ([], .ok x) ∧ x.tokens = l.tokens ∧
      x.report? = Report.of? .syntactic r.notes src := by
  obtain ⟨r, hr, hflat⟩ := Datum.exists_readAll limit hl
  refine ⟨r, ⟨l.tokens, [], Report.of? .syntactic r.notes src⟩, hr, ?_, rfl, rfl⟩
  rw [ofTokens, Datum.ofTokens, hr, ← hflat]
  rfl

/-! ## Calls -/

/-- Whether nothing is wrong with the data can be found out by reading them. -/
instance Datum.decidableReads (limit : Int) (src : Source) (ts : List Token) :
    Decidable (∃ data, Datum.ofTokens limit src ts = .ok (data, none)) :=
  match Datum.ofTokens limit src ts with
  | .ok (data, none) => .isTrue ⟨data, rfl⟩
  | .ok (_, some _) => .isFalse (by simp)
  | .error _ => .isFalse (by simp)

namespace Session

/-- If nothing is found in the text and in its data, a call is answered as the parser answers. -/
theorem answers_of_parsed {s : Session} {events : List Event} {x : Expansion} {p : Program}
    {notes : List Diagnostic} (hl : Lexed.ofSource src = .ok l) (hnone : l.diagnostics = [])
    (hx : Expansion.ofTokens s.registry s.limit src l.tokens = (events, .ok x))
    (hreport : x.report? = none) (hp : Body.ofTokens s.limit src x.tokens = .ok (p, notes)) :
    answer (parseLenient src) s = .ok (some p, Report.of? .syntactic notes src) ∧
      ((∃ q, answer (parseStrict src) s = .ok q) ↔ Report.of? .syntactic notes src = none) := by
  have hlexical : l.report? src = none := by
    rw [Lexed.report?, hnone]
    rfl
  constructor
  · rw [answer_parseLenient_of_lexed hl hlexical, answer_parseLenientTokens_of_expansion hx, hp,
      hreport]
    dsimp only [Except.map]
    rw [Option.or_none]
  · rw [answer_parseStrict_of_lexed hl hlexical, answer_parseStrictTokens_of_expansion hx hreport,
      hp]
    dsimp only
    cases Report.of? .syntactic notes src <;> simp

open Transformer

/-- **Sequences are nothing but calls.** Let nothing be wrong with the characters and the data of a
source, within a limit. Then its expanded tokens, displayed with blanks between them, are a source
that gives the same program without any rules, if the limit is twice as high and one more. The
findings are the same but for where they are, and so a strict call accepts both sources or none. -/
theorem parse_written_out (limit : Int) (path : String) (log log' : List Event)
    (hl : Lexed.ofSource src = .ok l) (hnone : l.diagnostics = [])
    (hdata : ∃ data, Datum.ofTokens limit src l.tokens = .ok (data, none)) :
    ∃ events x, Expansion.ofTokens builtin limit src l.tokens = (events, .ok x) ∧
      (∃ p q report? report'?,
        answer (parseLenient src) ⟨builtin, limit, log⟩ = .ok (some p, report?) ∧
        answer (parseLenient ⟨path, x.display⟩) ⟨[], 2 * limit + 1, log'⟩ =
          .ok (some q, report'?) ∧
        p.same q = true ∧ report?.map Report.bare = report'?.map Report.bare) ∧
      ((∃ p, answer (parseStrict src) ⟨builtin, limit, log⟩ = .ok p) ↔
        ∃ q, answer (parseStrict ⟨path, x.display⟩) ⟨[], 2 * limit + 1, log'⟩ = .ok q) := by
  obtain ⟨r, events, x, hx⟩ := Expansion.exists_rewrites limit hl
  have hreport : Report.of? .syntactic r.notes src = none := by
    obtain ⟨data, hdata⟩ := hdata
    rw [Datum.ofTokens, hx.read] at hdata
    exact (Prod.mk.inj (Except.ok.inj hdata)).2
  have hnotes : r.notes = [] := by simpa [Report.of?] using hreport
  have hunfolded : Unfolded (Context.ofSource limit src).written limit (2 * limit + 1) []
      x.tokens := by
    have hnest := Datum.nestAll_of_readFrom hx.read hnotes
    have htold := hx.flatten_eq ▸ Lexed.told limit hl
    have key := unfolded_rewriteAll r.value hnest rfl (Nat.le_refl _) htold .nil
    rwa [List.append_nil, hx.flatten_eq, ← hx.tokens_eq] at key
  obtain ⟨m, hm, hmnone, hbare⟩ := Expansion.exists_lexed_display hl hx path
  obtain ⟨r', x', hread', hx', htokens', hreport'⟩ :=
    Expansion.exists_ofTokens_nil (2 * limit + 1) hm
  have hnotes' : r'.notes = [] :=
    Datum.notes_eq_nil_of_fits (hunfolded.fits.of_bare hbare) hread'
  obtain ⟨p, q, notes, notes', hp, hq, hsame, hbareNotes⟩ :=
    Body.exists_ofTokens_of_unfolded hx.ascending.spanned (Lexed.separate hm).ascending hbare
      hunfolded (Lexed.told _ hm).opening
  have hcalls := answers_of_parsed (s := ⟨builtin, limit, log⟩) hl hnone hx.expanded
    (hx.report_eq.trans hreport) hp
  have hcalls' := answers_of_parsed (s := ⟨[], 2 * limit + 1, log'⟩) hm hmnone hx'
    (by rw [hreport', hnotes']; rfl) (htokens' ▸ hq)
  have hreports := Report.bare_of? .syntactic src ⟨path, x.display⟩ hbareNotes
  refine ⟨events, x, hx.expanded, ⟨p, q, _, _, hcalls.1, hcalls'.1, hsame, hreports⟩, ?_⟩
  rw [hcalls.2, hcalls'.2, ← Option.map_eq_none_iff (f := Report.bare), hreports,
    Option.map_eq_none_iff]

/-- Sequences in one another, an empty one, and a condition without parts. -/
theorem parse_written_out_nested :
    ∃ l, Lexed.ofSource ⟨"a.scm", "(begin (begin) (f (begin 01))) (if)".toList⟩ = .ok l ∧
      l.diagnostics = [] ∧
      (∃ data, Datum.ofTokens 3 ⟨"a.scm", "(begin (begin) (f (begin 01))) (if)".toList⟩ l.tokens =
        .ok (data, none)) ∧
      ∃ events x, Expansion.ofTokens builtin 3
          ⟨"a.scm", "(begin (begin) (f (begin 01))) (if)".toList⟩ l.tokens = (events, .ok x) ∧
        (∃ p q report? report'?,
          answer (parseLenient ⟨"a.scm", "(begin (begin) (f (begin 01))) (if)".toList⟩)
            ⟨builtin, 3, []⟩ = .ok (some p, report?) ∧
          answer (parseLenient ⟨"b.scm", x.display⟩) ⟨[], 2 * 3 + 1, []⟩ =
            .ok (some q, report'?) ∧
          p.same q = true ∧ report?.map Report.bare = report'?.map Report.bare) ∧
        ((∃ p, answer (parseStrict ⟨"a.scm", "(begin (begin) (f (begin 01))) (if)".toList⟩)
            ⟨builtin, 3, []⟩ = .ok p) ↔
          ∃ q, answer (parseStrict ⟨"b.scm", x.display⟩) ⟨[], 2 * 3 + 1, []⟩ = .ok q) :=
  ⟨_, rfl, rfl, by decide +kernel, parse_written_out 3 "b.scm" [] [] rfl rfl (by decide +kernel)⟩

/-- Under a limit that is lower by one, the brackets of the parameters would be too deep. -/
example : ((answer (parseLenient ⟨"b.scm", "( ( lambda ( ) f 1 ) )".toList⟩) ⟨[], 2 * 1, []⟩).map
    fun a => a.2.isSome).toOption = some true := by
  decide +kernel

end Session

end SchemeFront
