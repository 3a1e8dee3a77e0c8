import SchemeFront.Proofs.Parse.Outermost
import SchemeFront.Proofs.Transformer.Brackets

set_option autoImplicit false

/-! # Two readers of brackets

Data are read before they are expanded, and the program is parsed from the expanded tokens, each
with a recovery of its own. But both see the same brackets: they report the same ones that close
nothing, and the same one that is never closed, before and after expansion
(`Session.brackets_agree`). So what the reader of data found is only needed where it found nothing
but lists that are nested too deeply.
-/

namespace SchemeFront

open Token

variable {limit : Int} {src : Source} {l : Lexed} {endOfInput : Span}
  {ts us : List Token} {ds : List Datum} {found notes : List Diagnostic}

/-! ## Findings about brackets -/

namespace Diagnostic

/-- The input could have ended there: this is said at brackets that close nothing. -/
def expectsEnd (d : Diagnostic) : Bool :=
  match d.cause with
  | .unexpected _ expected => expected.contains endOfInputName
  | _ => false

/-- The finding is that a bracket is never closed. -/
def isUnclosed (d : Diagnostic) : Bool :=
  match d.cause with
  | .unclosed .. => true
  | _ => false

/-- The finding is about no bracket without a partner. -/
structure IsInner (endOfInput : Span) (d : Diagnostic) : Prop where
  expectsEnd : d.expectsEnd = false
  isUnclosed : d.isUnclosed = false
  atEnd : d.atEnd = true → d.span = endOfInput

theorem isInner_remark (s : Span) (message : String) (construct : Option String) :
    (remark s message construct).IsInner endOfInput :=
  ⟨rfl, rfl, by rintro ⟨⟩⟩

theorem isInner_unexpected {s : Span} {shown : Option Found} {expected : List String}
    (hexpected : endOfInputName ∉ expected) (hs : shown = none → s = endOfInput) :
    (unexpected s shown expected).IsInner endOfInput where
  expectsEnd := by
    simpa [Diagnostic.expectsEnd, unexpected, mem_alternatives] using hexpected
  isUnclosed := rfl
  atEnd h := by
    cases shown with
    | none => exact hs rfl
    | some found => cases h

end Diagnostic

/-- Wherever a parser is inside of forms, it finds nothing about brackets without a partner. -/
theorem Parse.ground_brackets (ctx : Context) :
    Ground ctx (fun _ => True) (fun _ => False) (Diagnostic.IsInner ctx.endOfInput) where
  plain _ _ _ _ := trivial
  inside _ _ _ _ := .inl trivial
  behind _ _ := trivial
  front _ h := h.elim
  written _ _ _ h := h.elim
  within d construct h := ⟨h.expectsEnd, h.isUnclosed, h.atEnd⟩
  atEnd d h := h.atEnd
  surprise pos expected _ hexpected := by
    rw [Parse.surprise]
    split
    · exact Diagnostic.isInner_unexpected hexpected fun _ => rfl
    · exact Diagnostic.isInner_unexpected hexpected (by rintro ⟨⟩)
  header _ _ _ _ _ _ _ _ _ h := h.elim
  tooDeep _ _ _ _ _ := Diagnostic.isInner_remark ..
  duplicate _ _ := Diagnostic.isInner_remark ..
  misplaced _ _ _ _ := Diagnostic.isInner_remark ..
  late _ _ _ _ _ _ _ _ := Diagnostic.isInner_remark ..

/-! ## What the reader of data finds -/

namespace Datum

theorem OnlyTooDeep.isInner (h : OnlyTooDeep limit ts notes) :
    ∀ m ∈ notes, m.IsInner endOfInput := by
  intro m hm
  obtain ⟨t, -, -, rfl⟩ := h m hm
  exact Diagnostic.isInner_remark ..

/-- The reader reports each bracket that closes nothing. -/
theorem Reads.filter_expectsEnd (h : Reads limit endOfInput ts ds notes) :
    notes.filter Diagnostic.expectsEnd = (strays 0 ts).map strayClose := by
  have hnone : ∀ {us early}, OnlyTooDeep limit us early →
      early.filter Diagnostic.expectsEnd = [] := by
    intro us early hearly
    have hinner : ∀ m ∈ early, m.IsInner endOfInput := hearly.isInner
    exact List.filter_eq_nil_iff.2 fun m hm => by simp [(hinner m hm).expectsEnd]
  induction h with
  | nil => rfl
  | @stray t ts ds notes ht more ih =>
      rw [strays_zero_cons_of_closes ht, List.map_cons, ← ih]
      rfl
  | @whole d xs ts ds early notes hx hd hearly more ih =>
      rw [hx.strays_append, ← ih, List.filter_append, hnone hearly, List.nil_append]
  | @never t ts s early ht hts hearly =>
      rw [strays_of_confined ht hts, List.filter_append, hnone hearly, lateNotes]
      split <;> rfl

/-- Unless nothing may be nested, the reader reports the first bracket that is never closed. -/
theorem Reads.neverClosed_mem (h : Reads limit endOfInput ts ds notes) (hlimit : 0 < limit) :
    ∀ t ∈ unclosed? ts, neverClosed endOfInput t ∈ notes := by
  induction h with
  | nil => simp [unclosed?]
  | @stray t ts ds notes ht more ih =>
      rw [unclosed?_cons_of_not_opens (opens_eq_false_of_closes ht)]
      exact fun o ho => List.mem_cons_of_mem _ (ih o ho)
  | @whole d xs ts ds early notes hx hd hearly more ih =>
      rw [hx.unclosed?_append]
      exact fun o ho => List.mem_append_right _ (ih o ho)
  | @never t ts s early ht hts hearly =>
      rw [unclosed?_of_confined ht hts]
      rintro o ⟨⟩
      simp [lateNotes, hlimit]

/-- Everything that the reader finds: brackets without a partner, and lists that are too deep. -/
theorem Reads.cases_of_mem (h : Reads limit endOfInput ts ds notes) {m : Diagnostic}
    (hm : m ∈ notes) :
    (∃ t ∈ strays 0 ts, m = strayClose t) ∨ (∃ t ∈ unclosed? ts, m = neverClosed endOfInput t) ∨
      ∃ t ∈ ts, t.opens = true ∧ m = Diagnostic.tooDeep limit t.span listName := by
  induction h with
  | nil => cases hm
  | @stray t ts ds notes ht more ih =>
      rw [strays_zero_cons_of_closes ht, unclosed?_cons_of_not_opens (opens_eq_false_of_closes ht)]
      rcases List.mem_cons.1 hm with rfl | hm
      · exact .inl ⟨t, by simp, rfl⟩
      · rcases ih hm with ⟨u, hu, rfl⟩ | hopen | ⟨u, hu, hdeep⟩
        · exact .inl ⟨u, List.mem_cons_of_mem t hu, rfl⟩
        · exact .inr (.inl hopen)
        · exact .inr (.inr ⟨u, List.mem_cons_of_mem t hu, hdeep⟩)
  | @whole d xs ts ds early notes hx hd hearly more ih =>
      rw [hx.strays_append, hx.unclosed?_append]
      rcases List.mem_append.1 hm with hm | hm
      · obtain ⟨u, hu, hdeep⟩ := hearly m hm
        exact .inr (.inr ⟨u, List.mem_append_left ts hu, hdeep⟩)
      · rcases ih hm with hstray | hopen | ⟨u, hu, hdeep⟩
        · exact .inl hstray
        · exact .inr (.inl hopen)
        · exact .inr (.inr ⟨u, List.mem_append_right xs hu, hdeep⟩)
  | @never t ts s early ht hts hearly =>
      rcases List.mem_append.1 hm with hm | hm
      · exact .inr (.inr (hearly m hm))
      · rw [unclosed?_of_confined ht hts]
        rw [lateNotes] at hm
        split at hm
        · exact .inr (.inl ⟨t, rfl, List.mem_singleton.1 hm⟩)
        · cases hm

end Datum

/-! ## What the parser finds -/

section Parser

variable {ctx : Context} {C : List Token → Prop} {os : List Outcome} {p : Program}

theorem Outcome.IsUsual.isUnclosed {o : Outcome} (ho : o.IsUsual (Diagnostic.IsInner endOfInput))
    {m : Diagnostic} (hm : m ∈ o.notes ∨ m ∈ o.item.lateNotes) : m.isUnclosed = false := by
  rcases hm with hm | hm
  · rcases ho.notes m hm with h | ⟨t, -, rfl⟩
    · exact h.isUnclosed
    · rfl
  · exact (of_mem_lateNotes ho.late hm).isUnclosed

/-- What is found about the forms, and then perhaps that there is no expression. -/
theorem Outcome.Makes.exists_notes_eq (h : Makes endOfInput os p found) :
    ∃ more, found = findings os ++ more ∧ (hasExpression os = true → more = []) ∧
      ∀ m ∈ more, m.IsInner endOfInput := by
  refine ⟨_, h.notes, fun hexpr => if_pos hexpr, ?_⟩
  split
  · simp
  · intro m hm
    rw [List.mem_singleton.1 hm]
    exact Diagnostic.isInner_unexpected (by decide) fun _ => rfl

namespace Parse

/-- The parser reports each bracket that closes nothing. -/
theorem Heard.filter_expectsEnd (h : Heard ctx C (Diagnostic.IsInner ctx.endOfInput) us os)
    (hmakes : Outcome.Makes ctx.endOfInput os p found) :
    found.filter Diagnostic.expectsEnd = (strays 0 us).map strayClose := by
  obtain ⟨more, rfl, -, hmore⟩ := hmakes.exists_notes_eq
  have hnone : more.filter Diagnostic.expectsEnd = [] :=
    List.filter_eq_nil_iff.2 fun m hm => by simp [(hmore m hm).expectsEnd]
  have hlate : ∀ o ∈ os, ∀ m ∈ o.item.lateNotes, m.expectsEnd = false :=
    fun o ho m hm => (Outcome.of_mem_lateNotes (h.of_mem ho).1 hm).expectsEnd
  rw [List.filter_append, hnone, List.append_nil, Outcome.filter_findings hlate]
  exact h.filter_notes (fun m hm => hm.expectsEnd) (fun _ _ => rfl) fun _ => rfl

/-- The parser reports one bracket that is never closed, the first one, and reports it last. -/
theorem Heard.exists_of_isUnclosed (h : Heard ctx C (Diagnostic.IsInner ctx.endOfInput) us os)
    (hmakes : Outcome.Makes ctx.endOfInput os p found) {d : Diagnostic} (hd : d ∈ found)
    (hunclosed : d.isUnclosed = true) :
    (∃ front, found = front ++ [d] ∧ ∀ m ∈ front, m.isUnclosed = false) ∧
      ∃ o construct, unclosed? us = some o ∧ d = cutOff ctx o construct := by
  obtain ⟨more, rfl, hnil, hmore⟩ := hmakes.exists_notes_eq
  have hd' : d ∈ Outcome.findings os := by
    rcases List.mem_append.1 hd with hd | hd
    · exact hd
    · simp [(hmore d hd).isUnclosed] at hunclosed
  have hending := h.ending
  generalize unclosed? us = open? at hending
  cases hending with
  | closed hos =>
      obtain ⟨o, ho, hm⟩ := Outcome.exists_of_mem_findings hd'
      simp [(hos o ho).isUnclosed hm] at hunclosed
  | @never front o t s hfront hitem hne hnotes =>
      have hexpr : Outcome.hasExpression (front ++ [o]) = true := by
        simp [Outcome.hasExpression, hitem, BodyItem.expression?]
      rw [hnil hexpr, List.append_nil]
      obtain ⟨before, heq, hbefore⟩ := Outcome.exists_findings_eq_append front hitem
      have hearly : ∀ m ∈ before, m.isUnclosed = false := by
        intro m hm
        obtain ⟨o', ho', hm⟩ := hbefore m hm
        exact (hfront o' ho').isUnclosed hm
      rw [heq] at hd' ⊢
      rcases hnotes with hnotes | ⟨inner, construct, hcons, hinner⟩
      · rcases List.mem_append.1 hd' with hd' | hd'
        · simp [hearly d hd'] at hunclosed
        · simp [(hnotes d hd').isUnclosed] at hunclosed
      · rw [hcons, ← List.append_assoc] at hd' ⊢
        have hall : ∀ m ∈ before ++ inner, m.isUnclosed = false := by
          intro m hm
          rcases List.mem_append.1 hm with hm | hm
          · exact hearly m hm
          · exact (hinner m hm).isUnclosed
        rcases List.mem_append.1 hd' with hd' | hd'
        · simp [hall d hd'] at hunclosed
        · obtain rfl := List.mem_singleton.1 hd'
          exact ⟨⟨before ++ inner, rfl, hall⟩, t, construct, rfl, rfl⟩

/-- With a bracket that has no partner, the parser reports something. -/
theorem Heard.found_ne_nil (h : Heard ctx C (Diagnostic.IsInner ctx.endOfInput) us os)
    (hmakes : Outcome.Makes ctx.endOfInput os p found)
    (hus : strays 0 us ≠ [] ∨ unclosed? us ≠ none) : found ≠ [] := by
  rcases hus with hstrays | hopen
  · rintro rfl
    have key := h.filter_expectsEnd hmakes
    exact hstrays (List.map_eq_nil_iff.1 key.symm)
  · obtain ⟨more, rfl, -⟩ := hmakes.exists_notes_eq
    have hending := h.ending
    generalize unclosed? us = open? at hending hopen
    cases hending with
    | closed => exact absurd rfl hopen
    | @never front o t s hfront hitem hne hnotes =>
        obtain ⟨m, hm⟩ := List.exists_mem_of_ne_nil _ hne
        exact List.ne_nil_of_mem
          (List.mem_append_left _ (Outcome.mem_findings (by simp) hm))

end Parse

end Parser

/-! ## Agreement -/

/-- What was found while parsing agrees with what was found while reading data from `ts`: there are
brackets that close nothing in the same places, and the parser reports only the first bracket that
is never closed, as the last of its findings, as the reader does. Where the reader found such
brackets, the parser has found something. -/
structure BracketsAgree (ts : List Token) (found marks : List Diagnostic) : Prop where
  strays : (found.filter Diagnostic.expectsEnd).map (·.span)
    = (marks.filter Diagnostic.expectsEnd).map (·.span)
  unclosed : ∀ d ∈ found, d.isUnclosed = true →
    (∃ front, found = front ++ [d] ∧ ∀ m ∈ front, m.isUnclosed = false) ∧
    ∃ o, unclosed? ts = some o ∧ d.cause = .unclosed (some "(") o.span none ∧
      ∃ m ∈ marks, m.span = d.span ∧ m.cause = d.cause
  found_ne_nil : ∀ m ∈ marks, m.expectsEnd = true ∨ m.isUnclosed = true → found ≠ []

/-- A parser that sees the same brackets without a partner agrees with the reader. -/
theorem Parse.Heard.bracketsAgree {C : List Token → Prop} {os : List Outcome} {p : Program}
    (h : Heard (Context.ofSource limit src) C (Diagnostic.IsInner src.endOfInput) us os)
    (hmakes : Outcome.Makes src.endOfInput os p found)
    (hreads : Datum.Reads limit src.endOfInput ts ds notes) (hlimit : 1 ≤ limit)
    (hus : Token.strays 0 us = Token.strays 0 ts ∧ unclosed? us = unclosed? ts) :
    BracketsAgree ts found notes where
  strays := by
    rw [h.filter_expectsEnd hmakes, hreads.filter_expectsEnd, hus.1, List.map_map, List.map_map]
    rfl
  unclosed d hd hunclosed := by
    obtain ⟨hlast, o, construct, ho, rfl⟩ := h.exists_of_isUnclosed hmakes hd hunclosed
    rw [hus.2] at ho
    exact ⟨hlast, o, ho, rfl, _, hreads.neverClosed_mem (by omega) o ho, rfl, rfl⟩
  found_ne_nil m hm hmark := by
    refine h.found_ne_nil hmakes ?_
    rw [hus.1, hus.2]
    rcases hreads.cases_of_mem hm with ⟨t, ht, rfl⟩ | ⟨t, ht, rfl⟩ | ⟨t, -, -, rfl⟩
    · exact .inl (List.ne_nil_of_mem ht)
    · exact .inr (Option.ne_none_iff_exists'.2 ⟨t, ht⟩)
    · rcases hmark with hmark | hmark <;> cases hmark

namespace Session

/-- **The two readers agree on brackets.** The tokens of a source are parsed as they are and after
sequences in them are expanded, and both times what is found agrees with what is found while data
are read. So a recovering call only reports the latter if these are lists that are nested too
deeply. -/
theorem brackets_agree (hlimit : 1 ≤ limit) (hl : Lexed.ofSource src = .ok l) :
    ∃ data marks p found events x p' found',
      Datum.ofTokens limit src l.tokens = .ok (data, Report.of? .syntactic marks src) ∧
      Body.ofTokens limit src l.tokens = .ok (p, found) ∧ BracketsAgree l.tokens found marks ∧
      Expansion.ofTokens [Transformer.sequence] limit src l.tokens = (events, .ok x) ∧
      Body.ofTokens limit src x.tokens = .ok (p', found') ∧ BracketsAgree l.tokens found' marks ∧
      ∀ s : Session, s.registry = Transformer.builtin → s.limit = limit →
        answer (parseLenientTokens src l.tokens) s
          = .ok (p', (Report.of? .syntactic found' src).or (Report.of? .syntactic marks src)) ∧
        (found' = [] → ∀ m ∈ marks, ∃ t ∈ l.tokens, t.opens = true ∧
          m = Diagnostic.tooDeep limit t.span Datum.listName) := by
  obtain ⟨r, events, x, h⟩ := Expansion.exists_rewrites limit hl
  have hreads := Datum.reads_of_readFrom h.read
  have hground := Parse.ground_brackets (Context.ofSource limit src)
  obtain ⟨os, p, found, hp, hmakes, hheard⟩ :=
    Body.exists_ofTokens_heard hground (Lexed.separate hl).ascending trivial
  obtain ⟨os', p', found', hp', hmakes', hheard'⟩ :=
    Body.exists_ofTokens_heard hground h.ascending trivial
  have hsame := Transformer.strays_rewrite hreads
  rw [h.flatten_eq, ← h.tokens_eq] at hsame
  have hagree := hheard'.bracketsAgree hmakes' hreads hlimit hsame
  refine ⟨r.value, r.notes, p, found, events, x, p', found', ?_, hp,
    hheard.bracketsAgree hmakes hreads hlimit ⟨rfl, rfl⟩, h.expanded, hp', hagree, ?_⟩
  · rw [Datum.ofTokens, h.read]
    rfl
  · rintro s hregistry rfl
    refine ⟨?_, ?_⟩
    · have hx : Expansion.ofTokens s.registry s.limit src l.tokens = (events, .ok x) := by
        rw [hregistry]
        exact h.expanded
      rw [← h.report_eq]
      exact answer_parseLenientTokens_of_ok hx h.registered hp'
    · intro hnil m hm
      rcases hreads.cases_of_mem hm with ⟨t, ht, rfl⟩ | ⟨t, ht, rfl⟩ | hdeep
      · exact absurd hnil (hagree.found_ne_nil _ hm (.inl rfl))
      · exact absurd hnil (hagree.found_ne_nil _ hm (.inr rfl))
      · exact hdeep

/-- A bracket that closes nothing, a sequence, a list that is too deep and one that is never
closed. -/
theorem brackets_agree_sequence :
    (1 : Int) ≤ 2 ∧ ∃ l, Lexed.ofSource ⟨"a.scm", ") (begin (f (g x))) (h y".toList⟩ = .ok l ∧
      ∃ data marks p found events x p' found',
        Datum.ofTokens 2 ⟨"a.scm", ") (begin (f (g x))) (h y".toList⟩ l.tokens
          = .ok (data, Report.of? .syntactic marks ⟨"a.scm", ") (begin (f (g x))) (h y".toList⟩) ∧
        Body.ofTokens 2 ⟨"a.scm", ") (begin (f (g x))) (h y".toList⟩ l.tokens = .ok (p, found) ∧
        BracketsAgree l.tokens found marks ∧
        Expansion.ofTokens [Transformer.sequence] 2 ⟨"a.scm", ") (begin (f (g x))) (h y".toList⟩
          l.tokens = (events, .ok x) ∧
        Body.ofTokens 2 ⟨"a.scm", ") (begin (f (g x))) (h y".toList⟩ x.tokens = .ok (p', found') ∧
        BracketsAgree l.tokens found' marks := by
  have hlimit : (1 : Int) ≤ 2 := by decide
  obtain ⟨l, hl⟩ : ∃ l, Lexed.ofSource ⟨"a.scm", ") (begin (f (g x))) (h y".toList⟩ = .ok l :=
    ⟨_, rfl⟩
  obtain ⟨data, marks, p, found, events, x, p', found', hdata, hp, hagree, hx, hp', hagree', -⟩ :=
    brackets_agree hlimit hl
  exact ⟨hlimit, l, hl, data, marks, p, found, events, x, p', found', hdata, hp, hagree, hx, hp',
    hagree'⟩

end Session

end SchemeFront
