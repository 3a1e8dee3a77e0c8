import SchemeFront.Proofs.Lexer.Spacing
import SchemeFront.Proofs.Session.Brackets
import SchemeFront.Proofs.Transformer.Weaving

set_option autoImplicit false

/-! # Findings point at the source

A finding shows the part of the source that it is about. Expansion gives some tokens the place of
another one, and in these places the source shows something else. But a token that a finding
mentions is one that the source shows there, with one exception: where the name `begin` stands
first in a list of parameters, or in the header of a definition, the finding is about a bracket,
and shows the first letter of the name (`Session.findings_point`).
-/

namespace SchemeFront

open Token Transformer

variable {limit : Int} {src : Source} {l : Lexed} {s : Span} {c : Cause} {d : Diagnostic}
  {t : Token} {ts : List Token}

/-! ## Places -/

namespace Source

/-- The span lies within the text. -/
def Encloses (src : Source) (s : Span) : Prop := 0 ≤ s.start ∧ s.stop ≤ src.text.length

/-- What the source shows in the span, read by itself, is one token that says `x`. -/
def Shows (src : Source) (s : Span) (x : Lexeme) : Prop :=
  ∀ path, Lexed.ofSource ⟨path, src.excerpt s⟩
    = .ok ⟨[⟨x, Span.ofLength path 0 (src.excerpt s).length⟩], []⟩

theorem encloses_endOfInput (src : Source) : src.Encloses src.endOfInput := by
  constructor <;> simp [endOfInput, Span.point, Span.ofLength]

theorem Encloses.join {u : Span} (hs : src.Encloses s) (hu : src.Encloses u) :
    src.Encloses (s.join u) := by
  unfold Encloses Span.join at *
  dsimp only
  omega

end Source

/-- The name `begin` stands first in what was written as a list of parameters, or as the header of a
definition, and the span is its first letter. -/
def Token.BeginsFormals (ts : List Token) (s : Span) : Prop :=
  ∃ p k o b behind, (p :: k :: o :: b :: behind) <:+ ts ∧ p.opens = true ∧
    (k.lexeme = .keyword .lambda ∨ k.lexeme = .keyword .define) ∧ o.opens = true ∧
    b.name? = some beginName ∧ s = b.span.first

namespace Lexed

theorem encloses (hl : ofSource src = .ok l) (ht : t ∈ l.tokens) : src.Encloses t.span := by
  obtain ⟨-, -, -, -, -, -, hlo, hhi, -⟩ := exists_of_mem hl ht
  exact ⟨hlo, hhi⟩

theorem encloses_first (hl : ofSource src = .ok l) (ht : t ∈ l.tokens) :
    src.Encloses t.span.first := by
  obtain ⟨hlo, hhi⟩ := encloses hl ht
  have hpos := (separate hl).nonempty t ht
  constructor
  · exact hlo
  · rw [Span.first_stop]
    omega

/-- Each token comes back from its excerpt. -/
theorem shows (hl : ofSource src = .ok l) (ht : t ∈ l.tokens) :
    src.Shows t.span t.lexeme := by
  intro path
  obtain ⟨s, hs, hexcerpt, hx⟩ := exists_standsAlone hl ht
  have hscan : Scanned.ofPieces 0 (Piece.pieces false (s.text ++ [])) = _ :=
    Spelling.scan_text hs (by simp [Text.StartsInSpace])
  rw [List.append_nil] at hscan
  rw [← hexcerpt, ofSource, Scanned.ofText_eq_ofPieces, hscan, ofScanned, hx]
  rfl

theorem excerpt_of_opens (hl : ofSource src = .ok l) (ht : t ∈ l.tokens) (ho : t.opens = true) :
    src.excerpt t.span = ['('] :=
  excerpt_of_isKeyword hl ht ho

theorem excerpt_of_name? (hl : ofSource src = .ok l) (ht : t ∈ l.tokens) {name : String}
    (hname : t.name? = some name) : src.excerpt t.span = name.toList := by
  obtain ⟨before, s, behind, htext, -, hspells⟩ := exists_spelled hl ht
  obtain rfl := hspells.eq_ident (Token.lexeme_of_name? hname)
  rw [hspells.span_eq, Spelling.length, Source.excerpt_ofLength htext]
  rfl

/-- Where a sequence begins, the source shows the first letter of its name. -/
theorem excerpt_first (hl : ofSource src = .ok l) (ht : t ∈ l.tokens)
    (hname : t.name? = some beginName) : src.excerpt t.span.first = ['b'] := by
  obtain ⟨before, s, behind, htext, -, hspells⟩ := exists_spelled hl ht
  have hword : s.text = 'b' :: "egin".toList := by
    have hexcerpt := excerpt_of_name? hl ht hname
    rw [hspells.span_eq, Spelling.length, Source.excerpt_ofLength htext] at hexcerpt
    exact hexcerpt
  have hletter : src.text = before ++ ['b'] ++ ("egin".toList ++ behind) := by
    rw [htext, hword]
    simp
  rw [hspells.span_eq]
  exact Source.excerpt_ofLength hletter

/-- In a source, brackets are told from the places where sequences begin. -/
theorem told (limit : Int) (hl : ofSource src = .ok l) :
    Told (Context.ofSource limit src) l.tokens where
  opening t ht ho := by
    simp only [Context.ofSource, excerpt_of_opens hl ht ho]
    rfl
  name b hb hname := by
    simp only [Context.ofSource, excerpt_first hl hb hname]
    rfl

end Lexed

/-! ## Kinds of findings -/

/-- What is wrong, with the place where this is said: a stray character, a token, or the end of the
input. -/
inductive Cause.Located (limit : Int) (src : Source) (ts : List Token) (s : Span) (c : Cause) : Prop
  | stray {char : Char} (hexcerpt : src.excerpt s = [char]) (hin : src.Encloses s)
      (hc : c = .unexpected (some (.text (String.ofList [char]))) [])
  | token {t : Token} {expected : List String} (ht : t ∈ ts) (hs : s = t.span)
      (hc : c = .unexpected (some (.token t)) expected)
  | formals {t : Token} {expected : List String} (ht : BeginsFormals ts t.span)
      (ho : t.opens = true) (hs : s = t.span) (hc : c = .unexpected (some (.token t)) expected)
  | ended {expected : List String} (hs : s = src.endOfInput) (hc : c = .unexpected none expected)
  | unclosed {o : Token} {delimiter : Option String} {found : Option Found} (ho : o ∈ ts)
      (hopens : o.opens = true) (hs : s = src.endOfInput)
      (hc : c = .unclosed delimiter o.span found)
  | tooDeep {o : Token} {construct : String} (ho : o ∈ ts) (hopens : o.opens = true)
      (hs : s = o.span) (hc : c = (Diagnostic.tooDeep limit o.span construct).cause)
  | duplicate {t : Token} {i : Identifier} (ht : t ∈ ts) (hname : t.name? = some i.name)
      (hs : s = t.span) (hc : c = (Parse.duplicate i).cause)
  | misplaced {t : Token} (ht : t ∈ ts) (hword : t.isKeyword .define = true) (hs : s = t.span)
      (hc : c = (Parse.misplaced s).cause)
  | late {o u : Token} (ho : o ∈ ts) (hopens : o.opens = true) (hu : u ∈ ts)
      (hcloses : u.closes = true) (hs : s = o.span.join u.span) (hc : c = (Parse.late s).cause)

/-- The finding is of one of these kinds. -/
def Diagnostic.IsLocated (limit : Int) (src : Source) (ts : List Token) (d : Diagnostic) : Prop :=
  d.cause.Located limit src ts d.span

/-- Where the input ends too early, this is said at its end. -/
theorem Cause.Located.eq_endOfInput {expected : List String}
    (h : Located limit src ts s (.unexpected none expected)) : s = src.endOfInput := by
  cases h with
  | ended hs hc => exact hs
  | _ => rename_i hc; cases hc

theorem Diagnostic.exists_of_atEnd (h : d.atEnd = true) :
    ∃ expected, d.cause = .unexpected none expected := by
  unfold atEnd at h
  split at h
  · rename_i expected hc
    exact ⟨expected, hc⟩
  · cases h

/-- Wherever a parser of expanded tokens is, what it finds is of these kinds. -/
theorem Parse.ground_located (limit : Int) (hl : Lexed.ofSource src = .ok l) :
    Ground (Context.ofSource limit src) (WovenFrom l.tokens) (HeadedFrom l.tokens)
      (Diagnostic.IsLocated limit src l.tokens) where
  plain t us h ht := h.plain ht
  inside t us h ht := h.inside ht
  behind us h := h.drop_extent
  front us h := h.unwritten (Lexed.told limit hl)
  written t us h hhead := by
    have htold := Lexed.told limit hl
    exact htold.opening t h.mem (h.opens_of_headedFrom htold hhead)
  within d construct h := h
  atEnd d h hend := by
    obtain ⟨expected, hc⟩ := Diagnostic.exists_of_atEnd hend
    rw [Diagnostic.IsLocated, hc] at h
    exact h.eq_endOfInput
  surprise pos expected h _ := by
    rw [Parse.surprise]
    split
    · exact .ended rfl rfl
    · rename_i t us hrest
      rw [hrest] at h
      exact .token h.mem rfl rfl
  header p k o pos expected h hp hk ho hhead _ := by
    have hplain : k.opens = false ∧ k.closes = false := by
      obtain ⟨lexeme, span⟩ := k
      rcases hk with hk | hk <;> cases hk <;> exact ⟨rfl, rfl⟩
    obtain ⟨b, behind, more, hbehind, hb, hrest⟩ :=
      exists_of_headedFrom h (Lexed.told limit hl) hp hplain ho hhead
    rw [Parse.surprise, hrest]
    exact .formals ⟨p, k, o, b, behind, hbehind, hp, hk, ho, hb, rfl⟩ rfl rfl rfl
  tooDeep t us construct h ht := .tooDeep h.mem ht rfl rfl
  duplicate i hi := by
    obtain ⟨t, us, h, hname, hspan⟩ := hi
    exact .duplicate h.mem hname hspan.symm rfl
  misplaced t us h ht := .misplaced h.mem (beq_iff_eq.2 ht) rfl rfl
  late o us c vs ho hopens hc hcloses := .late ho.mem hopens hc.mem hcloses rfl rfl

/-! ## What is found in a source -/

section Found

variable {m : Diagnostic} {notes : List Diagnostic}

/-- The lexer finds stray characters. -/
theorem Lexed.isLocated_of_mem (limit : Int) (hl : ofSource src = .ok l) (hm : m ∈ l.diagnostics) :
    ∃ char, m.found? = some (.text (String.ofList [char])) ∧ src.excerpt m.span = [char] ∧
      m.IsLocated limit src l.tokens := by
  obtain ⟨ps, hps⟩ := src.exists_hasParts
  obtain ⟨before, char, behind, hp, rfl⟩ := (mem_diagnostics_iff hl hps).1 hm
  have htext : src.text = before ++ [char] ++ behind := by
    rw [← hps.text_eq, hp.flatMap_eq]
    rfl
  have hexcerpt : src.excerpt (strayChar src.path before.length char).span = [char] :=
    Source.excerpt_ofLength htext
  refine ⟨char, rfl, hexcerpt, .stray hexcerpt ?_ rfl⟩
  constructor
  · exact Int.natCast_nonneg _
  · show (before.length : Int) + 1 ≤ src.text.length
    rw [htext, List.length_append, List.length_append, List.length_singleton]
    omega

/-- The reader of data finds brackets. -/
theorem Datum.Reads.isLocated {ds : List Datum} (h : Reads limit src.endOfInput ts ds notes)
    (hm : m ∈ notes) : m.IsLocated limit src ts := by
  rcases h.cases_of_mem hm with ⟨t, ht, rfl⟩ | ⟨t, ht, rfl⟩ | ⟨t, ht, ho, rfl⟩
  · exact .token (of_mem_strays ht).1 rfl rfl
  · exact .unclosed (of_mem_unclosed? ht).1 (of_mem_unclosed? ht).2 rfl rfl
  · exact .tooDeep ht ho rfl rfl

/-- What a parser of expanded tokens finds, outside of forms as inside. -/
theorem Parse.Heard.isLocated {us : List Token} {os : List Outcome} {p : Program}
    (h : Heard (Context.ofSource limit src) (WovenFrom ts) (Diagnostic.IsLocated limit src ts) us
      os)
    (hmakes : Outcome.Makes src.endOfInput os p notes) (hm : m ∈ notes) :
    m.IsLocated limit src ts := by
  rw [hmakes.notes] at hm
  rcases List.mem_append.1 hm with hm | hm
  · obtain ⟨o, ho, hm⟩ := Outcome.exists_of_mem_findings hm
    obtain ⟨hlate, hnotes⟩ := h.of_mem ho
    rcases hm with hm | hm
    · rcases hnotes m hm with hm | ⟨t, vs, hC, ⟨ht, rfl⟩ | ⟨ht, construct, rfl⟩⟩
      · exact hm
      · exact .token hC.mem rfl rfl
      · exact .unclosed hC.mem ht rfl rfl
    · exact Outcome.of_mem_lateNotes hlate hm
  · split at hm
    · cases hm
    · rw [List.mem_singleton.1 hm]
      exact .ended rfl rfl

end Found

/-! ## Findings -/

namespace Cause

/-- How a message begins: this tells the findings with a text of their own from one another. -/
def beginning : Cause → List Char
  | remark (some message) => message.toList.take 13
  | _ => []

@[simp] theorem beginning_unexpected (found : Option Found) (expected : List String) :
    (unexpected found expected).beginning = [] := rfl

@[simp] theorem beginning_unclosed (delimiter : Option String) (opened : Span)
    (found : Option Found) : (unclosed delimiter opened found).beginning = [] := rfl

@[simp] theorem beginning_tooDeep (limit : Int) (s : Span) (construct : String) :
    (Diagnostic.tooDeep limit s construct).cause.beginning = "Nesting deepe".toList := by
  show ("Nesting deeper than " ++ toString limit ++ " levels").toList.take 13 = _
  simp

@[simp] theorem beginning_duplicate (i : Identifier) :
    (Parse.duplicate i).cause.beginning = "Duplicate par".toList := by
  simp [Parse.duplicate, Diagnostic.remark, beginning]

@[simp] theorem beginning_misplaced (s : Span) :
    (Parse.misplaced s).cause.beginning = "Definitions a".toList := rfl

@[simp] theorem beginning_late (s : Span) :
    (Parse.late s).cause.beginning = "Definitions m".toList := rfl

theorem name_eq_of_duplicate {i j : Identifier}
    (h : (Parse.duplicate i).cause = (Parse.duplicate j).cause) : i.name = j.name := by
  simpa [Parse.duplicate, Diagnostic.remark] using h

end Cause

/-- The finding shows the part of the source that it is about. -/
structure Diagnostic.PointsInto (limit : Int) (src : Source) (ts : List Token) (d : Diagnostic) :
    Prop where
  encloses : src.Encloses d.span
  text : ∀ shown expected, d.cause = .unexpected (some (.text shown)) expected →
    src.excerpt d.span = shown.toList
  /-- The token that was met is read from the source there, or it is the bracket that the name
  `begin` has become in a list of parameters or a header. -/
  token : ∀ t expected, d.cause = .unexpected (some (.token t)) expected → d.span = t.span ∧
    (src.Shows d.span t.lexeme ∨
      t.opens = true ∧ src.excerpt d.span = ['b'] ∧ BeginsFormals ts d.span)
  ended : ∀ expected, d.cause = .unexpected none expected → d.span = src.endOfInput
  unclosed : ∀ delimiter opened found, d.cause = .unclosed delimiter opened found →
    d.span = src.endOfInput ∧ src.Encloses opened ∧ src.excerpt opened = ['(']
  tooDeep : ∀ bracket construct, d.cause = (tooDeep limit bracket construct).cause →
    src.excerpt d.span = ['(']
  duplicate : ∀ i, d.cause = (Parse.duplicate i).cause → src.excerpt d.span = i.name.toList
  misplaced : ∀ s, d.cause = (Parse.misplaced s).cause →
    src.excerpt d.span = Keyword.define.text.toList
  /-- A definition that comes too late is shown from its first bracket to its last. -/
  late : ∀ s, d.cause = (Parse.late s).cause → ∃ o ∈ ts, ∃ c ∈ ts, o.opens = true ∧
    c.closes = true ∧ d.span = o.span.join c.span

theorem Diagnostic.IsLocated.encloses (hl : Lexed.ofSource src = .ok l)
    (h : d.IsLocated limit src l.tokens) : src.Encloses d.span := by
  cases h with
  | stray hexcerpt hin hc => exact hin
  | token ht hs hc => exact hs ▸ Lexed.encloses hl ht
  | formals ht ho hs hc =>
      obtain ⟨p, k, o, b, behind, hbehind, -, -, -, -, hspan⟩ := ht
      rw [hs, hspan]
      exact Lexed.encloses_first hl (hbehind.mem (by simp))
  | ended hs hc => exact hs ▸ src.encloses_endOfInput
  | unclosed ho hopens hs hc => exact hs ▸ src.encloses_endOfInput
  | tooDeep ho hopens hs hc => exact hs ▸ Lexed.encloses hl ho
  | duplicate ht hname hs hc => exact hs ▸ Lexed.encloses hl ht
  | misplaced ht hword hs hc => exact hs ▸ Lexed.encloses hl ht
  | late ho hopens hu hcloses hs hc =>
      exact hs ▸ (Lexed.encloses hl ho).join (Lexed.encloses hl hu)

theorem Diagnostic.IsLocated.pointsInto (hl : Lexed.ofSource src = .ok l)
    (h : d.IsLocated limit src l.tokens) : d.PointsInto limit src l.tokens where
  encloses := h.encloses hl
  text shown expected he := by
    cases h with
    | stray hexcerpt hin hc =>
        cases hc.symm.trans he
        rw [hexcerpt, String.toList_ofList]
    | _ => rename_i hc; cases hc.symm.trans he
  token t expected he := by
    cases h with
    | token ht hs hc =>
        cases hc.symm.trans he
        exact ⟨hs, .inl (hs ▸ Lexed.shows hl ht)⟩
    | formals ht ho hs hc =>
        cases hc.symm.trans he
        obtain ⟨p, k, o, b, behind, hbehind, -, -, -, hb, hspan⟩ := id ht
        refine ⟨hs, .inr ⟨ho, ?_, hs ▸ ht⟩⟩
        rw [hs, hspan]
        exact Lexed.excerpt_first hl (hbehind.mem (by simp)) hb
    | _ => rename_i hc; cases hc.symm.trans he
  ended expected he := by
    rw [IsLocated, he] at h
    exact h.eq_endOfInput
  unclosed delimiter opened found he := by
    cases h with
    | unclosed ho hopens hs hc =>
        cases hc.symm.trans he
        exact ⟨hs, Lexed.encloses hl ho, Lexed.excerpt_of_opens hl ho hopens⟩
    | _ => rename_i hc; cases hc.symm.trans he
  tooDeep bracket construct he := by
    have hb := congrArg Cause.beginning he
    cases h with
    | tooDeep ho hopens hs hc => exact hs ▸ Lexed.excerpt_of_opens hl ho hopens
    | _ => rename_i hc; simp [hc] at hb
  duplicate i he := by
    have hb := congrArg Cause.beginning he
    cases h with
    | duplicate ht hname hs hc =>
        rw [hs, Lexed.excerpt_of_name? hl ht hname, Cause.name_eq_of_duplicate (hc.symm.trans he)]
    | _ => rename_i hc; simp [hc] at hb
  misplaced s he := by
    have hb := congrArg Cause.beginning he
    cases h with
    | misplaced ht hword hs hc => exact hs ▸ Lexed.excerpt_of_isKeyword hl ht hword
    | _ => rename_i hc; simp [hc] at hb
  late s he := by
    have hb := congrArg Cause.beginning he
    cases h with
    | late ho hopens hu hcloses hs hc => exact ⟨_, ho, _, hu, hopens, hcloses, hs⟩
    | _ => rename_i hc; simp [hc] at hb

/-- All findings of the report show what they are about, those of the lexer a single character. -/
structure Report.PointsInto (limit : Int) (src : Source) (ts : List Token) (r : Report) : Prop where
  each : ∀ d ∈ r.diagnostics, d.PointsInto limit src ts
  lexical : r.stage = .lexical → ∀ d ∈ r.diagnostics, ∃ char,
    d.found? = some (.text (String.ofList [char])) ∧ src.excerpt d.span = [char]

theorem Report.pointsInto_of_of? {stage : Stage} {notes : List Diagnostic} {r : Report}
    (hl : Lexed.ofSource src = .ok l) (h : of? stage notes src = some r)
    (hnotes : ∀ d ∈ notes, d.IsLocated limit src l.tokens)
    (hlexical : stage = .lexical → notes = l.diagnostics) : r.PointsInto limit src l.tokens := by
  obtain ⟨rfl, rfl, -⟩ := Report.of?_eq_some h
  refine ⟨fun d hd => (hnotes d hd).pointsInto hl, ?_⟩
  intro hstage d hd
  rw [hlexical hstage] at hd
  obtain ⟨char, hfound, hexcerpt, -⟩ := Lexed.isLocated_of_mem limit hl hd
  exact ⟨char, hfound, hexcerpt⟩

/-! ## Calls -/

namespace Session

variable {s : Session}

/-- The stages behind the lexer, and what they find. -/
theorem exists_stages_located (hregistry : s.registry = builtin) (hl : Lexed.ofSource src = .ok l) :
    ∃ events x marks p found,
      Expansion.ofTokens s.registry s.limit src l.tokens = (events, .ok x) ∧
      x.registered = [] ∧ x.report? = Report.of? .syntactic marks src ∧
      Body.ofTokens s.limit src x.tokens = .ok (p, found) ∧
      (∀ m ∈ marks, m.IsLocated s.limit src l.tokens) ∧
      ∀ m ∈ found, m.IsLocated s.limit src l.tokens := by
  obtain ⟨r, events, x, h⟩ := Expansion.exists_rewrites s.limit hl
  have hwoven := woven_rewriteAll r.value
  rw [h.flatten_eq, ← h.tokens_eq] at hwoven
  obtain ⟨os, p, found, hp, hmakes, hheard⟩ :=
    Body.exists_ofTokens_heard (Parse.ground_located s.limit hl) h.ascending hwoven.wovenFrom
  refine ⟨events, x, r.notes, p, found, ?_, h.registered, h.report_eq, hp, ?_, ?_⟩
  · rw [hregistry]
    exact h.expanded
  · exact fun m hm => (Datum.reads_of_readFrom h.read).isLocated hm
  · exact fun m hm => hheard.isLocated hmakes hm

theorem pointsInto_of_lexed {r : Report} (hl : Lexed.ofSource src = .ok l)
    (hr : l.report? src = some r) : r.PointsInto limit src l.tokens := by
  refine Report.pointsInto_of_of? hl hr ?_ fun _ => rfl
  intro d hd
  obtain ⟨char, -, -, hlocated⟩ := Lexed.isLocated_of_mem limit hl hd
  exact hlocated

/-- A recovering call reports findings that show what they are about. -/
theorem pointsInto_of_parseLenient {p? : Option Program} {r : Report}
    (hregistry : s.registry = builtin) (hl : Lexed.ofSource src = .ok l)
    (h : answer (parseLenient src) s = .ok (p?, some r)) : r.PointsInto s.limit src l.tokens := by
  cases hreport : l.report? src with
  | some r' =>
      rw [answer_parseLenient_of_report hl hreport] at h
      cases h
      exact pointsInto_of_lexed hl hreport
  | none =>
      obtain ⟨events, x, marks, p, found, hx, hreg, hmarks, hp, hlocated, hlocated'⟩ :=
        exists_stages_located (s := s.withEvents
          (s.events ++ [.lexed src.path l.tokens.length l.diagnostics.length])) hregistry hl
      rw [answer_parseLenient_of_tokens hl hreport (answer_parseLenientTokens_of_ok hx hreg hp),
        hmarks] at h
      have hr : (Report.of? .syntactic found src).or (Report.of? .syntactic marks src) = some r :=
        congrArg Prod.snd (Except.ok.inj h)
      rcases Option.or_eq_some_iff.1 hr with hr | ⟨-, hr⟩
      · exact Report.pointsInto_of_of? hl hr hlocated' (by rintro ⟨⟩)
      · exact Report.pointsInto_of_of? hl hr hlocated (by rintro ⟨⟩)

/-- A strict call stops for findings that show what they are about. -/
theorem pointsInto_of_parseStrict {r : Report} (hregistry : s.registry = builtin)
    (hl : Lexed.ofSource src = .ok l) (h : answer (parseStrict src) s = .error (.report r)) :
    r.PointsInto s.limit src l.tokens := by
  rcases cases_of_answer_parseStrict hl h with ⟨r', hreport, hr⟩ | ⟨-, h⟩
  · cases hr
    exact pointsInto_of_lexed hl hreport
  · obtain ⟨events, x, marks, p, found, hx, hreg, hmarks, hp, hlocated, hlocated'⟩ :=
      exists_stages_located (s := s.withEvents
        (s.events ++ [.lexed src.path l.tokens.length l.diagnostics.length])) hregistry hl
    obtain ⟨r', hr', hr⟩ := report_of_answer_parseStrictTokens hx hreg hp h
    cases hr'
    rw [hmarks] at hr
    rcases hr with hr | hr
    · exact Report.pointsInto_of_of? hl hr hlocated (by rintro ⟨⟩)
    · exact Report.pointsInto_of_of? hl hr hlocated' (by rintro ⟨⟩)

/-- **Findings point at the source.** Whatever a session that only knows sequences reports about a
source, in a recovering call or in a strict one, each finding shows the part of the source that it
is about. -/
theorem findings_point (src : Source) (s : Session) (hregistry : s.registry = builtin) :
    (∀ p? r, answer (parseLenient src) s = .ok (p?, some r) →
      ∃ l, Lexed.ofSource src = .ok l ∧ r.PointsInto s.limit src l.tokens) ∧
    ∀ r, answer (parseStrict src) s = .error (.report r) →
      ∃ l, Lexed.ofSource src = .ok l ∧ r.PointsInto s.limit src l.tokens := by
  cases hl : Lexed.ofSource src with
  | ok l =>
      exact ⟨fun p? r h => ⟨l, rfl, pointsInto_of_parseLenient hregistry hl h⟩,
        fun r h => ⟨l, rfl, pointsInto_of_parseStrict hregistry hl h⟩⟩
  | error fault =>
      -- A number that cannot be read stops both calls, with no report.
      constructor
      · intro p? r h
        rw [answer, parseLenient, run_bind_of_error (run_lex_of_error hl s)] at h
        cases h
      · intro r h
        rw [answer, parseStrict, run_bind_of_error (run_lex_of_error hl s)] at h
        cases h

/-- A sequence in the place of parameters, a list that is too deep, and a bracket that closes
nothing. -/
theorem findings_point_begin :
    (Session.mk builtin 2 []).registry = builtin ∧ ∃ p? r,
      answer (parseLenient ⟨"a.scm", "(lambda (begin x) y) (f (g (h))) )".toList⟩)
        ⟨builtin, 2, []⟩ = .ok (p?, some r) ∧
      ∃ l, Lexed.ofSource ⟨"a.scm", "(lambda (begin x) y) (f (g (h))) )".toList⟩ = .ok l ∧
        r.PointsInto 2 ⟨"a.scm", "(lambda (begin x) y) (f (g (h))) )".toList⟩ l.tokens := by
  have hregistry : (Session.mk builtin 2 []).registry = builtin := rfl
  have hsome : ((answer (parseLenient ⟨"a.scm", "(lambda (begin x) y) (f (g (h))) )".toList⟩)
      ⟨builtin, 2, []⟩).toOption.bind Prod.snd).isSome = true := by
    decide +kernel
  have hpoint := (findings_point ⟨"a.scm", "(lambda (begin x) y) (f (g (h))) )".toList⟩
    ⟨builtin, 2, []⟩ hregistry).1
  generalize answer (parseLenient ⟨"a.scm", "(lambda (begin x) y) (f (g (h))) )".toList⟩)
    ⟨builtin, 2, []⟩ = x at hsome hpoint ⊢
  rcases x with stop | ⟨p?, - | r⟩
  · cases hsome
  · cases hsome
  · exact ⟨hregistry, p?, r, rfl, hpoint p? r rfl⟩

end Session

end SchemeFront
