import SchemeFront.Proofs.CommandLine.Switches
import SchemeFront.Proofs.Session.Agreement
import SchemeFront.Proofs.Session.Layout

set_option autoImplicit false

/-! # Exit codes

The command line uses recovering calls and looks at their reports. Its codes are nevertheless those
of the strict calls (`CommandLine.exit_codes`), because the same stages decide both
(`CommandLine.Stages`): a report on the tokens is shown whatever is asked for, and the parser cannot
hide a report on the data. So a text that is accepted as a program is accepted as data, and then as
tokens.
-/

namespace SchemeFront

open Session Token

/-! ## Strict stages -/

namespace Session

/-- The tokens of a source; stop if there are characters that belong to none. -/
def lexStrict (src : Source) : Call (List Token) := do
  let (tokens, report?) ← lex src
  strictly report?
  return tokens

/-- The data of tokens that stand in a source; stop if some are malformed. -/
def readStrict (src : Source) (ts : List Token) : Call (List Datum) := do
  let (data, report?) ← liftFault (Datum.ofTokens defaultLimit src ts)
  strictly report?
  return data

variable {src : Source} {s : Session} {l : Lexed} {ts : List Token} {data : List Datum}

/-- A value is given if there is no report. -/
theorem answer_strictly_bind_pure {α : Type} (report? : Option Report) (a b : α) (s : Session) :
    answer (strictly report? >>= fun _ => pure a) s = .ok b ↔ report? = none ∧ b = a := by
  cases report? with
  | none =>
      show (Except.ok a : Except Stop α) = .ok b ↔ _
      rw [Except.ok.injEq]
      simp [eq_comm]
  | some r =>
      rw [answer, run_bind_of_error (run_strictly_some r s)]
      simp

theorem answer_lexStrict (hl : Lexed.ofSource src = .ok l) (ts : List Token) :
    answer (lexStrict src) s = .ok ts ↔ l.report? src = none ∧ ts = l.tokens := by
  rw [answer, lexStrict, run_bind_of_ok (run_lex_of_ok hl s)]
  exact answer_strictly_bind_pure _ _ _ _

theorem answer_readStrict {report? : Option Report}
    (h : Datum.ofTokens defaultLimit src ts = .ok (data, report?)) (ds : List Datum) :
    answer (readStrict src ts) s = .ok ds ↔ report? = none ∧ ds = data := by
  rw [answer, readStrict, h, run_bind_of_ok (run_liftFault_ok _ s)]
  exact answer_strictly_bind_pure _ _ _ _

end Session

/-! ## What can be written -/

theorem Report.of?_eq_none_iff {stage : Stage} {notes : List Diagnostic} {src : Source} :
    Report.of? stage notes src = none ↔ notes = [] := by
  rw [Report.of?]
  split <;> simp_all

/-- The findings of a report can be written. -/
def Report.IsWritable (r : Report) : Prop := ∀ d ∈ r.diagnostics, d.isWritable = true

theorem Report.isWritable_of_of? {stage : Stage} {notes : List Diagnostic} {src : Source}
    {r : Report} (h : Report.of? stage notes src = some r)
    (hnotes : ∀ d ∈ notes, d.isWritable = true) : r.IsWritable := by
  obtain ⟨-, rfl, -⟩ := Report.of?_eq_some h
  exact hnotes

mutual

/-- A datum can be displayed if its tokens can be. -/
theorem Datum.isWritable_of_says (d : Datum) (h : d.Says Lexeme.Writable) :
    ∀ e ∈ d.subdata, e.isWritable = true := by
  cases d with
  | leaf l s =>
      have hl : l.isWritable = true := h ⟨l, s⟩ (by simp [flatten])
      simpa [subdata, isWritable] using hl
  | broken ts s => simp [subdata, isWritable]
  | list ds s =>
      have hds := (hereditary_of_keywords (fun _ => rfl) ds s).1 h
      rw [subdata, List.forall_mem_cons]
      exact ⟨rfl, Datum.areWritable_of_says ds hds⟩

theorem Datum.areWritable_of_says (ds : List Datum) (h : ∀ d ∈ ds, d.Says Lexeme.Writable) :
    ∀ e ∈ subdataAll ds, e.isWritable = true := by
  cases ds with
  | nil => simp [subdataAll]
  | cons d ds =>
      rw [List.forall_mem_cons] at h
      rw [subdataAll, List.forall_mem_append]
      exact ⟨Datum.isWritable_of_says d h.1, Datum.areWritable_of_says ds h.2⟩

end

/-! ## The name of a text -/

/-- The name of a text is not in what its tokens say. -/
theorem Lexed.lexemes_of_ofScanned {path path' : String} {items : List Scanned} {l l' : Lexed}
    (h : ofScanned path items = .ok l) (h' : ofScanned path' items = .ok l') :
    l.tokens.map Token.lexeme = l'.tokens.map Token.lexeme := by
  induction items generalizing l l' with
  | nil =>
      cases h
      cases h'
      rfl
  | cons i items ih =>
      cases i with
      | token start s =>
          obtain ⟨lexeme, more, hs, hmore, htokens, -⟩ := ofScanned_token_eq_ok h
          obtain ⟨lexeme', more', hs', hmore', htokens', -⟩ := ofScanned_token_eq_ok h'
          obtain rfl : lexeme = lexeme' := Except.ok.inj (hs.symm.trans hs')
          rw [htokens, htokens', List.map_cons, List.map_cons, ih hmore hmore']
      | stray start c =>
          obtain ⟨more, hmore, htokens, -⟩ := ofScanned_stray_eq_ok h
          obtain ⟨more', hmore', htokens', -⟩ := ofScanned_stray_eq_ok h'
          rw [htokens, htokens', ih hmore hmore']

/-- Tokens that say the same are expanded to tokens that are alike. -/
theorem Expansion.alike_of_rewrites {limit : Int} {src src' : Source} {l l' : Lexed}
    {r r' : Datum.Reading (List Datum)} {events events' : List Event} {x x' : Expansion}
    (hl : Lexed.ofSource src = .ok l) (hl' : Lexed.ofSource src' = .ok l')
    (hx : Rewrites limit src l.tokens r events x)
    (hx' : Rewrites limit src' l'.tokens r' events' x')
    (h : l.tokens.map Token.bare = l'.tokens.map Token.bare) :
    List.Forall₂ (Alike (Context.ofSource limit src) (Context.ofSource limit src'))
      x.tokens x'.tokens := by
  have hsame := Datum.same_readAll h hx.read hx'.read
  rw [hx.tokens_eq, hx'.tokens_eq, ← hx.flatten_eq, ← hx'.flatten_eq]
  exact Transformer.alike_rewriteAll r.value r'.value hsame.value
    (hx.flatten_eq ▸ Lexed.told limit hl) (hx'.flatten_eq ▸ Lexed.told limit hl')

namespace CommandLine

/-! ## Stages -/

/-- The reports of the stages: on the tokens, on the data, and on the expanded program. -/
structure Reports where
  lexical : Option Report
  data : Option Report
  syntactic : Option Report

/-- What the stages make of a source, in a session that is new. All of it can be written. -/
structure Stages (src : Source) (l : Lexed) (data : List Datum) (p : Program) (rs : Reports) :
    Prop where
  lexed : Lexed.ofSource src = .ok l
  lexical : l.report? src = rs.lexical
  read : Datum.ofTokens defaultLimit src l.tokens = .ok (data, rs.data)
  parsed : ∃ events x found,
    Expansion.ofTokens Transformer.builtin defaultLimit src l.tokens = (events, .ok x) ∧
      x.report? = rs.data ∧ Body.ofTokens defaultLimit src x.tokens = .ok (p, found) ∧
      Report.of? .syntactic found src = rs.syntactic
  tokens_writable : ∀ t ∈ l.tokens, t.lexeme.isWritable = true
  data_writable : ∀ d ∈ Datum.subdataAll data, d.isWritable = true
  program_writable : p.write (some src) = .ok (p.text (some src))
  reports_writable : (∀ r ∈ rs.lexical, r.IsWritable) ∧ (∀ r ∈ rs.data, r.IsWritable) ∧
    ∀ r ∈ rs.syntactic, r.IsWritable

variable {src src' : Source} {l l' : Lexed} {data data' : List Datum} {p p' : Program}
  {rs rs' : Reports}

/-- All stages are reached, unless there is a number of too many digits. -/
theorem exists_stages (h : ¬ src.IsOverlong) : ∃ l data p rs, Stages src l data p rs := by
  obtain ⟨l, hl, htokens, hdiagnostics⟩ := Lexed.exists_ofSource_eq_ok h
  obtain ⟨events, x, notes, p, found, hx, -, hreport, hp, hnotes, hfound, hmentions⟩ :=
    Session.exists_stages (s := {}) (fun r hr => List.mem_singleton.1 hr) hl htokens
  obtain ⟨r, hr, -⟩ := Datum.exists_readAll defaultLimit hl
  have hdata : Datum.ofTokens defaultLimit src l.tokens =
      .ok (r.value, Report.of? .syntactic r.notes src) := by
    rw [Datum.ofTokens, hr]
    rfl
  have hx? : x.report? = Report.of? .syntactic r.notes src := by
    rw [Expansion.report?_of_ofTokens hx, Datum.report?]
    exact congrArg (fun found => found.toOption.bind Prod.snd) hdata
  have hsays : ∀ d ∈ r.value, d.Says Lexeme.Writable :=
    Datum.hereditary_of_readFrom (Datum.hereditary_of_keywords fun _ => rfl)
      (Datum.grounded_of_lexemes htokens) hr
  have hlexical : ∀ report ∈ l.report? src, report.IsWritable := by
    intro report hlexical
    exact Report.isWritable_of_of? hlexical hdiagnostics
  have hread : ∀ report ∈ x.report?, report.IsWritable := by
    intro report hread
    rw [hreport] at hread
    exact Report.isWritable_of_of? hread fun d hd => Diagnostic.isWritable_of_mentions (hnotes d hd)
  have hsyntactic : ∀ report ∈ Report.of? .syntactic found src, report.IsWritable := by
    intro report hparsed
    exact Report.isWritable_of_of? hparsed fun d hd =>
      Diagnostic.isWritable_of_mentions (hfound d hd)
  exact ⟨l, r.value, p, ⟨l.report? src, x.report?, Report.of? .syntactic found src⟩, {
    lexed := hl
    lexical := rfl
    read := hdata.trans (by rw [← hx?])
    parsed := ⟨events, x, found, hx, rfl, hp, rfl⟩
    tokens_writable := htokens
    data_writable := Datum.areWritable_of_says r.value hsays
    program_writable := Body.write_of_mentions hmentions _
    reports_writable := ⟨hlexical, hread, hsyntactic⟩ }⟩

/-! ## What strict calls accept -/

/-- The strict calls up to what is asked for give an answer: for tokens, else for data, else for the
program. -/
def Accepts (src : Source) : (tokens data : Bool) → Prop
  | true, _ => ∃ ts, answer (lexStrict src) {} = .ok ts
  | false, true => ∃ ts ds, answer (lexStrict src) {} = .ok ts ∧
      answer (readStrict src ts) {} = .ok ds
  | false, false => ∃ p, answer (parseStrict src) {} = .ok p

/-- The report on what is asked for: for tokens, else for data, else for the program. -/
def Reports.shown (rs : Reports) : (tokens data : Bool) → Option Report
  | true, _ => rs.lexical
  | false, true => rs.lexical.or rs.data
  | false, false => rs.lexical.or (rs.syntactic.or rs.data)

theorem Reports.shown_of_lexical {rs : Reports} {r : Report} (h : rs.lexical = some r)
    (tokens data : Bool) : rs.shown tokens data = some r := by
  cases tokens <;> cases data <;> simp [shown, h]

theorem Stages.exists_parseStrict_iff (h : Stages src l data p rs) :
    (∃ q, answer (parseStrict src) {} = .ok q) ↔ rs.shown false false = none := by
  obtain ⟨events, x, found, hx, hdata, hp, hfound⟩ := h.parsed
  cases hlexical : rs.lexical with
  | some r =>
      rw [answer_parseStrict_of_report h.lexed (h.lexical.trans hlexical),
        Reports.shown_of_lexical hlexical]
      simp
  | none =>
      rw [answer_parseStrict_of_lexed h.lexed (h.lexical.trans hlexical)]
      cases hreport : rs.data with
      | some r =>
          -- The report on the data stops the call, and it is also shown, behind the parser's.
          rw [answer_parseStrictTokens_of_report (s := {}) hx (hdata.trans hreport)]
          simp [Reports.shown, hlexical, hreport]
      | none =>
          rw [answer_parseStrictTokens_of_expansion (s := {}) hx (hdata.trans hreport),
            show ({} : Session).limit = defaultLimit from rfl, hp]
          dsimp only
          rw [hfound]
          cases hsyntactic : rs.syntactic <;> simp [Reports.shown, hlexical, hreport, hsyntactic]

/-- The strict calls accept what the recovering ones have no report on. -/
theorem Stages.accepts_iff (h : Stages src l data p rs) (tokens data : Bool) :
    Accepts src tokens data ↔ rs.shown tokens data = none := by
  have hlex : ∀ ts, answer (lexStrict src) {} = .ok ts ↔ rs.lexical = none ∧ ts = l.tokens := by
    intro ts
    rw [answer_lexStrict h.lexed, h.lexical]
  cases tokens with
  | true => simp [Accepts, Reports.shown, hlex]
  | false =>
      cases data with
      | true =>
          simp only [Accepts, Reports.shown, hlex, Option.or_eq_none_iff]
          constructor
          · rintro ⟨ts, ds, ⟨hlexical, rfl⟩, hread⟩
            exact ⟨hlexical, ((answer_readStrict h.read ds).1 hread).1⟩
          · rintro ⟨hlexical, hdata⟩
            exact ⟨_, _, ⟨hlexical, rfl⟩, (answer_readStrict h.read _).2 ⟨hdata, rfl⟩⟩
      | false => exact h.exists_parseStrict_iff

/-! ## Under another name -/

/-- The reports of the later stages, by what they found. -/
theorem Stages.reports_of_rewrites {r : Datum.Reading (List Datum)} {events : List Event}
    {x : Expansion} (h : Stages src l data p rs)
    (hx : Expansion.Rewrites defaultLimit src l.tokens r events x) :
    rs.data = Report.of? .syntactic r.notes src ∧
      ∃ found, Body.ofTokens defaultLimit src x.tokens = .ok (p, found) ∧
        rs.syntactic = Report.of? .syntactic found src := by
  obtain ⟨events', x', found, hx', hdata, hp, hfound⟩ := h.parsed
  cases hx'.symm.trans hx.expanded
  exact ⟨hdata.symm.trans hx.report_eq, found, hp, hfound.symm⟩

/-- Under whatever name a text is read, the same stages have a report. -/
theorem Stages.eq_none_iff_of_text (h : Stages src l data p rs) (h' : Stages src' l' data' p' rs')
    (htext : src.text = src'.text) :
    (rs.lexical = none ↔ rs'.lexical = none) ∧ (rs.data = none ↔ rs'.data = none) ∧
      (rs.syntactic = none ↔ rs'.syntactic = none) := by
  have hscan : Lexed.ofScanned src'.path (Scanned.ofText src.text) = .ok l' := htext ▸ h'.lexed
  have hbare : l.tokens.map Token.bare = l'.tokens.map Token.bare := by
    have key := congrArg (List.map Lexeme.bare) (Lexed.lexemes_of_ofScanned h.lexed hscan)
    rwa [List.map_map, List.map_map] at key
  obtain ⟨r, events, x, hx⟩ := Expansion.exists_rewrites defaultLimit h.lexed
  obtain ⟨r', events', x', hx'⟩ := Expansion.exists_rewrites defaultLimit h'.lexed
  obtain ⟨hdata, found, hp, hfound⟩ := h.reports_of_rewrites hx
  obtain ⟨hdata', found', hp', hfound'⟩ := h'.reports_of_rewrites hx'
  refine ⟨?_, ?_, ?_⟩
  · rw [← h.lexical, ← h'.lexical, Lexed.report?, Lexed.report?, Report.of?_eq_none_iff,
      Report.of?_eq_none_iff, Lexed.diagnostics_ofScanned_eq_nil_iff h.lexed,
      Lexed.diagnostics_ofScanned_eq_nil_iff hscan]
  · have hsame := Datum.same_readAll hbare hx.read hx'.read
    rw [hdata, hdata', Report.of?_eq_none_iff, Report.of?_eq_none_iff, ← List.map_eq_nil_iff,
      hsame.notes, List.map_eq_nil_iff]
  · obtain ⟨q, q', notes, notes', hq, hq', -, hnotes⟩ :=
      Body.exists_ofTokens_of_alike hx.ascending.spanned hx'.ascending
        (Expansion.alike_of_rewrites h.lexed h'.lexed hx hx' hbare)
    cases hp.symm.trans hq
    cases hp'.symm.trans hq'
    rw [hfound, hfound', Report.of?_eq_none_iff, Report.of?_eq_none_iff, ← List.map_eq_nil_iff,
      hnotes, List.map_eq_nil_iff]

/-! ## Runs -/

theorem Stages.tokensText_eq (h : Stages src l data p rs) :
    tokensText l.tokens = .ok (Text.unlines (l.tokens.map tokenLine)) := by
  rw [tokensText, writeIf, if_pos (List.all_eq_true.2 h.tokens_writable)]

theorem Stages.dataText_eq (h : Stages src l data p rs) :
    dataText src data = .ok (Text.unlines (dataLines src 0 data)) := by
  rw [dataText, writeIf, if_pos (List.all_eq_true.2 h.data_writable)]

theorem Stages.answer_parseLenientTokens (h : Stages src l data p rs) (log : List Event) :
    answer (parseLenientTokens src l.tokens) (({} : Session).withEvents log) =
      .ok (p, rs.syntactic.or rs.data) := by
  obtain ⟨events, x, found, hx, hdata, hp, hfound⟩ := h.parsed
  rw [answer_parseLenientTokens_withEvents, answer_parseLenientTokens_of_expansion (s := {}) hx,
    show ({} : Session).limit = defaultLimit from rfl, hp]
  dsimp only
  rw [hfound, hdata]

/-- A run shows something, with the report on it. -/
theorem Stages.exists_display (h : Stages src l data p rs) (o : Options) :
    ∃ shown s, (o.display src).run {} = (.ok (shown, rs.shown o.tokens o.data), s) := by
  rw [Options.display, run_bind_of_ok (run_lex_of_ok h.lexed {}), h.lexical]
  dsimp only
  generalize ({} : Session).events ++ [.lexed src.path l.tokens.length l.diagnostics.length] = log
  by_cases htokens : (o.tokens || rs.lexical.isSome) = true
  · -- The tokens are shown, because they are asked for or because of the report on them.
    have hreport : rs.shown o.tokens o.data = rs.lexical := by
      cases hlexical : rs.lexical with
      | some r => exact Reports.shown_of_lexical hlexical _ _
      | none =>
          rw [hlexical, Option.isSome_none, Bool.or_false] at htokens
          rw [htokens, Reports.shown, hlexical]
    rw [if_pos htokens, h.tokensText_eq, hreport, run_bind_of_ok (run_liftFault_ok _ _)]
    exact ⟨_, _, rfl⟩
  · rw [Bool.or_eq_true, not_or, Bool.not_eq_true, Option.not_isSome_iff_eq_none] at htokens
    rw [if_neg (by simp [htokens]), htokens.1]
    cases hdata : o.data with
    | true =>
        rw [if_pos rfl, h.read, run_bind_of_ok (run_liftFault_ok _ _)]
        dsimp only
        rw [h.dataText_eq, run_bind_of_ok (run_liftFault_ok _ _), Reports.shown, htokens.2]
        exact ⟨_, _, rfl⟩
    | false =>
        obtain ⟨s, hrun⟩ := exists_run_of_answer (h.answer_parseLenientTokens log)
        rw [if_neg Bool.false_ne_true, run_bind_of_ok hrun]
        dsimp only
        rw [h.program_writable, run_bind_of_ok (run_liftFault_ok _ _), Reports.shown, htokens.2]
        exact ⟨_, _, rfl⟩

/-- What is shown of reports can be written. -/
theorem Stages.isWritable_of_shown (h : Stages src l data p rs) {tokens data : Bool} {r : Report}
    (hr : rs.shown tokens data = some r) : r.IsWritable := by
  obtain ⟨hlexical, hdata, hsyntactic⟩ := h.reports_writable
  cases tokens <;> cases data <;> simp only [Reports.shown, Option.or_eq_some_iff] at hr
  · rcases hr with hr | ⟨-, hr | ⟨-, hr⟩⟩
    · exact hlexical r hr
    · exact hsyntactic r hr
    · exact hdata r hr
  · rcases hr with hr | ⟨-, hr⟩
    · exact hlexical r hr
    · exact hdata r hr
  · exact hlexical r hr
  · exact hlexical r hr

/-- A run ends with one if there is a report, and else with zero. -/
theorem Stages.exists_process {o : Options} {text : List Char}
    (h : Stages ⟨o.file, text⟩ l data p rs) :
    ∃ e, o.process text = .ok e ∧
      e.code = if (rs.shown o.tokens o.data).isSome then 1 else 0 := by
  obtain ⟨shown, s, hdisplay⟩ := h.exists_display o
  obtain ⟨report, hreport⟩ : ∃ report,
      reportText (!o.plain) (rs.shown o.tokens o.data) = .ok report := by
    cases hr : rs.shown o.tokens o.data with
    | none => exact ⟨"", rfl⟩
    | some r =>
        have hwritable : ∀ d ∈ r.diagnostics, d.isWritable = true := h.isWritable_of_shown hr
        exact ⟨_, Report.write_of_forall hwritable⟩
  rw [Options.process, hdisplay]
  dsimp only
  rw [hreport]
  exact ⟨_, rfl, rfl⟩

/-! ## Exit codes -/

/-- The codes of the runs on a file with the given text: zero or one, and zero if and only if the
strict calls accept the text, under whatever name. How things are shown does not matter, and who
asks for no more than before gets no worse code. -/
structure ExitCodes (name : String) (file : File) (text : List Char) : Prop where
  ends : ∀ o : Options, o.file = name → ∃ e, o.finish file = .ok e ∧ (e.code = 0 ∨ e.code = 1)
  accepts : ∀ (o : Options) e, o.file = name → o.finish file = .ok e →
    ∀ path, e.code = 0 ↔ Accepts ⟨path, text⟩ o.tokens o.data
  /-- Neither colour nor the log changes the code. -/
  presented : ∀ (o o' : Options) e e', o.file = name → o'.file = name → o.finish file = .ok e →
    o'.finish file = .ok e' → o.tokens = o'.tokens → o.data = o'.data → e.code = e'.code
  /-- Success with the program gives success with the data, and that gives it with the tokens. -/
  consistent : ∀ (o o' : Options) e e', o.file = name → o'.file = name → o.finish file = .ok e →
    o'.finish file = .ok e' → (o.tokens = true → o'.tokens = true) →
    (o.data = true → o'.data = true ∨ o'.tokens = true) → e.code = 0 → e'.code = 0

variable {name : String} {file : File} {text : List Char}

/-- The code of a run is decided by the report on what is asked for. -/
theorem Stages.exists_finish (h : Stages ⟨name, text⟩ l data p rs)
    (hread : file.read name = .ok text) (o : Options) (ho : o.file = name) :
    ∃ e, o.finish file = .ok e ∧ (e.code = 0 ∨ e.code = 1) ∧
      (e.code = 0 ↔ rs.shown o.tokens o.data = none) := by
  subst ho
  obtain ⟨e, he, hcode⟩ := h.exists_process
  refine ⟨e, ?_, ?_⟩
  · rw [Options.finish, hread]
    exact he
  · rw [hcode]
    cases rs.shown o.tokens o.data <;> simp

/-- What is accepted does not depend on the name of the text. -/
theorem Stages.shown_eq_none_iff_of_text (h : Stages src l data p rs)
    (h' : Stages src' l' data' p' rs') (htext : src.text = src'.text) (tokens data : Bool) :
    rs.shown tokens data = none ↔ rs'.shown tokens data = none := by
  obtain ⟨hlexical, hdata, hsyntactic⟩ := h.eq_none_iff_of_text h' htext
  cases tokens <;> cases data <;>
    simp only [Reports.shown, Option.or_eq_none_iff, hlexical, hdata, hsyntactic]

/-- A report on less is also shown when more is asked for. -/
theorem Reports.shown_eq_none_of_le {tokens tokens' data data' : Bool}
    (ht : tokens = true → tokens' = true) (hd : data = true → data' = true ∨ tokens' = true)
    (h : rs.shown tokens data = none) : rs.shown tokens' data' = none := by
  cases tokens <;> cases data <;> cases tokens' <;> cases data' <;> simp_all [shown]

theorem exitCodes_of_read (hread : file.read name = .ok text)
    (hshort : ¬ (Source.mk name text).IsOverlong) : ExitCodes name file text := by
  obtain ⟨l, data, p, rs, h⟩ := exists_stages hshort
  have decided : ∀ (o : Options) e, o.file = name → o.finish file = .ok e →
      (e.code = 0 ∨ e.code = 1) ∧ (e.code = 0 ↔ rs.shown o.tokens o.data = none) := by
    intro o e ho he
    obtain ⟨e', he', hcode⟩ := h.exists_finish hread o ho
    cases he.symm.trans he'
    exact hcode
  refine ⟨?_, ?_, ?_, ?_⟩
  · intro o ho
    obtain ⟨e, he, hcode, -⟩ := h.exists_finish hread o ho
    exact ⟨e, he, hcode⟩
  · intro o e ho he path
    have hshort' : ¬ (Source.mk path text).IsOverlong := hshort
    obtain ⟨l', data', p', rs', h'⟩ := exists_stages hshort'
    rw [(decided o e ho he).2, h'.accepts_iff]
    exact h.shown_eq_none_iff_of_text h' rfl o.tokens o.data
  · intro o o' e e' ho ho' he he' ht hd
    obtain ⟨hcode, hzero⟩ := decided o e ho he
    obtain ⟨hcode', hzero'⟩ := decided o' e' ho' he'
    have hsame : e.code = 0 ↔ e'.code = 0 := by rw [hzero, hzero', ht, hd]
    omega
  · intro o o' e e' ho ho' he he' ht hd hcode
    rw [(decided o e ho he).2] at hcode
    rw [(decided o' e' ho' he').2]
    exact Reports.shown_eq_none_of_le ht hd hcode

/-- **Exit codes are consistent.** For a file that can be read and has no number of too many digits,
all runs end with zero or one, and with zero if and only if the strict calls accept the text: the
one for tokens, those for tokens and data, or the one for the program, depending on what is asked
for. So a text that is accepted as a program is accepted as data, and then as tokens, and neither
colour nor the log matters. Switches can be given in any order and spelling, around the name of the
file. -/
theorem exit_codes (hread : file.read name = .ok text)
    (hshort : ¬ (Source.mk name text).IsOverlong) :
    ExitCodes name file text ∧
    ∀ fs gs before behind, SpellOut fs before → SpellOut gs behind → IsFileName name →
      ∃ o e, start (before ++ name :: behind) = .ok o ∧ o.finish file = .ok e ∧
        (e.code = 0 ∨ e.code = 1) ∧ ∀ path, e.code = 0 ↔
          Accepts ⟨path, text⟩ (decide (.tokens ∈ fs ++ gs)) (decide (.data ∈ fs ++ gs)) := by
  have codes := exitCodes_of_read hread hshort
  refine ⟨codes, ?_⟩
  intro fs gs before behind hfs hgs hname
  obtain ⟨e, he, hcode⟩ := codes.ends (({ file := name } : Options).on (fs ++ gs)) rfl
  refine ⟨_, e, start_of_switches hfs hgs hname, he, hcode, ?_⟩
  intro path
  have key := codes.accepts _ e rfl he path
  simpa only [Options.on, Bool.false_or] using key

/-- A bracket too many is in the way of the data, but not of the tokens. -/
theorem exit_codes_bracket :
    ∃ file : File, file.read "a.scm" = .ok "(begin x))".toList ∧
      ¬ (Source.mk "a.scm" "(begin x))".toList).IsOverlong ∧
      (∃ o e, start ["-n", "a.scm", "--token"] = .ok o ∧ o.finish file = .ok e ∧ e.code = 0) ∧
      ∃ o e, start ["--debug", "-d", "a.scm"] = .ok o ∧ o.finish file = .ok e ∧ e.code = 1 := by
  have hread : (File.bytes ("(begin x))".toList.map Char.toNat)).read "a.scm" =
      .ok "(begin x))".toList := by
    decide +kernel
  have hshort : ¬ (Source.mk "a.scm" "(begin x))".toList).IsOverlong := by
    decide +kernel
  have hname : IsFileName "a.scm" := by
    unfold IsFileName
    decide +kernel
  have hplain : SpellOut [.plain] ["-n"] := by
    refine ⟨.cons (.inr ⟨'n', rfl, rfl⟩) .nil, ?_⟩
    simp [Flag.IsSwitch]
  have htokens : SpellOut [.tokens] ["--token"] := by
    refine ⟨.cons (.inl rfl) .nil, ?_⟩
    simp [Flag.IsSwitch]
  have hdata : SpellOut [.debug, .data] ["--debug", "-d"] := by
    refine ⟨.cons (.inl rfl) (.cons (.inr ⟨'d', rfl, rfl⟩) .nil), ?_⟩
    simp [Flag.IsSwitch]
  have hlexed : (answer (lexStrict ⟨"a.scm", "(begin x))".toList⟩) {}).toOption.isSome = true := by
    decide +kernel
  have hunread : ((answer (lexStrict ⟨"a.scm", "(begin x))".toList⟩) {}).toOption.bind fun ts =>
      (answer (readStrict ⟨"a.scm", "(begin x))".toList⟩ ts) {}).toOption).isSome = false := by
    decide +kernel
  obtain ⟨-, hcodes⟩ := exit_codes hread hshort
  refine ⟨_, hread, hshort, ?_, ?_⟩
  · obtain ⟨o, e, ho, he, -, hiff⟩ := hcodes _ _ _ _ hplain htokens hname
    refine ⟨o, e, ho, he, (hiff "a.scm").2 ?_⟩
    show ∃ ts, answer (lexStrict ⟨"a.scm", "(begin x))".toList⟩) {} = .ok ts
    cases hlex : answer (lexStrict ⟨"a.scm", "(begin x))".toList⟩) {} with
    | ok ts => exact ⟨ts, rfl⟩
    | error stop =>
        rw [hlex] at hlexed
        cases hlexed
  · obtain ⟨o, e, ho, he, hcode, hiff⟩ := hcodes _ _ _ _ hdata ⟨.nil, by simp⟩ hname
    refine ⟨o, e, ho, he, hcode.resolve_left ?_⟩
    intro hzero
    obtain ⟨ts, ds, hlex, hread⟩ := (hiff "a.scm").1 hzero
    rw [hlex] at hunread
    simp only [Except.toOption, Option.bind_some, hread] at hunread
    cases hunread

end CommandLine

end SchemeFront
