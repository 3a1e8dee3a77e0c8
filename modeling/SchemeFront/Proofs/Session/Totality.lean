import SchemeFront.Expr.Outline
import SchemeFront.Proofs.Datum.RoundTrip
import SchemeFront.Proofs.Lexer.Numeral
import SchemeFront.Proofs.Parse.Program
import SchemeFront.Proofs.Transformer.Sequence
import SchemeFront.Session

set_option autoImplicit false

/-! # Sessions that only know sequences

A session whose only rule is the one for sequences answers every source, unless a number in it
has too many digits: no stage gives a fault, and what is answered can be written
(`Session.parseLenient_total`). What the tokens of a source say can be written, and nothing else
is ever mentioned in a finding or a program.
-/

namespace SchemeFront

open Token

variable {P : Lexeme → Prop} {src : Source} {l : Lexed} {ts : List Token}

/-! ## Writing -/

/-- What the lexeme says can be written. -/
def Lexeme.Writable (l : Lexeme) : Prop := l.isWritable = true

/-- A finding can be written if the token it mentions can. -/
theorem Diagnostic.isWritable_of_mentions {d : Diagnostic} (h : d.Mentions Lexeme.Writable) :
    d.isWritable = true := by
  unfold Diagnostic.isWritable
  cases hf : d.found? with
  | none => rfl
  | some found =>
      cases found with
      | text shown => rfl
      | token t => exact h t hf

/-- A program can be written if its literals can. -/
theorem Body.write_of_mentions {p : Program} (h : p.Mentions Lexeme.Writable)
    (shown : Option Source) : p.write shown = .ok (p.text shown) := by
  have hall : p.nodes.all Node.isWritable = true := by
    rw [List.all_eq_true]
    intro n hn
    have hm := h n hn
    unfold Node.isWritable
    split
    · exact hm
    · rfl
  rw [Body.write, writeIf, if_pos hall]

/-- A report has findings, and it can be written if they can. -/
theorem Report.of?_eq_some {stage : Stage} {notes : List Diagnostic} {r : Report}
    (h : of? stage notes src = some r) :
    r.stage = stage ∧ r.diagnostics = notes ∧ r.diagnostics ≠ [] := by
  unfold of? at h
  split at h
  · cases h
  · rename_i hne
    cases h
    exact ⟨rfl, rfl, by simpa using hne⟩

theorem Report.write_of_forall {r : Report}
    (h : ∀ d ∈ r.diagnostics, d.isWritable = true) : r.write = .ok r.text := by
  rw [Report.write, writeIf, if_pos (List.all_eq_true.2 h)]

/-! ## Stages -/

/-- Tokens in order give a program. -/
theorem Body.exists_ofTokens_eq_ok (limit : Int) (src : Source) (h : Ascending ts)
    (hP : ∀ t ∈ ts, P t.lexeme) :
    ∃ p notes, Body.ofTokens limit src ts = .ok (p, notes) ∧ (∀ m ∈ notes, m.Mentions P) ∧
      p.Mentions P := by
  have hs : Supply P (ts.length + 1) ts := ⟨Nat.lt_succ_self _, h, hP⟩
  obtain ⟨p, trace, hdone, hnotes, hp⟩ :=
    Parse.exists_program_eq_done (Context.ofSource limit src) { rest := ts } hs rfl
  refine ⟨p, trace.notes, ?_, hnotes, hp⟩
  unfold Body.ofTokens
  rw [hdone]

/-- The tokens of a source lie between its ends. -/
theorem Lexed.between (hl : Lexed.ofSource src = .ok l) (hP : ∀ t ∈ l.tokens, P t.lexeme) :
    Between P 0 src.text.length l.tokens where
  bounds := by
    intro t ht
    obtain ⟨-, -, -, -, -, -, hlo, hhi, -⟩ := Lexed.exists_of_mem hl ht
    exact ⟨hlo, (Lexed.separate hl).nonempty t ht, hhi⟩
  holds := hP

/-- Rules that take the data of some tokens to others expand the tokens to those of the others. -/
theorem Expansion.exists_ofTokens_of_runAll {rules registered : List Transformer} {limit : Int}
    {r : Datum.Reading (List Datum)} {es : List Datum}
    (hr : Datum.readAll limit src.endOfInput ts = .ok r)
    (hes : (Transformer.runAll rules r.value).2 = .ok (es, registered)) :
    ∃ events, Expansion.ofTokens rules limit src ts = (events,
      .ok ⟨Datum.flattenAll es, registered, Report.of? .syntactic r.notes src⟩) := by
  refine ⟨(Transformer.runAll rules r.value).1, ?_⟩
  rw [Expansion.ofTokens, Datum.ofTokens, hr]
  simp only [bind, Except.bind, pure, Except.pure, hes]
  rfl

/-- The tokens of a source are expanded to tokens in order, if all rules are the one for
sequences. -/
theorem Expansion.exists_ofTokens_eq_ok {rules : List Transformer}
    (hrules : ∀ r ∈ rules, r = Transformer.sequence) (limit : Int)
    (hkey : ∀ k, P (.keyword k)) (hl : Lexed.ofSource src = .ok l)
    (hP : ∀ t ∈ l.tokens, P t.lexeme) :
    ∃ events x notes, Expansion.ofTokens rules limit src l.tokens = (events, .ok x) ∧
      x.registered = [] ∧ Ascending x.tokens ∧ Enclosing x.tokens ∧
      Between P 0 src.text.length x.tokens ∧ x.report? = Report.of? .syntactic notes src ∧
      ∀ m ∈ notes, m.Mentions P := by
  have hsep := Lexed.separate hl
  obtain ⟨r, hr, -, -, hnotes, hflat⟩ := Datum.readFrom_takes limit src.endOfInput 0
    (Nat.le_refl _) hsep.ascending (Lexed.restores hl)
    hP
  rw [List.map_id, List.map_id] at hflat
  -- The data flatten to the tokens of the source, which lie between its ends.
  obtain ⟨es, hes, hasc, henc, hwithin⟩ := Transformer.runAll_sequence hrules hkey
    (Int.natCast_nonneg _) (hflat ▸ Lexed.between hl hP) (by rw [hflat]; exact hsep.ordered)
  obtain ⟨events, hx⟩ := Expansion.exists_ofTokens_of_runAll hr hes
  exact ⟨events, _, r.notes, hx, rfl, hasc, henc, hwithin, rfl, hnotes⟩

/-! ## Calls -/

namespace Session

variable {α β : Type} {s s' : Session}

/-- A call goes on from a value, in the session that was reached. -/
theorem run_bind_of_ok {c : Call α} {f : α → Call β} {a : α} (h : c.run s = (.ok a, s')) :
    (c >>= f).run s = (f a).run s' := by
  show StateT.bind c.run (ExceptT.bindCont f) s = _
  simp only [StateT.bind, bind, h]
  rfl

/-- A call that has stopped does not go on. -/
theorem run_bind_of_error {c : Call α} {f : α → Call β} {stop : Stop}
    (h : c.run s = (.error stop, s')) : (c >>= f).run s = (.error stop, s') := by
  show StateT.bind c.run (ExceptT.bindCont f) s = _
  simp only [StateT.bind, bind, h]
  rfl

/-- The session with other events. -/
def withEvents (s : Session) (events : List Event) : Session := { s with events }

theorem run_get (s : Session) : (get : Call Session).run s = (.ok s, s) := rfl

theorem run_liftFault_ok (a : α) (s : Session) : (liftFault (.ok a)).run s = (.ok a, s) := rfl

theorem run_record (events : List Event) (s : Session) :
    (record events).run s = (.ok (), s.withEvents (s.events ++ events)) := rfl

/-- A source that can be read is lexed. -/
theorem run_lex_of_ok (hl : Lexed.ofSource src = .ok l) (s : Session) :
    (lex src).run s = (.ok (l.tokens, l.report? src), s.withEvents
      (s.events ++ [.lexed src.path l.tokens.length l.diagnostics.length])) := by
  rw [lex, hl, run_bind_of_ok (run_liftFault_ok l s), run_bind_of_ok (run_record _ s)]
  rfl

/-- A source that cannot be read stops a call. -/
theorem run_lex_of_error {fault : Fault} (hl : Lexed.ofSource src = .error fault)
    (s : Session) : (lex src).run s = (.error (.fault fault), s) := by
  rw [lex, hl]
  exact run_bind_of_error rfl

theorem run_expand_of_ok {events : List Event} {x : Expansion}
    (h : Expansion.ofTokens s.registry s.limit src ts = (events, .ok x)) :
    (expand src ts).run s = (.ok x, s.withEvents (s.events ++ events)) := by
  rw [expand, run_bind_of_ok (run_get s), h]
  dsimp only
  rw [run_bind_of_ok (run_record events s)]
  rfl

theorem run_enlist_nil (s : Session) : (enlist []).run s = (.ok (), s) := by
  show ((Except.ok (), { s with registry := s.registry ++ [] }) : Except Stop Unit × Session) = _
  rw [List.append_nil]

theorem run_programOf_of_ok {p : Program} {notes : List Diagnostic}
    (h : Body.ofTokens s.limit src ts = .ok (p, notes)) :
    (programOf src ts).run s = (.ok (p, notes), s.withEvents
      (s.events ++ [.parsed src.path p.defs.length p.exprs.length notes.length])) := by
  rw [programOf, run_bind_of_ok (run_get s), h, run_bind_of_ok (run_liftFault_ok (p, notes) s)]
  dsimp only
  rw [run_bind_of_ok (run_record _ s)]
  rfl

theorem run_strictly_some (r : Report) (s : Session) :
    (strictly (some r)).run s = (.error (.report r), s) := rfl

theorem run_strictly_none (s : Session) : (strictly none).run s = (.ok (), s) := rfl

/-! ## Answers -/

/-- What a call gives, or why it has stopped. -/
def answer (c : Call α) (s : Session) : Except Stop α := (c.run s).1

theorem exists_run_of_answer {c : Call α} {x : Except Stop α} (h : answer c s = x) :
    ∃ s', c.run s = (x, s') := by
  subst h
  exact ⟨(c.run s).2, rfl⟩

/-- All stages behind the lexer give an answer that can be written. -/
theorem exists_stages (hrules : ∀ r ∈ s.registry, r = Transformer.sequence)
    (hl : Lexed.ofSource src = .ok l) (hP : ∀ t ∈ l.tokens, t.lexeme.Writable) :
    ∃ events x notes p found,
      Expansion.ofTokens s.registry s.limit src l.tokens = (events, .ok x) ∧
      x.registered = [] ∧ x.report? = Report.of? .syntactic notes src ∧
      Body.ofTokens s.limit src x.tokens = .ok (p, found) ∧
      (∀ m ∈ notes, m.Mentions Lexeme.Writable) ∧ (∀ m ∈ found, m.Mentions Lexeme.Writable) ∧
      p.Mentions Lexeme.Writable := by
  obtain ⟨events, x, notes, hx, hreg, hasc, -, hwithin, hreport, hnotes⟩ :=
    Expansion.exists_ofTokens_eq_ok hrules s.limit (fun _ => rfl) hl hP
  obtain ⟨p, found, hp, hfound, hmentions⟩ :=
    Body.exists_ofTokens_eq_ok (P := Lexeme.Writable) s.limit src hasc hwithin.holds
  exact ⟨events, x, notes, p, found, hx, hreg, hreport, hp, hnotes, hfound, hmentions⟩

/-- A report of a parser: it has findings and can be written. -/
def IsProper (stage : Stage) (r : Report) : Prop :=
  r.stage = stage ∧ r.diagnostics ≠ [] ∧ r.write = .ok r.text

theorem isProper_of_of? {stage : Stage} {notes : List Diagnostic} {r : Report}
    (h : Report.of? stage notes src = some r) (hnotes : ∀ d ∈ notes, d.isWritable = true) :
    IsProper stage r := by
  obtain ⟨hstage, heq, hne⟩ := Report.of?_eq_some h
  exact ⟨hstage, hne, Report.write_of_forall (heq ▸ hnotes)⟩

/-- What a recovering call answers for tokens, when each stage does its part. -/
theorem answer_parseLenientTokens_of_ok {events : List Event} {x : Expansion} {p : Program}
    {found : List Diagnostic}
    (hx : Expansion.ofTokens s.registry s.limit src ts = (events, .ok x))
    (hreg : x.registered = []) (hp : Body.ofTokens s.limit src x.tokens = .ok (p, found)) :
    answer (parseLenientTokens src ts) s
      = .ok (p, (Report.of? .syntactic found src).or x.report?) := by
  have hprogram := run_programOf_of_ok (s := s.withEvents (s.events ++ events)) hp
  rw [answer, parseLenientTokens, run_bind_of_ok (run_expand_of_ok hx), hreg,
    run_bind_of_ok (run_enlist_nil _), run_bind_of_ok hprogram]
  rfl

/-- A source with stray characters is answered by the report on them. -/
theorem answer_parseLenient_of_report {r : Report} (hl : Lexed.ofSource src = .ok l)
    (hr : l.report? src = some r) : answer (parseLenient src) s = .ok (none, some r) := by
  rw [answer, parseLenient, run_bind_of_ok (run_lex_of_ok hl s), hr]
  rfl

/-- The answer for a source without stray characters is the one for its tokens. Until then the
lexer has recorded an event, and changed nothing else in the session. -/
theorem answer_parseLenient_of_tokens {p : Program} {report? : Option Report}
    (hl : Lexed.ofSource src = .ok l) (hnone : l.report? src = none)
    (h : answer (parseLenientTokens src l.tokens) (s.withEvents
      (s.events ++ [.lexed src.path l.tokens.length l.diagnostics.length])) = .ok (p, report?)) :
    answer (parseLenient src) s = .ok (some p, report?) := by
  obtain ⟨s', hrun⟩ := exists_run_of_answer h
  rw [answer, parseLenient, run_bind_of_ok (run_lex_of_ok hl s), hnone]
  dsimp only
  rw [run_bind_of_ok hrun]
  rfl

/-- The tokens of a source are parsed, with a report if there are findings. -/
theorem exists_answer_parseLenientTokens (hrules : ∀ r ∈ s.registry, r = Transformer.sequence)
    (hl : Lexed.ofSource src = .ok l) (hP : ∀ t ∈ l.tokens, t.lexeme.Writable) :
    ∃ p report?, answer (parseLenientTokens src l.tokens) s = .ok (p, report?) ∧
      (∀ r ∈ report?, IsProper .syntactic r) ∧ ∀ shown, p.write shown = .ok (p.text shown) := by
  obtain ⟨events, x, notes, p, found, hx, hreg, hreport, hp, hnotes, hfound, hmentions⟩ :=
    exists_stages hrules hl hP
  -- What the parser found comes before what the reader of data found.
  refine ⟨p, (Report.of? .syntactic found src).or x.report?,
    answer_parseLenientTokens_of_ok hx hreg hp, ?_, Body.write_of_mentions hmentions⟩
  intro r hr
  rw [Option.mem_def, Option.or_eq_some_iff] at hr
  rcases hr with hr | ⟨-, hr⟩
  · exact isProper_of_of? hr fun d hd => Diagnostic.isWritable_of_mentions (hfound d hd)
  · rw [hreport] at hr
    exact isProper_of_of? hr fun d hd => Diagnostic.isWritable_of_mentions (hnotes d hd)

/-- Where a strict call stops for tokens, when each stage does its part: behind the reader of data,
or behind the parser. -/
theorem report_of_answer_parseStrictTokens {events : List Event} {x : Expansion} {p : Program}
    {found : List Diagnostic}
    (hx : Expansion.ofTokens s.registry s.limit src ts = (events, .ok x))
    (hreg : x.registered = []) (hp : Body.ofTokens s.limit src x.tokens = .ok (p, found))
    {stop : Stop} (h : answer (parseStrictTokens src ts) s = .error stop) :
    ∃ r, stop = .report r ∧ (x.report? = some r ∨ Report.of? .syntactic found src = some r) := by
  have hprogram := run_programOf_of_ok (s := s.withEvents (s.events ++ events)) hp
  rw [answer, parseStrictTokens, run_bind_of_ok (run_expand_of_ok hx)] at h
  cases hdata : x.report? with
  | some r =>
      rw [hdata, run_bind_of_error (run_strictly_some r _)] at h
      cases h
      exact ⟨r, rfl, .inl rfl⟩
  | none =>
      rw [hdata, run_bind_of_ok (run_strictly_none _), hreg, run_bind_of_ok (run_enlist_nil _),
        run_bind_of_ok hprogram] at h
      dsimp only at h
      cases hparsed : Report.of? .syntactic found src with
      | some r =>
          rw [hparsed, run_bind_of_error (run_strictly_some r _)] at h
          cases h
          exact ⟨r, rfl, .inr rfl⟩
      | none =>
          rw [hparsed, run_bind_of_ok (run_strictly_none _)] at h
          cases h

/-- Where a strict call stops for the tokens of a source, there are findings about them. -/
theorem answer_parseStrictTokens (hrules : ∀ r ∈ s.registry, r = Transformer.sequence)
    (hl : Lexed.ofSource src = .ok l) (hP : ∀ t ∈ l.tokens, t.lexeme.Writable) {stop : Stop}
    (h : answer (parseStrictTokens src l.tokens) s = .error stop) :
    ∃ r, stop = .report r ∧ IsProper .syntactic r := by
  obtain ⟨events, x, notes, p, found, hx, hreg, hreport, hp, hnotes, hfound, hmentions⟩ :=
    exists_stages hrules hl hP
  obtain ⟨r, rfl, hr⟩ := report_of_answer_parseStrictTokens hx hreg hp h
  refine ⟨r, rfl, ?_⟩
  rcases hr with hr | hr
  · rw [hreport] at hr
    exact isProper_of_of? hr fun d hd => Diagnostic.isWritable_of_mentions (hnotes d hd)
  · exact isProper_of_of? hr fun d hd => Diagnostic.isWritable_of_mentions (hfound d hd)

/-- A strict call stops at a report on stray characters, or else for the tokens. -/
theorem cases_of_answer_parseStrict (hl : Lexed.ofSource src = .ok l) {stop : Stop}
    (h : answer (parseStrict src) s = .error stop) :
    (∃ r, l.report? src = some r ∧ stop = .report r) ∨
      l.report? src = none ∧ answer (parseStrictTokens src l.tokens) (s.withEvents
        (s.events ++ [.lexed src.path l.tokens.length l.diagnostics.length])) = .error stop := by
  rw [answer, parseStrict, run_bind_of_ok (run_lex_of_ok hl s)] at h
  dsimp only at h
  cases hreport : l.report? src with
  | some r =>
      rw [hreport, run_bind_of_error (run_strictly_some r _)] at h
      cases h
      exact .inl ⟨r, rfl, rfl⟩
  | none =>
      rw [hreport, run_bind_of_ok (run_strictly_none _)] at h
      exact .inr ⟨rfl, h⟩

/-! ## Totality -/

/-- A source without stray characters gives no report on them, and one with them does. -/
theorem report?_of_hasStray (hl : Lexed.ofSource src = .ok l)
    (hwritable : ∀ d ∈ l.diagnostics, d.isWritable = true) :
    (src.HasStray → ∃ r, l.report? src = some r ∧ IsProper .lexical r) ∧
      (¬ src.HasStray → l.report? src = none) := by
  have hiff := Lexed.diagnostics_ofScanned_eq_nil_iff hl
  constructor
  · intro hstray
    have hne : l.diagnostics ≠ [] := fun hnil => hiff.1 hnil hstray
    have hreport : l.report? src
        = some { stage := .lexical, diagnostics := l.diagnostics, source := src } := by
      rw [Lexed.report?, Report.of?, if_neg (by simpa using hne)]
    exact ⟨_, hreport, isProper_of_of? hreport hwritable⟩
  · intro hnone
    rw [Lexed.report?, Report.of?, hiff.2 hnone]
    rfl

/-- A source with a number of too many digits stops every call. -/
theorem answer_of_isOverlong (s : Session) (h : src.IsOverlong)
    (f : List Token × Option Report → Call α) :
    ∃ n, digitLimit < n ∧ answer (lex src >>= f) s = .error (.fault (.tooManyDigits n)) := by
  obtain ⟨n, hn, herror⟩ := Lexed.exists_ofSource_eq_error h
  refine ⟨n, hn, ?_⟩
  rw [answer, run_bind_of_error (run_lex_of_error herror s)]

/-- Any other source is answered: with a report on its stray characters, or with a program and
perhaps a report. -/
theorem exists_answer_parseLenient (hrules : ∀ r ∈ s.registry, r = Transformer.sequence)
    (h : ¬ src.IsOverlong) :
    (src.HasStray → ∃ r, answer (parseLenient src) s = .ok (none, some r) ∧ IsProper .lexical r) ∧
      (¬ src.HasStray → ∃ p report?, answer (parseLenient src) s = .ok (some p, report?) ∧
        (∀ r ∈ report?, IsProper .syntactic r) ∧
        ∀ shown, p.write shown = .ok (p.text shown)) := by
  obtain ⟨l, hl, htokens, hdiagnostics⟩ := Lexed.exists_ofSource_eq_ok h
  obtain ⟨hstray, hnone⟩ := report?_of_hasStray hl hdiagnostics
  constructor
  · intro hs
    obtain ⟨r, hr, hproper⟩ := hstray hs
    exact ⟨r, answer_parseLenient_of_report hl hr, hproper⟩
  · intro hs
    obtain ⟨p, report?, hanswer, hreport, hwrite⟩ := exists_answer_parseLenientTokens
      (s := s.withEvents (s.events ++ [.lexed src.path l.tokens.length l.diagnostics.length]))
      hrules hl htokens
    exact ⟨p, report?, answer_parseLenient_of_tokens hl (hnone hs) hanswer, hreport, hwrite⟩

/-- Where a strict call stops for such a source, there are findings about it. -/
theorem answer_parseStrict (hrules : ∀ r ∈ s.registry, r = Transformer.sequence)
    (h : ¬ src.IsOverlong) {stop : Stop} (hstop : answer (parseStrict src) s = .error stop) :
    ∃ r, stop = .report r ∧ (IsProper .lexical r ∨ IsProper .syntactic r) := by
  obtain ⟨l, hl, htokens, hdiagnostics⟩ := Lexed.exists_ofSource_eq_ok h
  obtain ⟨hstray, hnone⟩ := report?_of_hasStray hl hdiagnostics
  rcases cases_of_answer_parseStrict hl hstop with ⟨r, hr, rfl⟩ | ⟨-, hstop⟩
  · refine ⟨r, rfl, .inl ?_⟩
    by_cases hs : src.HasStray
    · obtain ⟨r', hr', hproper⟩ := hstray hs
      rw [hr] at hr'
      cases hr'
      exact hproper
    · rw [hnone hs] at hr
      cases hr
  · obtain ⟨r, hr, hproper⟩ := answer_parseStrictTokens (by exact hrules) hl htokens hstop
    exact ⟨r, hr, .inr hproper⟩

/-- **Totality.** A session that only knows sequences stops for no source but one with a number of
too many digits. For any other it answers with a report on stray characters, or with a program and
perhaps a report on it, all of which can be written. A strict call stops for findings, or for such
a number. -/
theorem parseLenient_total (src : Source) (s : Session)
    (hrules : ∀ r ∈ s.registry, r = Transformer.sequence) :
    ((∃ stop, answer (parseLenient src) s = .error stop) ↔ src.IsOverlong) ∧
    (∀ stop, answer (parseLenient src) s = .error stop →
      ∃ n, digitLimit < n ∧ stop = .fault (.tooManyDigits n)) ∧
    (¬ src.IsOverlong → src.HasStray →
      ∃ r, answer (parseLenient src) s = .ok (none, some r) ∧ IsProper .lexical r) ∧
    (¬ src.IsOverlong → ¬ src.HasStray →
      ∃ p report?, answer (parseLenient src) s = .ok (some p, report?) ∧
        (∀ r ∈ report?, IsProper .syntactic r) ∧ ∀ shown, p.write shown = .ok (p.text shown)) ∧
    (∀ stop, answer (parseStrict src) s = .error stop →
      (∃ r, stop = .report r ∧ (IsProper .lexical r ∨ IsProper .syntactic r)) ∨
        ∃ n, digitLimit < n ∧ stop = .fault (.tooManyDigits n)) := by
  by_cases h : src.IsOverlong
  · obtain ⟨n, hn, hlenient⟩ := answer_of_isOverlong s h _
    obtain ⟨n', hn', hstrict⟩ := answer_of_isOverlong s h _
    refine ⟨⟨fun _ => h, fun _ => ⟨_, hlenient⟩⟩, ?_, fun hnot => absurd h hnot,
      fun hnot => absurd h hnot, ?_⟩
    · intro stop hstop
      exact ⟨n, hn, (Except.error.inj (hlenient.symm.trans hstop)).symm⟩
    · intro stop hstop
      exact .inr ⟨n', hn', (Except.error.inj (hstrict.symm.trans hstop)).symm⟩
  · obtain ⟨hstray, hnone⟩ := exists_answer_parseLenient hrules h
    have hanswered : ∀ stop, answer (parseLenient src) s ≠ .error stop := by
      intro stop hstop
      by_cases hs : src.HasStray
      · obtain ⟨r, hr, -⟩ := hstray hs
        rw [hr] at hstop
        cases hstop
      · obtain ⟨p, report?, hp, -⟩ := hnone hs
        rw [hp] at hstop
        cases hstop
    refine ⟨⟨?_, fun hlong => absurd hlong h⟩, ?_, fun _ => hstray, fun _ => hnone, ?_⟩
    · rintro ⟨stop, hstop⟩
      exact absurd hstop (hanswered stop)
    · intro stop hstop
      exact absurd hstop (hanswered stop)
    · intro stop hstop
      exact .inl (answer_parseStrict hrules h hstop)

/-- Two rules for sequences, no nesting allowed at all, a bracket too many and one too few. -/
theorem parseLenient_total_brackets :
    (∀ r ∈ [Transformer.sequence, Transformer.sequence], r = Transformer.sequence) ∧
    (¬ (Source.mk "a.scm" "(begin (begin x 1.5) y)) (z".toList).IsOverlong ∧
      ¬ (Source.mk "a.scm" "(begin (begin x 1.5) y)) (z".toList).HasStray) ∧
    ∃ p report?,
      answer (parseLenient ⟨"a.scm", "(begin (begin x 1.5) y)) (z".toList⟩)
        ⟨[Transformer.sequence, Transformer.sequence], -1, []⟩ = .ok (some p, report?) ∧
      (∀ r ∈ report?, IsProper .syntactic r) ∧ ∀ shown, p.write shown = .ok (p.text shown) := by
  have hrules : ∀ r ∈ [Transformer.sequence, Transformer.sequence], r = Transformer.sequence := by
    simp
  have hlong : ¬ (Source.mk "a.scm" "(begin (begin x 1.5) y)) (z".toList).IsOverlong := by
    decide +kernel
  have hstray : ¬ (Source.mk "a.scm" "(begin (begin x 1.5) y)) (z".toList).HasStray := by
    decide +kernel
  exact ⟨hrules, ⟨hlong, hstray⟩,
    (parseLenient_total _ ⟨[Transformer.sequence, Transformer.sequence], -1, []⟩ hrules).2.2.2.1
      hlong hstray⟩

end Session

end SchemeFront
