import SchemeFront.Proofs.Session.Calls

set_option autoImplicit false

/-! # The registry over a history of calls

Rules are registered one by one or learned by the calls that parse. A call uses the rules that are
there when it begins, in their order and each once (`Transformer.Uses`); what its expansion
registers is added behind them when the expansion is over, and has no influence on the call itself
(`Session.silenced`). A call that stops before that adds nothing. `Session.Effect` says which call
adds what, and `Session.registry_grows` says it of a call behind any history of calls.
-/

namespace SchemeFront

/-! ## Rules in use -/

namespace Transformer

/-- Rules used in order, each over all that the one before it has left: the rules, the data, the
rules that were begun, and the outcome with all that was registered. A fault ends the use. -/
inductive Uses : List Transformer → List Datum → List Transformer →
    Except Fault (List Datum × List Transformer) → Prop
  | nil (ds : List Datum) : Uses [] ds [] (.ok (ds, []))
  | fault {rule : Transformer} {rules : List Transformer} {ds : List Datum} {fault : Fault} :
      expandAll rule ds = .error fault → Uses (rule :: rules) ds [rule] (.error fault)
  | cons {rule : Transformer} {rules used early : List Transformer} {ds es : List Datum}
      {result : Except Fault (List Datum × List Transformer)} :
      expandAll rule ds = .ok (es, early) → Uses rules es used result →
      Uses (rule :: rules) ds (rule :: used)
        (result.map fun (data, late) => (data, early ++ late))

variable {rules used : List Transformer} {ds : List Datum}
  {result : Except Fault (List Datum × List Transformer)}

/-- No other rules are used, and they are used from the first one on. -/
theorem Uses.used_first (h : Uses rules ds used result) : used <+: rules := by
  induction h with
  | nil ds => exact List.prefix_rfl
  | fault h => exact ⟨_, rfl⟩
  | cons h _ ih => exact List.cons_prefix_cons.2 ⟨rfl, ih⟩

/-- Without a fault all rules are used. -/
theorem Uses.used_eq {data : List Datum × List Transformer} (h : Uses rules ds used result)
    (hok : result = .ok data) : used = rules := by
  induction h generalizing data with
  | nil ds => rfl
  | fault h => cases hok
  | @cons rule rules used early ds es result h _ ih =>
      cases result with
      | error fault => cases hok
      | ok found => rw [ih rfl]

/-- Running rules is using them in order, with an event for each. -/
theorem exists_uses_runAll (rules : List Transformer) (ds : List Datum) :
    ∃ used, Uses rules ds used (runAll rules ds).2 ∧
      (runAll rules ds).1 = used.map fun rule => .applying rule.name := by
  induction rules generalizing ds with
  | nil => exact ⟨[], .nil ds, rfl⟩
  | cons rule rules ih =>
      rw [runAll]
      cases h : expandAll rule ds with
      | error fault => exact ⟨[rule], .fault h, rfl⟩
      | ok found =>
          obtain ⟨used, huses, hevents⟩ := ih found.1
          exact ⟨rule :: used, .cons h huses, congrArg _ hevents⟩

/-! ## Rules that register nothing -/

/-- The rule with the same expansions that registers nothing. -/
def silent (rule : Transformer) : Transformer :=
  ⟨rule.name, fun d => (rule.transform d).map fun (e, _) => (e, [])⟩

mutual

/-- A silent rule gives the same data. -/
theorem expand_silent (rule : Transformer) (d : Datum) :
    expand rule.silent d = (expand rule d).map fun (e, _) => (e, []) := by
  cases d with
  | leaf l s => rfl
  | broken ts s => rfl
  | list ds s =>
      rw [expand, expand, expandAll_silent rule ds]
      cases expandAll rule ds with
      | error fault => rfl
      | ok found =>
          simp only [Except.map, bind, Except.bind, silent]
          cases rule.transform (.list found.1 s) <;> rfl

theorem expandAll_silent (rule : Transformer) (ds : List Datum) :
    expandAll rule.silent ds = (expandAll rule ds).map fun (es, _) => (es, []) := by
  cases ds with
  | nil => rfl
  | cons d ds =>
      rw [expandAll, expandAll, expand_silent rule d, expandAll_silent rule ds]
      cases expand rule d with
      | error fault => rfl
      | ok found => cases expandAll rule ds <;> rfl

end

/-- Silent rules give the same data. -/
theorem runAll_silent (rules : List Transformer) (ds : List Datum) :
    (runAll (rules.map silent) ds).2 = (runAll rules ds).2.map fun (es, _) => (es, []) := by
  induction rules generalizing ds with
  | nil => rfl
  | cons rule rules ih =>
      rw [List.map_cons, runAll, runAll, expandAll_silent]
      cases expandAll rule ds with
      | error fault => rfl
      | ok found =>
          simp only [Except.map, ih]
          cases (runAll rules found.1).2 <;> rfl

end Transformer

/-- Silent rules give the same tokens and the same report. -/
theorem Expansion.ofTokens_silent (rules : List Transformer) (limit : Int) (src : Source)
    (ts : List Token) :
    (ofTokens (rules.map Transformer.silent) limit src ts).2 =
      (ofTokens rules limit src ts).2.map fun x => { x with registered := [] } := by
  rw [ofTokens, ofTokens]
  cases Datum.ofTokens limit src ts with
  | error fault => rfl
  | ok found =>
      simp only [Transformer.runAll_silent]
      cases (Transformer.runAll rules found.1).2 <;> rfl

namespace Session

/-! ## Histories -/

/-- Whether a call stops at findings or goes on. -/
inductive Mode where
  | strict
  | lenient

/-- What is done with a session. -/
inductive Step where
  | register (t : Transformer)
  | text (mode : Mode) (src : Source)
  | tokens (mode : Mode) (src : Source) (ts : List Token)

/-- What a call gives: a program, if it comes to one, and a report. -/
abbrev Answer := Option Program × Option Report

/-- The call that a step is. -/
def Step.call : Step → Call Answer
  | register t => (fun _ => (none, none)) <$> Session.register t
  | text .strict src => (fun p => (some p, none)) <$> parseStrict src
  | text .lenient src => parseLenient src
  | tokens .strict src ts => (fun p => (some p, none)) <$> parseStrictTokens src ts
  | tokens .lenient src ts => (fun a => (some a.1, a.2)) <$> parseLenientTokens src ts

/-- The session behind a step. -/
def perform (s : Session) (step : Step) : Session := (step.call.run s).2

/-- The session behind some steps. -/
def performAll (s : Session) (steps : List Step) : Session := steps.foldl perform s

/-- The rules that have been used, by name and in order. -/
def applied (s : Session) : List String :=
  s.events.filterMap fun
    | .applying name => some name
    | _ => none

/-- The session whose rules register nothing. -/
def silenced (s : Session) : Session := { s with registry := s.registry.map Transformer.silent }

/-! ## What a step does -/

/-- What a call gives for a text with stray characters. -/
def Mode.stray : Mode → Report → Except Stop Answer
  | strict, r => .error (.report r)
  | lenient, r => .ok (none, some r)

/-- What a step does with the rules and the limit it begins with: its answer, the rules it uses
and the rules it adds. -/
inductive Effect (rules : List Transformer) (limit : Int) :
    Step → Except Stop Answer → List Transformer → List Transformer → Prop
  /-- A rule is added. -/
  | register (t : Transformer) : Effect rules limit (.register t) (.ok (none, none)) [] [t]
  /-- A text that cannot be read adds nothing. -/
  | unreadable {mode : Mode} {src : Source} {fault : Fault} :
      Lexed.ofSource src = .error fault →
      Effect rules limit (.text mode src) (.error (.fault fault)) [] []
  /-- A text with stray characters adds nothing. -/
  | stray {mode : Mode} {src : Source} {l : Lexed} {r : Report} :
      Lexed.ofSource src = .ok l → l.report? src = some r →
      Effect rules limit (.text mode src) (mode.stray r) [] []
  /-- Any other text is used as its tokens are. -/
  | lexed {mode : Mode} {src : Source} {l : Lexed} {answer : Except Stop Answer}
      {used new : List Transformer} :
      Lexed.ofSource src = .ok l → l.report? src = none →
      Effect rules limit (.tokens mode src l.tokens) answer used new →
      Effect rules limit (.text mode src) answer used new
  /-- Tokens that cannot be read as data add nothing. -/
  | unread {mode : Mode} {src : Source} {ts : List Token} {fault : Fault} :
      Datum.ofTokens limit src ts = .error fault →
      Effect rules limit (.tokens mode src ts) (.error (.fault fault)) [] []
  /-- A fault of a rule adds nothing, whatever was registered before it. -/
  | faulty {mode : Mode} {src : Source} {ts : List Token} {data : List Datum}
      {report? : Option Report} {used : List Transformer} {fault : Fault} :
      Datum.ofTokens limit src ts = .ok (data, report?) →
      Transformer.Uses rules data used (.error fault) →
      Effect rules limit (.tokens mode src ts) (.error (.fault fault)) used []
  /-- Malformed data stop a strict call behind the expansion, and add nothing. -/
  | malformed {src : Source} {ts : List Token} {data es : List Datum} {r : Report}
      {new : List Transformer} :
      Datum.ofTokens limit src ts = .ok (data, some r) →
      Transformer.Uses rules data rules (.ok (es, new)) →
      Effect rules limit (.tokens .strict src ts) (.error (.report r)) rules []
  /-- In all other cases what was registered is added, whatever the answer is. -/
  | learned {mode : Mode} {src : Source} {ts : List Token} {data es : List Datum}
      {report? : Option Report} {new : List Transformer} (answer : Except Stop Answer) :
      Datum.ofTokens limit src ts = .ok (data, report?) →
      (mode = .strict → report? = none) →
      Transformer.Uses rules data rules (.ok (es, new)) →
      Effect rules limit (.tokens mode src ts) answer rules new

/-- How a step acts on the registry: it uses the rules `used` and adds the rules `new`. -/
structure Acts (s : Session) (step : Step) (used new : List Transformer) : Prop where
  /-- The two lists are the ones for the rules that are there when the step begins. -/
  effect : Effect s.registry s.limit step (answer step.call s) used new
  used_first : used <+: s.registry
  applied_eq : (s.perform step).applied = s.applied ++ used.map Transformer.name
  registry_eq : (s.perform step).registry = s.registry ++ new
  limit_eq : (s.perform step).limit = s.limit
  /-- What is registered on the way has no influence on the answer. -/
  answer_silenced : answer step.call s.silenced = answer step.call s

/-- What is added to the registry by steps one after the other. -/
inductive Learns : Session → List Step → List Transformer → Prop
  | nil (s : Session) : Learns s [] []
  | cons {s : Session} {step : Step} {steps : List Step} {used new more : List Transformer} :
      s.Acts step used new → Learns (s.perform step) steps more →
      Learns s (step :: steps) (new ++ more)

/-! ## Steps -/

variable {α β : Type} {s s' s'' : Session} {src : Source} {ts : List Token}

theorem run_map (f : α → β) (c : Call α) (s : Session) :
    (f <$> c).run s = ((c.run s).1.map f, (c.run s).2) := by
  rw [ExceptT.run_map]
  rfl

theorem answer_map (f : α → β) (c : Call α) (s : Session) :
    answer (f <$> c) s = (answer c s).map f := by
  rw [answer, run_map]
  rfl

/-- The rules in `s'` are the ones of `s` and `new` behind them; and those of `used` have been used
in between. -/
structure Grows (used new : List Transformer) (s s' : Session) : Prop where
  registry_eq : s'.registry = s.registry ++ new
  applied_eq : s'.applied = s.applied ++ used.map Transformer.name
  limit_eq : s'.limit = s.limit

/-- Nothing is used and nothing is added. -/
abbrev Stays (s s' : Session) : Prop := Grows [] [] s s'

theorem Grows.refl (s : Session) : Stays s s := ⟨by simp, by simp, rfl⟩

theorem Grows.trans {used new used' new' : List Transformer} (h : Grows used new s s')
    (h' : Grows used' new' s' s'') : Grows (used ++ used') (new ++ new') s s'' where
  registry_eq := by rw [h'.registry_eq, h.registry_eq, List.append_assoc]
  applied_eq := by rw [h'.applied_eq, h.applied_eq, List.map_append, List.append_assoc]
  limit_eq := h'.limit_eq.trans h.limit_eq

theorem Grows.trans_stays {used new : List Transformer} (h : Grows used new s s')
    (h' : Stays s' s'') : Grows used new s s'' := by
  simpa using h.trans h'

theorem grows_lexed (s : Session) (path : String) (tokens errors : Nat) :
    Stays s (s.withEvents (s.events ++ [.lexed path tokens errors])) :=
  ⟨by simp [withEvents], by simp [applied, withEvents], rfl⟩

theorem grows_applying (s : Session) (used : List Transformer) :
    Grows used [] s
      (s.withEvents (s.events ++ used.map fun rule => .applying rule.name)) where
  registry_eq := by simp [withEvents]
  applied_eq := by
    simp only [applied, withEvents, List.filterMap_append, List.append_cancel_left_eq]
    rw [List.filterMap_map, ← List.filterMap_eq_map]
    rfl
  limit_eq := rfl

theorem grows_withRules (s : Session) (new : List Transformer) :
    Grows [] new s (s.withRules new) where
  registry_eq := rfl
  applied_eq := by
    simp only [applied, withRules, List.filterMap_append, List.append_cancel_left_eq]
    split <;> rfl
  limit_eq := rfl

/-- The parser leaves the registry alone, and so does whatever only depends on its result. -/
theorem stays_programOf_bind (f : Program × List Diagnostic → Call α)
    (hf : ∀ a s, ((f a).run s).2 = s) (s : Session) :
    Stays s ((programOf src ts >>= f).run s).2 := by
  cases hp : Body.ofTokens s.limit src ts with
  | error fault =>
      rw [run_bind_of_error (run_programOf_of_error hp)]
      exact .refl s
  | ok found =>
      rw [run_bind_of_ok (run_programOf_of_ok hp), hf]
      exact ⟨by simp [withEvents], by simp [applied, withEvents], rfl⟩

theorem run_strictly_bind_pure (report? : Option Report) (a : α) (s : Session) :
    ((strictly report? >>= fun _ => pure a).run s).2 = s := by
  cases report? with
  | none => rfl
  | some r => rfl

/-- The tokens of a step are expanded by the rules that are there: the session behind the expansion
has used them and learned nothing yet. -/
theorem exists_expand (s : Session) (src : Source) (ts : List Token) :
    (∃ fault, Datum.ofTokens s.limit src ts = .error fault ∧
        Expansion.ofTokens s.registry s.limit src ts = ([], .error fault)) ∨
    ∃ data report? used, Datum.ofTokens s.limit src ts = .ok (data, report?) ∧
      ((∃ fault, Transformer.Uses s.registry data used (.error fault) ∧
        Expansion.ofTokens s.registry s.limit src ts =
          (used.map fun rule => .applying rule.name, .error fault)) ∨
      ∃ es new, Transformer.Uses s.registry data used (.ok (es, new)) ∧
        Expansion.ofTokens s.registry s.limit src ts =
          (used.map fun rule => .applying rule.name,
            .ok ⟨Datum.flattenAll es, new, report?⟩)) := by
  rw [Expansion.ofTokens]
  cases hd : Datum.ofTokens s.limit src ts with
  | error fault => exact .inl ⟨fault, rfl, rfl⟩
  | ok found =>
      obtain ⟨data, report?⟩ := found
      obtain ⟨used, huses, hevents⟩ := Transformer.exists_uses_runAll s.registry data
      refine .inr ⟨data, report?, used, rfl, ?_⟩
      cases hrun : Transformer.runAll s.registry data with
      | mk events result =>
          rw [hrun] at huses hevents
          subst hevents
          cases result with
          | error fault => exact .inl ⟨fault, huses, by simp [hrun, Except.map]⟩
          | ok learned => exact .inr ⟨learned.1, learned.2, huses, by simp [hrun, Except.map]⟩

variable {events : List Event}

/-- A fault of the expansion stops both calls for tokens behind the expansion. -/
theorem perform_of_fault (mode : Mode) {fault : Fault}
    (hx : Expansion.ofTokens s.registry s.limit src ts = (events, .error fault)) :
    answer (Step.tokens mode src ts).call s = .error (.fault fault) ∧
      s.perform (.tokens mode src ts) = s.withEvents (s.events ++ events) := by
  rw [perform]
  cases mode with
  | strict =>
      rw [Step.call, answer_map, answer_parseStrictTokens_of_fault hx, run_map, parseStrictTokens,
        run_bind_of_error (run_expand_of_error hx)]
      exact ⟨rfl, rfl⟩
  | lenient =>
      rw [Step.call, answer_map, answer_parseLenientTokens_of_fault hx, run_map,
        parseLenientTokens, run_bind_of_error (run_expand_of_error hx)]
      exact ⟨rfl, rfl⟩

/-- So do malformed data a strict call. -/
theorem perform_of_report {x : Expansion} {r : Report}
    (hx : Expansion.ofTokens s.registry s.limit src ts = (events, .ok x))
    (hr : x.report? = some r) :
    answer (Step.tokens .strict src ts).call s = .error (.report r) ∧
      s.perform (.tokens .strict src ts) = s.withEvents (s.events ++ events) := by
  rw [perform, Step.call, answer_map, answer_parseStrictTokens_of_report hx hr, run_map,
    parseStrictTokens, run_bind_of_ok (run_expand_of_ok hx), hr,
    run_bind_of_error (run_strictly_some r _)]
  exact ⟨rfl, rfl⟩

/-- Otherwise what was registered is added, and nothing changes after that. -/
theorem stays_perform (mode : Mode) {x : Expansion}
    (hx : Expansion.ofTokens s.registry s.limit src ts = (events, .ok x))
    (hmode : mode = .strict → x.report? = none) :
    Stays ((s.withEvents (s.events ++ events)).withRules x.registered)
      (s.perform (.tokens mode src ts)) := by
  rw [perform]
  cases mode with
  | strict =>
      rw [Step.call, run_map, parseStrictTokens, run_bind_of_ok (run_expand_of_ok hx), hmode rfl,
        run_bind_of_ok (run_strictly_none _), run_bind_of_ok (run_enlist _ _)]
      exact stays_programOf_bind _ (fun a s => run_strictly_bind_pure _ a.1 s) _
  | lenient =>
      rw [Step.call, run_map, parseLenientTokens, run_bind_of_ok (run_expand_of_ok hx),
        run_bind_of_ok (run_enlist _ _)]
      exact stays_programOf_bind _ (fun a s => rfl) _

/-- A call for tokens does what is said of it. -/
theorem exists_effect_tokens (mode : Mode) (src : Source) (ts : List Token) (s : Session) :
    ∃ used new, Effect s.registry s.limit (.tokens mode src ts)
        (answer (Step.tokens mode src ts).call s) used new ∧
      used <+: s.registry ∧ Grows used new s (s.perform (.tokens mode src ts)) := by
  rcases exists_expand s src ts with ⟨fault, hd, hx⟩ | ⟨data, report?, used, hd, hx⟩
  · obtain ⟨hanswer, hperform⟩ := perform_of_fault mode hx
    rw [hanswer, hperform]
    exact ⟨[], [], .unread hd, List.nil_prefix, grows_applying s []⟩
  rcases hx with ⟨fault, huses, hx⟩ | ⟨es, new, huses, hx⟩
  · obtain ⟨hanswer, hperform⟩ := perform_of_fault mode hx
    rw [hanswer, hperform]
    exact ⟨used, [], .faulty hd huses, huses.used_first, grows_applying s used⟩
  obtain rfl := huses.used_eq rfl
  by_cases hmode : mode = .strict → report? = none
  · have hlearns := (grows_applying s s.registry).trans (grows_withRules _ new)
    rw [List.append_nil, List.nil_append] at hlearns
    exact ⟨s.registry, new, .learned _ hd hmode huses, List.prefix_rfl,
      hlearns.trans_stays (stays_perform mode hx hmode)⟩
  · obtain ⟨rfl, hsome⟩ := Classical.not_imp.1 hmode
    obtain ⟨r, rfl⟩ := Option.ne_none_iff_exists'.1 hsome
    obtain ⟨hanswer, hperform⟩ := perform_of_report hx rfl
    rw [hanswer, hperform]
    exact ⟨s.registry, [], .malformed hd huses, List.prefix_rfl, grows_applying s s.registry⟩

/-- The events so far have no influence on an answer. -/
theorem answer_tokens_withEvents (mode : Mode) (s : Session) (log : List Event) :
    answer (Step.tokens mode src ts).call (s.withEvents log) =
      answer (Step.tokens mode src ts).call s := by
  cases mode with
  | strict =>
      rw [Step.call, answer_map, answer_map, answer_parseStrictTokens_withEvents]
  | lenient =>
      rw [Step.call, answer_map, answer_map, answer_parseLenientTokens_withEvents]

/-- A text is lexed first, which adds nothing and uses nothing. -/
theorem perform_text_of_lexed (mode : Mode) {l : Lexed} (hl : Lexed.ofSource src = .ok l)
    (hnone : l.report? src = none) (s : Session) :
    answer (Step.text mode src).call s = answer (Step.tokens mode src l.tokens).call s ∧
      s.perform (.text mode src) =
        (s.withEvents (s.events ++ [.lexed src.path l.tokens.length l.diagnostics.length])).perform
          (.tokens mode src l.tokens) := by
  rw [perform, perform]
  cases mode with
  | strict =>
      rw [Step.call, Step.call, answer_map, answer_map, answer_parseStrict_of_lexed hl hnone,
        run_map, run_map, parseStrict, run_bind_of_ok (run_lex_of_ok hl s), hnone,
        run_bind_of_ok (run_strictly_none _)]
      exact ⟨rfl, rfl⟩
  | lenient =>
      rw [Step.call, Step.call, answer_map, answer_parseLenient_of_lexed hl hnone, run_map,
        parseLenient, run_bind_of_ok (run_lex_of_ok hl s), hnone]
      refine ⟨rfl, ?_⟩
      dsimp only
      generalize s.withEvents (s.events ++
        [.lexed src.path l.tokens.length l.diagnostics.length]) = read
      cases h : (parseLenientTokens src l.tokens).run read with
      | mk result after =>
          cases result with
          | error stop => rw [run_bind_of_error h]
          | ok a =>
              rw [run_bind_of_ok h]
              rfl

theorem perform_text_of_report (mode : Mode) {l : Lexed} {r : Report}
    (hl : Lexed.ofSource src = .ok l) (hr : l.report? src = some r) (s : Session) :
    answer (Step.text mode src).call s = mode.stray r ∧ s.perform (.text mode src) =
      s.withEvents (s.events ++ [.lexed src.path l.tokens.length l.diagnostics.length]) := by
  rw [perform]
  cases mode with
  | strict =>
      rw [Step.call, answer_map, answer_parseStrict_of_report hl hr, run_map, parseStrict,
        run_bind_of_ok (run_lex_of_ok hl s), hr, run_bind_of_error (run_strictly_some r _)]
      exact ⟨rfl, rfl⟩
  | lenient =>
      rw [Step.call, answer_parseLenient_of_report hl hr, parseLenient,
        run_bind_of_ok (run_lex_of_ok hl s), hr]
      exact ⟨rfl, rfl⟩

theorem perform_text_of_fault (mode : Mode) {fault : Fault}
    (hl : Lexed.ofSource src = .error fault) (s : Session) :
    answer (Step.text mode src).call s = .error (.fault fault) ∧
      s.perform (.text mode src) = s := by
  rw [perform]
  cases mode with
  | strict =>
      rw [Step.call, answer_map, answer_parseStrict_of_fault hl, run_map, parseStrict,
        run_bind_of_error (run_lex_of_error hl s)]
      exact ⟨rfl, rfl⟩
  | lenient =>
      rw [Step.call, answer_parseLenient_of_fault hl, parseLenient,
        run_bind_of_error (run_lex_of_error hl s)]
      exact ⟨rfl, rfl⟩

/-- Every step does what is said of it. -/
theorem exists_effect (s : Session) (step : Step) :
    ∃ used new, Effect s.registry s.limit step (answer step.call s) used new ∧
      used <+: s.registry ∧ Grows used new s (s.perform step) := by
  cases step with
  | register t =>
      refine ⟨[], [t], .register t, List.nil_prefix, ?_⟩
      rw [perform, Step.call, run_map]
      exact ⟨rfl, (List.append_nil _).symm, rfl⟩
  | tokens mode src ts => exact exists_effect_tokens mode src ts s
  | text mode src =>
      cases hl : Lexed.ofSource src with
      | error fault =>
          obtain ⟨hanswer, hperform⟩ := perform_text_of_fault mode hl s
          rw [hanswer, hperform]
          exact ⟨[], [], .unreadable hl, List.nil_prefix, .refl s⟩
      | ok l =>
          have hlexed := grows_lexed s src.path l.tokens.length l.diagnostics.length
          cases hr : l.report? src with
          | some r =>
              obtain ⟨hanswer, hperform⟩ := perform_text_of_report mode hl hr s
              rw [hanswer, hperform]
              exact ⟨[], [], .stray hl hr, List.nil_prefix, hlexed⟩
          | none =>
              obtain ⟨hanswer, hperform⟩ := perform_text_of_lexed mode hl hr s
              generalize hread : s.withEvents
                (s.events ++ [.lexed src.path l.tokens.length l.diagnostics.length]) = read
              rw [hread] at hlexed hperform
              obtain ⟨used, new, heffect, hfirst, hgrows⟩ :=
                exists_effect_tokens mode src l.tokens read
              rw [hanswer, hperform]
              refine ⟨used, new, .lexed hl hr ?_, ?_, ?_⟩
              · rw [← answer_tokens_withEvents mode s
                  (s.events ++ [.lexed src.path l.tokens.length l.diagnostics.length]), hread]
                subst hread
                exact heffect
              · subst hread
                exact hfirst
              · simpa using hlexed.trans hgrows

/-! ## What is registered on the way -/

/-- A call for tokens answers as if its rules registered nothing. -/
theorem answer_tokens_silenced (mode : Mode) (src : Source) (ts : List Token) (s : Session) :
    answer (Step.tokens mode src ts).call s.silenced = answer (Step.tokens mode src ts).call s := by
  have hsilent := Expansion.ofTokens_silent s.registry s.limit src ts
  cases hq : Expansion.ofTokens s.silenced.registry s.silenced.limit src ts with
  | mk events' quiet =>
  cases hx : Expansion.ofTokens s.registry s.limit src ts with
  | mk events loud =>
  rw [silenced] at hq
  rw [hq, hx] at hsilent
  cases loud with
  | error fault =>
      obtain rfl : quiet = .error fault := hsilent
      rw [(perform_of_fault mode hx).1, (perform_of_fault (s := s.silenced) mode hq).1]
  | ok x =>
      obtain rfl : quiet = .ok { x with registered := [] } := hsilent
      cases mode with
      | lenient =>
          rw [Step.call, answer_map, answer_map, answer_parseLenientTokens_of_expansion hx,
            answer_parseLenientTokens_of_expansion (s := s.silenced) hq]
          rfl
      | strict =>
          rw [Step.call, answer_map, answer_map]
          cases hr : x.report? with
          | some r =>
              rw [answer_parseStrictTokens_of_report hx hr,
                answer_parseStrictTokens_of_report (s := s.silenced) hq hr]
          | none =>
              rw [answer_parseStrictTokens_of_expansion hx hr,
                answer_parseStrictTokens_of_expansion (s := s.silenced) hq hr]
              rfl

/-- So does every step. -/
theorem answer_step_silenced (s : Session) (step : Step) :
    answer step.call s.silenced = answer step.call s := by
  cases step with
  | register t => rfl
  | tokens mode src ts => exact answer_tokens_silenced mode src ts s
  | text mode src =>
      cases hl : Lexed.ofSource src with
      | error fault => rw [(perform_text_of_fault mode hl _).1, (perform_text_of_fault mode hl _).1]
      | ok l =>
          cases hr : l.report? src with
          | some r =>
              rw [(perform_text_of_report mode hl hr _).1, (perform_text_of_report mode hl hr _).1]
          | none =>
              rw [(perform_text_of_lexed mode hl hr _).1, (perform_text_of_lexed mode hl hr _).1]
              exact answer_tokens_silenced mode src l.tokens s

/-! ## Registry discipline -/

/-- How a step acts on the registry. -/
theorem exists_acts (s : Session) (step : Step) : ∃ used new, s.Acts step used new := by
  obtain ⟨used, new, heffect, hfirst, hgrows⟩ := exists_effect s step
  exact ⟨used, new, heffect, hfirst, hgrows.applied_eq, hgrows.registry_eq, hgrows.limit_eq,
    answer_step_silenced s step⟩

/-- What steps add stands behind the rules that were there, in the order in which it was added. -/
theorem exists_learns (s : Session) (steps : List Step) :
    ∃ new, s.Learns steps new ∧ (s.performAll steps).registry = s.registry ++ new ∧
      (s.performAll steps).limit = s.limit := by
  induction steps generalizing s with
  | nil => exact ⟨[], .nil s, (List.append_nil _).symm, rfl⟩
  | cons step steps ih =>
      obtain ⟨used, new, hacts⟩ := exists_acts s step
      obtain ⟨more, hmore, hregistry, hlimit⟩ := ih (s.perform step)
      refine ⟨new ++ more, .cons hacts hmore, ?_, hlimit.trans hacts.limit_eq⟩
      rw [performAll, List.foldl_cons, ← performAll, hregistry, hacts.registry_eq,
        List.append_assoc]

/-- **Registry discipline**: behind any history, the registry is the first one with everything the
calls have added, call after call; and the next step uses the rules that are there when it begins,
adds what is said of it (`Effect`), and takes nothing away. -/
theorem registry_grows (s : Session) (history : List Step) (step : Step) :
    ∃ learned used new, s.Learns history learned ∧
      (s.performAll history).registry = s.registry ++ learned ∧
      (s.performAll history).Acts step used new := by
  obtain ⟨learned, hlearns, hregistry, -⟩ := exists_learns s history
  obtain ⟨used, new, hacts⟩ := exists_acts (s.performAll history) step
  exact ⟨learned, used, new, hlearns, hregistry, hacts⟩

end Session

end SchemeFront
