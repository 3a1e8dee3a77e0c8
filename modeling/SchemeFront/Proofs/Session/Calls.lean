import SchemeFront.Proofs.Session.Totality

set_option autoImplicit false

/-! # Calls by their stages

What a call answers depends on the expansion, on the program that the expanded tokens are, and on
nothing else in the session but its rules and its limit. The lemmas here give the answers of the
four calls in terms of these stages, also where a stage ends in a fault.
-/

namespace SchemeFront.Session

variable {α β : Type} {s s' : Session} {src : Source} {ts : List Token}

/-! ## Stages -/

/-- A stage that ends in a fault stops the call behind the events of the expansion. -/
theorem run_expand_of_error {events : List Event} {fault : Fault}
    (h : Expansion.ofTokens s.registry s.limit src ts = (events, .error fault)) :
    (expand src ts).run s = (.error (.fault fault), s.withEvents (s.events ++ events)) := by
  rw [expand, run_bind_of_ok (run_get s), h]
  dsimp only
  rw [run_bind_of_ok (run_record events s)]
  rfl

/-- The session with more rules, and the event that tells of them. -/
def withRules (s : Session) (new : List Transformer) : Session where
  registry := s.registry ++ new
  limit := s.limit
  events := s.events ++ if new.isEmpty then [] else [.registered (new.map Transformer.name)]

theorem run_enlist (new : List Transformer) (s : Session) :
    (enlist new).run s = (.ok (), s.withRules new) := by
  cases new with
  | nil =>
      rw [run_enlist_nil]
      simp [withRules]
  | cons t new => rfl

theorem run_programOf_of_error {fault : Fault} (h : Body.ofTokens s.limit src ts = .error fault) :
    (programOf src ts).run s = (.error (.fault fault), s) := by
  rw [programOf, run_bind_of_ok (run_get s), h]
  exact run_bind_of_error rfl

/-! ## Answers -/

/-- A fault of the expansion stops the calls. -/
theorem answer_parseLenientTokens_of_fault {events : List Event} {fault : Fault}
    (hx : Expansion.ofTokens s.registry s.limit src ts = (events, .error fault)) :
    answer (parseLenientTokens src ts) s = .error (.fault fault) := by
  rw [answer, parseLenientTokens, run_bind_of_error (run_expand_of_error hx)]

theorem answer_parseStrictTokens_of_fault {events : List Event} {fault : Fault}
    (hx : Expansion.ofTokens s.registry s.limit src ts = (events, .error fault)) :
    answer (parseStrictTokens src ts) s = .error (.fault fault) := by
  rw [answer, parseStrictTokens, run_bind_of_error (run_expand_of_error hx)]

/-- A recovering call goes on to the parser, whatever is said of the data. -/
theorem answer_parseLenientTokens_of_expansion {events : List Event} {x : Expansion}
    (hx : Expansion.ofTokens s.registry s.limit src ts = (events, .ok x)) :
    answer (parseLenientTokens src ts) s =
      match Body.ofTokens s.limit src x.tokens with
      | .error fault => .error (.fault fault)
      | .ok (p, notes) => .ok (p, (Report.of? .syntactic notes src).or x.report?) := by
  rw [answer, parseLenientTokens, run_bind_of_ok (run_expand_of_ok hx),
    run_bind_of_ok (run_enlist _ _)]
  -- Neither the events nor the new rules matter to the parser.
  generalize hlearned : (s.withEvents (s.events ++ events)).withRules x.registered = learned
  have hlimit : learned.limit = s.limit := by rw [← hlearned]; rfl
  rw [← hlimit]
  cases hp : Body.ofTokens learned.limit src x.tokens with
  | error fault => rw [run_bind_of_error (run_programOf_of_error hp)]
  | ok result =>
      rw [run_bind_of_ok (run_programOf_of_ok hp)]
      rfl

/-- A strict call stops at a report on the data. -/
theorem answer_parseStrictTokens_of_report {events : List Event} {x : Expansion} {r : Report}
    (hx : Expansion.ofTokens s.registry s.limit src ts = (events, .ok x))
    (hr : x.report? = some r) :
    answer (parseStrictTokens src ts) s = .error (.report r) := by
  rw [answer, parseStrictTokens, run_bind_of_ok (run_expand_of_ok hx), hr,
    run_bind_of_error (run_strictly_some r _)]

/-- Without one it goes on to the parser, and stops at the parser's report. -/
theorem answer_parseStrictTokens_of_expansion {events : List Event} {x : Expansion}
    (hx : Expansion.ofTokens s.registry s.limit src ts = (events, .ok x))
    (hnone : x.report? = none) :
    answer (parseStrictTokens src ts) s =
      match Body.ofTokens s.limit src x.tokens with
      | .error fault => .error (.fault fault)
      | .ok (p, notes) =>
          match Report.of? .syntactic notes src with
          | some r => .error (.report r)
          | none => .ok p := by
  rw [answer, parseStrictTokens, run_bind_of_ok (run_expand_of_ok hx), hnone,
    run_bind_of_ok (run_strictly_none _), run_bind_of_ok (run_enlist _ _)]
  generalize hlearned : (s.withEvents (s.events ++ events)).withRules x.registered = learned
  have hlimit : learned.limit = s.limit := by rw [← hlearned]; rfl
  rw [← hlimit]
  cases hp : Body.ofTokens learned.limit src x.tokens with
  | error fault => rw [run_bind_of_error (run_programOf_of_error hp)]
  | ok result =>
      rw [run_bind_of_ok (run_programOf_of_ok hp)]
      dsimp only
      cases hr : Report.of? .syntactic result.2 src with
      | none =>
          rw [run_bind_of_ok (run_strictly_none _)]
          rfl
      | some r => rw [run_bind_of_error (run_strictly_some r _)]

/-! ## From a text to its tokens -/

/-- The events so far have no influence on an answer for tokens. -/
theorem answer_parseLenientTokens_withEvents (s : Session) (log : List Event) :
    answer (parseLenientTokens src ts) (s.withEvents log) =
      answer (parseLenientTokens src ts) s := by
  cases hx : Expansion.ofTokens s.registry s.limit src ts with
  | mk events result =>
      cases result with
      | error fault =>
          rw [answer_parseLenientTokens_of_fault hx,
            answer_parseLenientTokens_of_fault (s := s.withEvents log) hx]
      | ok x =>
          rw [answer_parseLenientTokens_of_expansion hx,
            answer_parseLenientTokens_of_expansion (s := s.withEvents log) hx]
          rfl

theorem answer_parseStrictTokens_withEvents (s : Session) (log : List Event) :
    answer (parseStrictTokens src ts) (s.withEvents log) =
      answer (parseStrictTokens src ts) s := by
  cases hx : Expansion.ofTokens s.registry s.limit src ts with
  | mk events result =>
      cases result with
      | error fault =>
          rw [answer_parseStrictTokens_of_fault hx,
            answer_parseStrictTokens_of_fault (s := s.withEvents log) hx]
      | ok x =>
          cases hr : x.report? with
          | some r =>
              rw [answer_parseStrictTokens_of_report hx hr,
                answer_parseStrictTokens_of_report (s := s.withEvents log) hx hr]
          | none =>
              rw [answer_parseStrictTokens_of_expansion hx hr,
                answer_parseStrictTokens_of_expansion (s := s.withEvents log) hx hr]
              rfl

/-- A source that cannot be read stops the calls. -/
theorem answer_parseLenient_of_fault {fault : Fault} (hl : Lexed.ofSource src = .error fault) :
    answer (parseLenient src) s = .error (.fault fault) := by
  rw [answer, parseLenient, run_bind_of_error (run_lex_of_error hl s)]

theorem answer_parseStrict_of_fault {fault : Fault} (hl : Lexed.ofSource src = .error fault) :
    answer (parseStrict src) s = .error (.fault fault) := by
  rw [answer, parseStrict, run_bind_of_error (run_lex_of_error hl s)]

/-- A strict call stops at a report on stray characters. -/
theorem answer_parseStrict_of_report {l : Lexed} {r : Report} (hl : Lexed.ofSource src = .ok l)
    (hr : l.report? src = some r) : answer (parseStrict src) s = .error (.report r) := by
  rw [answer, parseStrict, run_bind_of_ok (run_lex_of_ok hl s), hr,
    run_bind_of_error (run_strictly_some r _)]

/-- Without stray characters, a text is answered as its tokens are. -/
theorem answer_parseStrict_of_lexed {l : Lexed} (hl : Lexed.ofSource src = .ok l)
    (hnone : l.report? src = none) :
    answer (parseStrict src) s = answer (parseStrictTokens src l.tokens) s := by
  rw [answer, parseStrict, run_bind_of_ok (run_lex_of_ok hl s), hnone,
    run_bind_of_ok (run_strictly_none _)]
  exact answer_parseStrictTokens_withEvents s _

theorem answer_parseLenient_of_lexed {l : Lexed} (hl : Lexed.ofSource src = .ok l)
    (hnone : l.report? src = none) :
    answer (parseLenient src) s =
      (answer (parseLenientTokens src l.tokens) s).map fun a => (some a.1, a.2) := by
  rw [← answer_parseLenientTokens_withEvents s
    (s.events ++ [.lexed src.path l.tokens.length l.diagnostics.length])]
  rw [answer, parseLenient, run_bind_of_ok (run_lex_of_ok hl s), hnone]
  dsimp only
  generalize s.withEvents (s.events ++ [.lexed src.path l.tokens.length l.diagnostics.length])
    = read
  cases h : (parseLenientTokens src l.tokens).run read with
  | mk result after =>
      cases result with
      | error stop =>
          rw [run_bind_of_error h, answer, h]
          rfl
      | ok a =>
          rw [run_bind_of_ok h, answer, h]
          rfl

end SchemeFront.Session
