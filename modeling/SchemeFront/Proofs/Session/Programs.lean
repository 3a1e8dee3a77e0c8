import SchemeFront.Proofs.Parse.Building
import SchemeFront.Proofs.Session.Agreement

set_option autoImplicit false

/-! # Programs that a session returns

A program that any of the calls returns (`Session.Returns`, `Session.ReturnsFor`) is what the parser
makes of the expanded tokens, whether or not something is reported. So what holds of the tokens and
is kept by the rules holds of the names and literals in the program
(`Session.ReturnsFor.isBuilt`, `Session.Returns.isBuilt`).
-/

namespace SchemeFront.Session

variable {s : Session} {src : Source} {ts : List Token} {p : Program} {P : Lexeme → Prop}

/-- A call for tokens returns the program. -/
def ReturnsFor (s : Session) (src : Source) (ts : List Token) (p : Program) : Prop :=
  answer (parseStrictTokens src ts) s = .ok p ∨
    ∃ report?, answer (parseLenientTokens src ts) s = .ok (p, report?)

/-- A call for a source returns the program. -/
def Returns (s : Session) (src : Source) (p : Program) : Prop :=
  answer (parseStrict src) s = .ok p ∨
    ∃ report?, answer (parseLenient src) s = .ok (some p, report?)

theorem ReturnsFor.lenient (h : s.ReturnsFor src ts p) :
    ∃ report?, answer (parseLenientTokens src ts) s = .ok (p, report?) := by
  rcases h with h | h
  -- What a strict call accepts is what a recovering one gives without a report.
  · have haccepts := ((agree_tokens s src ts).accepts p).1 h
    cases hanswer : answer (parseLenientTokens src ts) s with
    | error stop =>
        rw [hanswer] at haccepts
        cases haccepts
    | ok a =>
        obtain ⟨q, report?⟩ := a
        rw [hanswer] at haccepts
        cases haccepts
        exact ⟨none, rfl⟩
  · exact h

/-- The program is parsed from the expanded tokens. -/
theorem ReturnsFor.stages (h : s.ReturnsFor src ts p) :
    ∃ events x notes, Expansion.ofTokens s.registry s.limit src ts = (events, .ok x) ∧
      Body.ofTokens s.limit src x.tokens = .ok (p, notes) := by
  obtain ⟨report?, h⟩ := h.lenient
  cases hx : Expansion.ofTokens s.registry s.limit src ts with
  | mk events result =>
      cases result with
      | error fault =>
          rw [answer_parseLenientTokens_of_fault hx] at h
          cases h
      | ok x =>
          rw [answer_parseLenientTokens_of_expansion hx] at h
          cases hp : Body.ofTokens s.limit src x.tokens with
          | error fault =>
              rw [hp] at h
              cases h
          | ok result =>
              rw [hp] at h
              cases h
              exact ⟨events, x, result.2, rfl, hp⟩

/-- A program of a source is one of its tokens. -/
theorem Returns.lexed (h : s.Returns src p) :
    ∃ l, Lexed.ofSource src = .ok l ∧ s.ReturnsFor src l.tokens p := by
  obtain ⟨report?, h⟩ : ∃ report?, answer (parseLenient src) s = .ok (some p, report?) :=
    h.elim (fun h => ⟨none, ((agree_text s src).accepts p).1 h⟩) id
  cases hl : Lexed.ofSource src with
  | error fault =>
      rw [answer_parseLenient_of_fault hl] at h
      cases h
  | ok l =>
      refine ⟨l, rfl, .inr ⟨report?, ?_⟩⟩
      cases hr : l.report? src with
      | some r =>
          rw [answer_parseLenient_of_report hl hr] at h
          cases h
      | none =>
          rw [answer_parseLenient_of_lexed hl hr] at h
          cases hanswer : answer (parseLenientTokens src l.tokens) s with
          | error stop =>
              rw [hanswer] at h
              cases h
          | ok a =>
              rw [hanswer] at h
              cases h
              rfl

/-- A program that a recovering call is seen to give. -/
theorem exists_answer_of_toOption
    (h : (answer (parseLenient src) s).toOption.bind Prod.fst = some p) :
    ∃ report?, answer (parseLenient src) s = .ok (some p, report?) := by
  cases hanswer : answer (parseLenient src) s with
  | error stop =>
      rw [hanswer] at h
      cases h
  | ok a =>
      obtain ⟨found, report?⟩ := a
      rw [hanswer] at h
      obtain rfl : found = some p := h
      exact ⟨report?, rfl⟩

/-- What the tokens say and the rules keep is said by the names and literals of the program. -/
theorem ReturnsFor.isBuilt (hkey : ∀ k, P (.keyword k))
    (hrules : ∀ rule ∈ s.registry, rule.Keeps (Datum.Says P)) (hts : ∀ t ∈ ts, P t.lexeme)
    (h : s.ReturnsFor src ts p) : p.IsBuilt P := by
  obtain ⟨events, x, notes, hx, hp⟩ := h.stages
  exact Body.isBuilt_of_ofTokens (Expansion.says_of_ofTokens hkey hrules hts hx) hp

theorem Returns.isBuilt (hkey : ∀ k, P (.keyword k))
    (hrules : ∀ rule ∈ s.registry, rule.Keeps (Datum.Says P))
    (hsrc : ∀ l, Lexed.ofSource src = .ok l → ∀ t ∈ l.tokens, P t.lexeme)
    (h : s.Returns src p) : p.IsBuilt P := by
  obtain ⟨l, hl, hp⟩ := h.lexed
  exact hp.isBuilt hkey hrules (hsrc l hl)

end SchemeFront.Session
