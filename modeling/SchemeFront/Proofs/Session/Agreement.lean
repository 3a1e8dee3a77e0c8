import SchemeFront.Proofs.Parse.Alike
import SchemeFront.Proofs.Parse.Soundness
import SchemeFront.Proofs.Session.Calls
import SchemeFront.Proofs.Transformer.Soundness

set_option autoImplicit false

/-! # Strict and recovering calls

A strict call stops at the first stage with findings, while a recovering call goes on with what
there is, and lets the parser's findings go before those about data. `Session.calls_agree` says how
their answers go together.
-/

namespace SchemeFront

open Token

variable {src : Source} {ts : List Token} {s : Session}

/-- The report on the data of the tokens. -/
def Datum.report? (limit : Int) (src : Source) (ts : List Token) : Option Report :=
  (Datum.ofTokens limit src ts).toOption.bind Prod.snd

/-- Expansion passes the report on the data on. -/
theorem Expansion.report?_of_ofTokens {rules : List Transformer} {limit : Int}
    {events : List Event} {x : Expansion} (hx : ofTokens rules limit src ts = (events, .ok x)) :
    x.report? = Datum.report? limit src ts := by
  obtain ⟨r, data, hr, -, -, hreport⟩ := Expansion.stages_of_ofTokens hx
  rw [hreport, Datum.report?, Datum.ofTokens, hr]
  rfl

theorem Datum.stage_of_report? {limit : Int} {r : Report}
    (h : Datum.report? limit src ts = some r) : r.stage = .syntactic := by
  rw [Datum.report?] at h
  cases hd : Datum.ofTokens limit src ts with
  | error fault =>
      rw [hd] at h
      cases h
  | ok result =>
      rw [hd] at h
      obtain ⟨reading, -, hlast⟩ := exists_of_bind_eq_ok hd
      cases hlast
      exact (Report.of?_eq_some h).1

namespace Session

/-- How a strict and a recovering call answer. `data?` is the report on the data, and `orderly` says
that no form of the expanded tokens ends before it begins. -/
structure Agree (data? : Option Report) (orderly : Prop) (strict : Except Stop Program)
    (lenient : Except Stop (Option Program × Option Report)) : Prop where
  accepts : ∀ p, strict = .ok p ↔ lenient = .ok (some p, none)
  whole : ∀ p, strict = .ok p → p.hasErrors = false
  lexical : ∀ r, strict = .error (.report r) ∧ r.stage = .lexical ↔
    lenient = .ok (none, some r) ∧ r.stage = .lexical
  syntactic : orderly → ((∃ r, strict = .error (.report r) ∧ r.stage = .syntactic) ↔
    ∃ p r, lenient = .ok (some p, some r) ∧ r.stage = .syntactic)
  /-- What is wrong with the data is said first in the strict call. -/
  findings : ∀ r p r', strict = .error (.report r) → lenient = .ok (some p, some r') →
    r = data?.getD r'
  recovers : ∀ p r', lenient = .ok (some p, some r') →
    ∃ r, strict = .error (.report r) ∧ r.stage = .syntactic
  /-- Without order the recovering call may give up, behind a report on the data. -/
  rejects : ∀ r, strict = .error (.report r) → r.stage = .syntactic →
    (∃ p r', lenient = .ok (some p, some r')) ∨ data? = some r ∧ ∃ f, lenient = .error (.fault f)
  faults : ∀ f, strict = .error (.fault f) → lenient = .error (.fault f)

namespace Agree

variable {data? : Option Report} {orderly orderly' : Prop}

theorem mono {strict : Except Stop Program}
    {lenient : Except Stop (Option Program × Option Report)}
    (h : Agree data? orderly strict lenient) (ho : orderly' → orderly) :
    Agree data? orderly' strict lenient :=
  { h with syntactic := fun hk => h.syntactic (ho hk) }

/-- Both calls give up. -/
theorem of_fault (f : Fault) : Agree data? orderly (.error (.fault f)) (.error (.fault f)) := by
  constructor <;> simp

/-- Both calls accept. -/
theorem of_program {p : Program} (hp : p.hasErrors = false) :
    Agree data? orderly (.ok p) (.ok (some p, none)) := by
  constructor <;> simp [hp]

/-- Both calls report stray characters. -/
theorem of_lexical {r : Report} (hr : r.stage = .lexical) :
    Agree data? orderly (.error (.report r)) (.ok (none, some r)) := by
  constructor <;> simp_all

/-- Both calls report, the strict one what is wrong with the data, if anything is. -/
theorem of_syntactic {p : Program} {r : Report} (hr : r.stage = .syntactic)
    (hdata : ∀ d ∈ data?, d.stage = .syntactic) :
    Agree data? orderly (.error (.report (data?.getD r))) (.ok (some p, some r)) := by
  have hstage : (data?.getD r).stage = .syntactic := by
    cases data? with
    | none => exact hr
    | some d => exact hdata d rfl
  constructor <;> simp [hr, hstage]

/-- The data are reported, and then the recovering call gives up. -/
theorem of_disorder {d : Report} {f : Fault} (hd : d.stage = .syntactic) (ho : ¬ orderly) :
    Agree (some d) orderly (.error (.report d)) (.error (.fault f)) := by
  constructor <;> simp [hd, ho]

end Agree

/-! ## Calls for tokens -/

/-- The two calls for the same tokens. -/
theorem agree_tokens (s : Session) (src : Source) (ts : List Token) :
    Agree (Datum.report? s.limit src ts)
      (Ascending ts ∧ ∀ rule ∈ s.registry, rule.KeepsSound)
      (answer (parseStrictTokens src ts) s)
      ((answer (parseLenientTokens src ts) s).map fun a => (some a.1, a.2)) := by
  cases hx : Expansion.ofTokens s.registry s.limit src ts with
  | mk events result =>
      cases result with
      | error fault =>
          rw [answer_parseStrictTokens_of_fault hx, answer_parseLenientTokens_of_fault hx]
          exact .of_fault fault
      | ok x =>
          have hdata := Expansion.report?_of_ofTokens hx
          rw [answer_parseLenientTokens_of_expansion hx, ← hdata]
          cases hr : x.report? with
          | some d =>
              have hd : d.stage = .syntactic := Datum.stage_of_report? (hdata ▸ hr)
              rw [answer_parseStrictTokens_of_report hx hr]
              cases hp : Body.ofTokens s.limit src x.tokens with
              | error fault =>
                  refine .of_disorder hd ?_
                  rintro ⟨hts, hrules⟩
                  obtain ⟨p, notes, hok⟩ := Body.exists_ofTokens_of_spanned s.limit src
                    (Expansion.spanned_of_ofTokens hrules hts hx)
                  rw [hp] at hok
                  cases hok
              | ok result =>
                  obtain ⟨p, notes⟩ := result
                  have hdata' : ∀ e ∈ some d, e.stage = .syntactic := by simpa using hd
                  dsimp only [Except.map]
                  cases hfound : Report.of? .syntactic notes src with
                  | none => exact Agree.of_syntactic hd hdata'
                  | some r =>
                      exact Agree.of_syntactic (Report.of?_eq_some hfound).1 hdata'
          | none =>
              rw [answer_parseStrictTokens_of_expansion hx hr]
              cases hp : Body.ofTokens s.limit src x.tokens with
              | error fault => exact .of_fault fault
              | ok result =>
                  obtain ⟨p, notes⟩ := result
                  dsimp only [Except.map]
                  cases hfound : Report.of? .syntactic notes src with
                  | none =>
                      obtain rfl : notes = [] := by simpa [Report.of?] using hfound
                      exact .of_program (Body.hasErrors_of_ofTokens hp)
                  | some r =>
                      have hdata' : ∀ e ∈ (none : Option Report), e.stage = .syntactic := by simp
                      exact .of_syntactic (Report.of?_eq_some hfound).1 hdata'

/-! ## Calls for texts -/

/-- The two calls for the same text, whose tokens are in order. -/
theorem agree_text (s : Session) (src : Source) :
    Agree ((Lexed.ofSource src).toOption.bind fun l => Datum.report? s.limit src l.tokens)
      (∀ rule ∈ s.registry, rule.KeepsSound)
      (answer (parseStrict src) s) (answer (parseLenient src) s) := by
  cases hl : Lexed.ofSource src with
  | error fault =>
      rw [answer_parseStrict_of_fault hl, answer_parseLenient_of_fault hl]
      exact .of_fault fault
  | ok l =>
      cases hr : l.report? src with
      | some r =>
          rw [answer_parseStrict_of_report hl hr, answer_parseLenient_of_report hl hr]
          exact .of_lexical (Report.of?_eq_some hr).1
      | none =>
          rw [answer_parseStrict_of_lexed hl hr, answer_parseLenient_of_lexed hl hr]
          have hts : Ascending l.tokens := (Lexed.separate hl).ascending
          exact (agree_tokens s src l.tokens).mono fun hrules => ⟨hts, hrules⟩

/-- With rules that are known, the recovering call never gives up where the strict one reports. -/
theorem agree_text_of_known (src : Source) (h : ∀ rule ∈ s.registry, rule ∈ Transformer.known) :
    Agree ((Lexed.ofSource src).toOption.bind fun l => Datum.report? s.limit src l.tokens) True
      (answer (parseStrict src) s) (answer (parseLenient src) s) :=
  (agree_text s src).mono fun _ rule hrule => Transformer.keepsSound_of_mem_known (h rule hrule)

/-- **Strict and recovering calls agree**, for any tokens and for any text, whatever the rules and
the limit are. A strict call gives a program if and only if the recovering call gives the same
program without a report, and then there are no errors in it. Stray characters are reported by
both. Otherwise a strict call reports something if and only if the recovering call reports
something, and the strict report is the one on the data, if there is one, and else the same. This
needs tokens that are in order, as those of any text are, and rules that do not put them out of
order. If a form ends before it begins, the recovering call gives up where it would skip that form,
and then the strict call may stop earlier for what is wrong with the data. -/
theorem calls_agree (s : Session) (src : Source) :
    (∀ ts, Agree (Datum.report? s.limit src ts)
      (Ascending ts ∧ ∀ rule ∈ s.registry, rule.KeepsSound)
      (answer (parseStrictTokens src ts) s)
      ((answer (parseLenientTokens src ts) s).map fun a => (some a.1, a.2))) ∧
    Agree ((Lexed.ofSource src).toOption.bind fun l => Datum.report? s.limit src l.tokens)
      (∀ rule ∈ s.registry, rule.KeepsSound)
      (answer (parseStrict src) s) (answer (parseLenient src) s) :=
  ⟨agree_tokens s src, agree_text s src⟩

/-- Both calls report a bracket without a partner. -/
theorem calls_agree_stray :
    (∀ rule ∈ Transformer.builtin, rule.KeepsSound) ∧
      (∃ r, answer (parseStrict ⟨"a.scm", "x )".toList⟩) {} = .error (.report r) ∧
        r.stage = .syntactic) ∧
      ∃ p r, answer (parseLenient ⟨"a.scm", "x )".toList⟩) {} = .ok (some p, some r) ∧
        r.stage = .syntactic := by
  have hrules : ∀ rule ∈ Transformer.builtin, rule.KeepsSound := fun rule hrule =>
    Transformer.keepsSound_of_mem_known (List.mem_of_mem_take (i := 1) hrule)
  have hstrict : ∃ r, answer (parseStrict ⟨"a.scm", "x )".toList⟩) {} = .error (.report r) ∧
      r.stage = .syntactic := ⟨_, rfl, rfl⟩
  exact ⟨hrules, hstrict, ((calls_agree {} ⟨"a.scm", "x )".toList⟩).2.syntactic hrules).1 hstrict⟩

end Session

/-! ## Without order -/

/-- A list is opened behind the place where it is closed, inside of a list that is never closed. -/
def Token.disordered : List Token :=
  [⟨.keyword .opening, .ofLength "" 0 1⟩, ⟨.keyword .opening, .ofLength "" 5 1⟩,
    ⟨.keyword .closing, .ofLength "" 1 1⟩, ⟨.keyword .point, .ofLength "" 9 1⟩]

/-- A rule that puts a bracket from further on in the place of a name. -/
def Transformer.displacing : Transformer := ofFunction "Displace" fun d =>
  if d.name? = some "x" then .leaf (.keyword .opening) (.ofLength "" 9 1) else d

/-- Tokens out of order, and a rule that puts them out of order: the strict call reports something,
and the recovering call gives up. -/
theorem Session.not_agree_disordered :
    (∃ r f, answer (parseStrictTokens ⟨"", []⟩ disordered) {} = .error (.report r) ∧
      r.stage = .syntactic ∧
      answer (parseLenientTokens ⟨"", []⟩ disordered) {} = .error (.fault f)) ∧
    ∃ r f, answer (parseStrict ⟨"", "x )".toList⟩) { registry := [.displacing] } =
      .error (.report r) ∧ r.stage = .syntactic ∧
      answer (parseLenient ⟨"", "x )".toList⟩) { registry := [.displacing] } = .error (.fault f) :=
  ⟨⟨_, _, rfl, rfl, rfl⟩, _, _, rfl, rfl, rfl⟩

end SchemeFront
