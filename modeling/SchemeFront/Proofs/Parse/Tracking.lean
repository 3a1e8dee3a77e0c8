import SchemeFront.Proofs.Grammar.Phrases
import SchemeFront.Proofs.Parse.Nested

set_option autoImplicit false

/-! # Tracking what could follow

A parser is set against a language: the token lists that could still follow at its position. What it
reads without any finding is tracked by left quotients, so that behind it just those token lists are
left that could follow then (`Reply.Tracks`). The first finding about an unexpected token comes
where no token list of the language goes on with the token, but some go on with each of the
alternatives (`Diagnostic.Truthful`). Whether what is left is what should be is decided token by
token, with the equations of the grammar.
-/

namespace SchemeFront

open Token Phrase

variable {α β : Type} {ctx : Context} {pos : Position} {K L M : TokenLanguage} {t o : Token}
  {ts us xs : List Token} {d why : Diagnostic} {trace : Trace} {expected : List String}
  {D : α → List Token → TokenLanguage → Prop} {E : β → List Token → TokenLanguage → Prop}

/-! ## Alternatives -/

/-- The token lists that an alternative stands for. -/
def instances (s : String) : TokenLanguage :=
  if s = "(" then word .opening
  else if s = ")" then word .closing
  else if s = Parse.identifierName then name
  else if s = Parse.expressionName then expression.language
  else if s = Parse.definitionName then definition.language
  else 0

theorem instances_opening : instances "(" = word .opening := if_pos rfl

theorem instances_closing : instances ")" = word .closing := by
  rw [instances, if_neg (by decide), if_pos rfl]

theorem instances_identifier : instances Parse.identifierName = name := by
  rw [instances, if_neg (by decide), if_neg (by decide), if_pos rfl]

theorem instances_expression : instances Parse.expressionName = expression.language := by
  rw [instances, if_neg (by decide), if_neg (by decide), if_neg (by decide), if_pos rfl]

theorem instances_endOfInput : instances endOfInputName = 0 := by
  rw [instances, if_neg (by decide), if_neg (by decide), if_neg (by decide), if_neg (by decide),
    if_neg (by decide)]

theorem instances_definition : instances Parse.definitionName = definition.language := by
  rw [instances, if_neg (by decide), if_neg (by decide), if_neg (by decide), if_neg (by decide),
    if_pos rfl]

/-- What an alternative stands for can follow. -/
def Alternative (L : TokenLanguage) (s : String) : Prop := ∀ ts ∈ instances s, Viable L ts

theorem alternative_mul {s : String} (hs : instances s = L) (hK : Live K) :
    Alternative (L * K) s := by
  intro ts hts
  rw [hs] at hts
  exact viable_mul hts hK

theorem Alternative.add_left {s : String} (h : Alternative L s) : Alternative (L + M) s :=
  fun ts hts => (h ts hts).add_left

theorem Alternative.add_right {s : String} (h : Alternative M s) : Alternative (L + M) s :=
  fun ts hts => (h ts hts).add_right

/-- If the finding is that a token cannot stand where it does, then the tokens before it can be
completed, with it they cannot, and with any of the alternatives they can. -/
def Diagnostic.Truthful (L : TokenLanguage) (ts : List Token) (d : Diagnostic) : Prop :=
  ∀ t expected, d.cause = .unexpected (some (.token t)) expected →
    ∃ xs us, ts = xs ++ t :: us ∧ Viable L xs ∧ ¬ Viable L (xs ++ [t]) ∧
      ∀ s ∈ expected, ∀ zs ∈ instances s, Viable L (xs ++ zs)

namespace Diagnostic

/-- The finding is not about an unexpected token. -/
def IsOther (d : Diagnostic) : Prop :=
  ∀ t expected, d.cause ≠ .unexpected (some (.token t)) expected

theorem IsOther.truthful (h : d.IsOther) : d.Truthful L ts :=
  fun t expected hd => absurd hd (h t expected)

theorem isOther_remark (s : Span) (message : String) (construct : Option String) :
    (remark s message construct).IsOther := by
  intro t expected hd
  cases hd

theorem Truthful.append (h : d.Truthful (L.leftQuotient xs) us) : d.Truthful L (xs ++ us) := by
  intro t expected hd
  obtain ⟨ys, vs, rfl, hviable, hnot, halternatives⟩ := h t expected hd
  refine ⟨xs ++ ys, vs, by simp, viable_append.2 hviable, ?_, ?_⟩
  · rw [List.append_assoc, viable_append]
    exact hnot
  · intro s hs zs hzs
    rw [List.append_assoc, viable_append]
    exact halternatives s hs zs hzs

/-- The next token is unexpected. -/
theorem truthful_unexpected (hL : Live L) (ht : L.leftQuotient [t] = 0)
    (hexpected : ∀ s ∈ expected, Alternative L s) :
    (unexpected t.span (some (.token t)) expected).Truthful L (t :: ts) := by
  intro t' expected' hd
  cases hd
  refine ⟨[], ts, rfl, hL, not_viable_of_leftQuotient_eq_zero ht, ?_⟩
  intro s hs zs hzs
  exact hexpected s (mem_alternatives.1 hs) zs hzs

end Diagnostic

/-! ## Answers -/

/-- The answer to reading on from `pos`, where `L` could follow. If nothing was found, `D` holds of
the value, of the tokens that are left, and of what could follow then; else the first finding is
truthful. -/
def Reply.Tracks (L : TokenLanguage) (pos : Position)
    (D : α → List Token → TokenLanguage → Prop) : Reply α → Prop
  | done a trace after =>
      (trace.notes = [] →
        ∃ xs, pos.rest = xs ++ after.rest ∧ D a after.rest (L.leftQuotient xs)) ∧
      ∀ d ∈ trace.notes.head?, d.Truthful L pos.rest
  | failed why trace _ => (trace.notes.headD why).Truthful L pos.rest
  | fault _ _ _ => True

/-- Just `K` could follow. -/
def Leaves (K : TokenLanguage) (_ : α) (_ : List Token) (L : TokenLanguage) : Prop := L = K

/-- A closing bracket is due, and `K` behind it: nothing else could follow, or there is one, or no
tokens are left. -/
inductive Closable (K : TokenLanguage) : List Token → TokenLanguage → Prop
  | due (ts : List Token) : Closable K ts (word .closing * K)
  | here {t : Token} {ts : List Token} {L : TokenLanguage} (ht : t.closes = true)
      (hL : L.leftQuotient [t] = K) : Closable K (t :: ts) L
  | ended (L : TokenLanguage) : Closable K [] L

namespace Reply.Tracks

variable {r : Reply α} {ds : List Diagnostic} {mid : Position}

theorem mono {D' : α → List Token → TokenLanguage → Prop} (h : r.Tracks L pos D)
    (hD : ∀ a us R, D a us R → D' a us R) : r.Tracks L pos D' := by
  cases r with
  | done a trace after =>
      refine ⟨?_, h.2⟩
      intro hnotes
      obtain ⟨xs, hxs, ha⟩ := h.1 hnotes
      exact ⟨xs, hxs, hD a _ _ ha⟩
  | failed why trace after => exact h
  | fault f trace after => trivial

/-- Before the answer the tokens `xs` were read, and nothing was found. -/
theorem behind (xs : List Token) (hxs : pos.rest = xs ++ mid.rest) (htrace : trace.notes = [])
    (h : r.Tracks (L.leftQuotient xs) mid D) : (r.behind trace).Tracks L pos D := by
  cases r with
  | done a more after =>
      have hnotes : (trace ++ more).notes = more.notes := by simp [htrace]
      constructor
      · intro hnone
        obtain ⟨ys, hys, ha⟩ := h.1 (hnotes ▸ hnone)
        refine ⟨xs ++ ys, by rw [hxs, hys, List.append_assoc], ?_⟩
        rwa [Language.leftQuotient_append]
      · intro d hd
        rw [hxs]
        exact (h.2 d (hnotes ▸ hd)).append
  | failed why more after =>
      show ((trace ++ more).notes.headD why).Truthful L pos.rest
      rw [Trace.notes_append, htrace, List.nil_append, hxs]
      exact Diagnostic.Truthful.append h
  | fault f more after => trivial

/-- Before the answer there was a finding, so all that matters is this. -/
theorem of_note (hnotes : trace.notes = d :: ds) (hd : d.Truthful L pos.rest) (r : Reply α) :
    (r.behind trace).Tracks L pos D := by
  cases r with
  | done a more after =>
      constructor
      · intro hnone
        rw [Trace.notes_append, hnotes] at hnone
        cases hnone
      · intro d' hd'
        rw [Trace.notes_append, hnotes] at hd'
        cases hd'
        exact hd
  | failed why more after =>
      show ((trace ++ more).notes.headD why).Truthful L pos.rest
      rw [Trace.notes_append, hnotes]
      exact hd
  | fault f more after => trivial

/-- An answer was given instead of a failure. -/
theorem of_failed (h : (trace.notes.headD why).Truthful L pos.rest)
    (hr : why.Truthful L pos.rest → r.Tracks L pos D) : (r.behind trace).Tracks L pos D := by
  cases hnotes : trace.notes with
  | nil =>
      rw [hnotes] at h
      exact behind [] rfl hnotes (hr h)
  | cons d ds =>
      rw [hnotes] at h
      exact of_note hnotes h r

theorem leaving {counted : Bool} (h : r.Tracks L pos D) : (r.leaving counted).Tracks L pos D := by
  cases r with
  | done a trace after => simpa [Tracks, Reply.leaving, Position.leave] using h
  | failed why trace after => simpa [Tracks, Reply.leaving] using h
  | fault f trace after => trivial

end Reply.Tracks

namespace Parse

variable {p : Parse α} {g : α → Parse β}

/-! ## Rules -/

theorem tracks_bind (hp : (p ctx pos).Tracks L pos D)
    (hg : ∀ a after R, D a after.rest R → (g a ctx after).Tracks R after E) :
    ((p >>= g) ctx pos).Tracks L pos E := by
  rw [bind_apply]
  cases hr : p ctx pos with
  | done a trace after =>
      rw [hr] at hp
      cases hnotes : trace.notes with
      | nil =>
          obtain ⟨xs, hxs, ha⟩ := hp.1 hnotes
          exact .behind xs hxs hnotes (hg a after _ ha)
      | cons d ds =>
          have hd : d.Truthful L pos.rest := hp.2 d (by simp [hnotes])
          exact .of_note hnotes hd _
  | failed why trace after =>
      rw [hr] at hp
      exact hp
  | fault f trace after => trivial

theorem tracks_pure {a : α} (ha : D a pos.rest L) : ((pure a : Parse α) ctx pos).Tracks L pos D :=
  ⟨fun _ => ⟨[], rfl, ha⟩, by simp⟩

theorem tracks_map {f : α → β} (hp : (p ctx pos).Tracks L pos fun a us R => E (f a) us R) :
    ((f <$> p) ctx pos).Tracks L pos E := by
  rw [← bind_pure_comp]
  exact tracks_bind hp fun a after R ha => tracks_pure ha

/-- A token is read first. -/
theorem tracks_advance_bind {g : Token → Parse β} (hrest : pos.rest = t :: ts)
    (hg : (g t ctx (pos.moveTo ts)).Tracks (L.leftQuotient [t]) (pos.moveTo ts) E) :
    ((advance >>= g) ctx pos).Tracks L pos E := by
  have hsplit : pos.rest = [t] ++ (pos.moveTo ts).rest := hrest
  rw [bind_apply, advance, hrest]
  exact .behind [t] hsplit rfl hg

/-- At the end of the input there is no token that is unexpected. -/
theorem tracks_fail_nil (hrest : pos.rest = []) :
    ((fail expected : Parse α) ctx pos).Tracks L pos D := by
  show (surprise ctx pos expected).Truthful L pos.rest
  rw [surprise, hrest]
  intro t expected' hd
  cases hd

/-- The next token is unexpected. -/
theorem tracks_fail_cons (hrest : pos.rest = t :: ts) (hL : Live L)
    (ht : L.leftQuotient [t] = 0) (hexpected : ∀ s ∈ expected, Alternative L s) :
    ((fail expected : Parse α) ctx pos).Tracks L pos D := by
  show (surprise ctx pos expected).Truthful L pos.rest
  rw [surprise, hrest]
  exact Diagnostic.truthful_unexpected hL ht hexpected

theorem tracks_reject (h : why.IsOther) : ((reject why : Parse α) ctx pos).Tracks L pos D :=
  h.truthful

/-- After a finding has been made, wherever that is, nothing else matters. -/
theorem tracks_note_bind {q : Parse β} {after : Position} (h : d.Truthful L pos.rest) :
    ((note d >>= fun _ => q) ctx after).Tracks L pos E :=
  .of_note rfl h _

theorem tracks_withRounds {p : Nat → Parse α}
    (hp : ∀ rounds, (p rounds ctx pos).Tracks L pos D) : (withRounds p ctx pos).Tracks L pos D :=
  hp _

/-- A form that is skipped is found to be wrong. -/
theorem tracks_recover {start : List Token} {D : Parsed α → List Token → TokenLanguage → Prop}
    {after : Position} (h : d.Truthful L pos.rest) :
    (recover start d ctx after).Tracks L pos D :=
  tracks_note_bind h

/-! ## Forms -/

/-- What is recorded about a form is what was found inside it, if it is about a token. -/
theorem truthful_explain (h : why.Truthful L ts) (construct : String) :
    (explain o construct why).Truthful L ts := by
  cases hend : why.atEnd with
  | true =>
      intro t expected hd
      rw [explain, if_pos hend] at hd
      cases hd
  | false =>
      intro t expected hd
      rw [explain_cause hend] at hd
      exact h t expected hd

/-- A form without findings is whole, and was read by the parser for what is inside it. -/
theorem tracks_form {inner : Token → Parse α} {construct : String} (hrest : pos.rest = o :: ts)
    (hinner : ∀ counted, (inner o ctx (pos.enter counted ts)).Tracks (L.leftQuotient [o])
      (pos.enter counted ts) (Leaves K)) :
    (form construct inner ctx pos).Tracks L pos fun p _ R => (∃ a, p = .whole a) ∧ R = K := by
  unfold form
  rw [hrest]
  dsimp only
  split
  · -- Too deep, which is no finding about a token.
    exact tracks_recover (Diagnostic.isOther_remark _ _ _).truthful
  · have hinner := hinner (ctx.counts pos o)
    have hsplit : pos.rest = [o] ++ (pos.enter (ctx.counts pos o) ts).rest := hrest
    refine .leaving (.behind [o] hsplit rfl ?_)
    unfold guarded
    cases hr : inner o ctx (pos.enter (ctx.counts pos o) ts) with
    | done a trace after =>
        rw [hr] at hinner
        refine ⟨fun hnotes => ?_, hinner.2⟩
        obtain ⟨xs, hxs, hK⟩ := hinner.1 hnotes
        exact ⟨xs, hxs, ⟨a, rfl⟩, hK⟩
    | failed why trace after =>
        rw [hr] at hinner
        dsimp only
        split
        · exact hinner
        · exact .of_failed hinner fun h => tracks_recover (truthful_explain h construct)
    | fault f trace after => trivial

/-- The last step inside a form: its closing bracket. -/
theorem tracks_closed {f : Token → β} (hK : Live K) (h : Closable K pos.rest L) :
    ((do let closed ← close; return f closed : Parse β) ctx pos).Tracks L pos (Leaves K) := by
  rw [close, bind_assoc, nextCloses_bind_apply]
  split
  · rename_i hcloses
    obtain ⟨c, rest, hrest, hc⟩ := nextCloses_eq_true hcloses
    refine tracks_advance_bind hrest (tracks_pure ?_)
    show L.leftQuotient [c] = K
    rw [hrest] at h
    cases h with
    | due => simp [eq_of_beq hc]
    | here _ hL => exact hL
  · rename_i hcloses
    refine tracks_bind (D := fun _ _ _ => False) ?_ fun _ _ _ h => h.elim
    cases hrest : pos.rest with
    | nil => exact tracks_fail_nil hrest
    | cons t us =>
        rw [hrest] at h hcloses
        cases h with
        | due =>
            have ht : t.lexeme ≠ .keyword .closing := fun ht => hcloses (beq_iff_eq.2 ht)
            refine tracks_fail_cons hrest ((live_word _).mul hK) (by simp [ht]) ?_
            exact List.forall_mem_singleton.2 (alternative_mul instances_closing hK)
        | here ht _ => exact absurd ht hcloses

end Parse

end SchemeFront
