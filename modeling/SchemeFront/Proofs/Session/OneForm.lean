import SchemeFront.Proofs.Session.Totality
import SchemeFront.Proofs.Token.Extents

set_option autoImplicit false

/-! # Readers take one form

Where a form ends can be found by counting brackets (`Token.afterForm`). Every reader that begins
at a form stops there: the reader of data, and the parser, whether it parsed the form, recorded a
failure in it or refused it (`Session.readers_take_one_form`). Only a form that is never closed can
fail, at the end of the input. What is read inside a form never goes behind the bracket that
closes it (`Token.WithinForm`).
-/

namespace SchemeFront

open Token

variable {α : Type} {P : Lexeme → Prop} {ctx : Context} {pos : Position} {tokens ts : List Token}
  {i n : Nat}

namespace Token

/-! ## Indices -/

/-- The tokens that are left at the index `i`. -/
structure LeftAt (tokens : List Token) (i : Nat) (rest : List Token) : Prop where
  le_length : i ≤ tokens.length
  eq_drop : rest = tokens.drop i

/-- What is left behind the form that begins at the index `i`. -/
def LeftBehind (tokens : List Token) (i : Nat) (rest : List Token) : Prop :=
  ∃ stop : Nat, afterForm tokens i = .ok stop ∧ LeftAt tokens stop rest

/-- What is left at an index inside the form that begins at the index `i`, its closing bracket not
being read: this index can only be where the form ends if the form is never closed. -/
def WithinForm (tokens : List Token) (i : Nat) (rest : List Token) : Prop :=
  ∃ j stop : Nat, afterForm tokens i = .ok stop ∧ LeftAt tokens j rest ∧ i < j ∧ j ≤ stop ∧
    (j = stop → NeverClosed (tokens.drop i))

/-- Further on from an index. -/
theorem leftAt_of_drop_eq_append {xs us : List Token} (h : tokens.drop i = xs ++ us)
    (hi : i ≤ tokens.length) : LeftAt tokens (i + xs.length) us where
  le_length := by
    have hlen := congrArg List.length h
    rw [List.length_drop, List.length_append] at hlen
    omega
  eq_drop := by rw [← List.drop_drop, h, List.drop_left]

theorem leftBehind_of_drop_eq_cons {t : Token} (h : tokens.drop i = t :: ts) :
    LeftBehind tokens i ((t :: ts).drop (extent (t :: ts))) := by
  have hlen := length_eq_of_drop_eq_cons h
  have hle := extent_le_length (t :: ts)
  exact ⟨_, afterForm_of_drop_eq_cons h, by omega, by rw [← List.drop_drop, h]⟩

/-- If reading inside a form has come to where the form ends, then the form is never closed. -/
theorem neverClosed_of_extent_eq {t : Token} {xs us : List Token} (ht : t.opens = true)
    (hx : Confined xs) (h : extent (t :: (xs ++ us)) = xs.length + 1) :
    NeverClosed (t :: (xs ++ us)) := by
  rw [neverClosed_cons_iff ht]
  rcases closed_or_confined (xs ++ us) with ⟨ys, c, vs, hsplit, hy, hc⟩ | hconf
  · -- Otherwise the closing bracket would be the last of `xs`.
    rw [hsplit, extent_of_balanced ht hy hc] at h
    have hxs : xs = ys ++ [c] := by
      have htake := congrArg (List.take (ys.length + 1)) hsplit
      rwa [List.take_left' (by omega), List.append_cons, List.take_left' (by simp)] at htake
    exact absurd (hxs ▸ hx) (not_confined_of_balanced_append hy hc)
  · exact hconf

/-- What is reached inside the brackets of a form is left inside the form. -/
theorem withinForm_of_reaches {t : Token} {us : List Token} (h : tokens.drop i = t :: ts)
    (ht : t.opens = true) (hreach : Reaches 0 ts us) : WithinForm tokens i us := by
  obtain ⟨xs, rfl, hx⟩ := hreach
  have hlen := length_eq_of_drop_eq_cons h
  have hlt := length_lt_extent ht hx us
  refine ⟨i + (t :: xs).length, _, afterForm_of_drop_eq_cons h,
    leftAt_of_drop_eq_append h (by omega), ?_, ?_, ?_⟩
  · simp
  · rw [List.length_cons]
    omega
  · intro heq
    rw [List.length_cons] at heq
    rw [h]
    exact neverClosed_of_extent_eq ht hx (by omega)

end Token

/-! ## Forms -/

namespace Parse

/-- Parsing the form that begins at the index `i` takes just this form, and leaves the depth and
the open forms as they were. If it fails, the input has ended and the form is never closed. The
parser of what is inside comes behind the form with its last step, and not before. -/
structure TakesForm (ctx : Context) (tokens : List Token) (i : Nat) (pos : Position)
    (construct : String) (inner : Token → Parse α) : Prop where
  outside : (form construct inner ctx pos).Ensures
    (fun _ _ after => after.depth = pos.depth ∧ after.forms = pos.forms ∧
      LeftBehind tokens i after.rest)
    (fun _ _ after => after.depth = pos.depth ∧ after.forms = pos.forms ∧ after.rest = [] ∧
      NeverClosed (tokens.drop i))
  inside : ∀ opened tail counted, tokens.drop i = opened :: tail →
    (inner opened ctx (pos.enter counted tail)).Ensures
      (fun _ trace after => LeftBehind tokens i after.rest ∧ ∃ earlier,
        trace.positions = earlier ++ [after] ∧ ∀ q ∈ earlier, WithinForm tokens i q.rest)
      (fun _ trace after => WithinForm tokens i after.rest ∧
        ∀ q ∈ trace.positions, WithinForm tokens i q.rest)

/-- A form takes just its tokens if what is inside is read up to the closing bracket. -/
theorem takesForm_of_closing {construct : String} {inner : Token → Parse α} {Q : α → Prop}
    {opened : Token} {tail : List Token} (hpos : pos.rest = tokens.drop i)
    (h : tokens.drop i = opened :: tail) (ho : opened.opens = true)
    (hlands : (form construct inner ctx pos).Lands P pos Q)
    (hinner : ∀ counted, (inner opened ctx (pos.enter counted tail)).Closing P
      (pos.enter counted tail) Q) : TakesForm ctx tokens i pos construct inner where
  outside := by
    refine Reply.Ensures.mono hlands ?_ ?_
    · rintro a trace after ⟨rfl, -⟩
      refine ⟨rfl, rfl, ?_⟩
      rw [Position.moveTo_rest, hpos, h]
      exact leftBehind_of_drop_eq_cons h
    · rintro why trace after ⟨rfl, hnever, -⟩
      exact ⟨rfl, rfl, rfl, hpos ▸ hnever⟩
  inside := by
    -- The bracket and what is behind it are determined by the index.
    intro opened' tail' counted h'
    obtain ⟨rfl, rfl⟩ := List.cons.inj (h'.symm.trans h)
    refine Reply.Ensures.mono (hinner counted) ?_ ?_
    · rintro a trace after ⟨c, rest, rfl, hc, hpass, ⟨earlier, hpositions, hearlier⟩, -⟩
      refine ⟨?_, earlier, hpositions, fun q hq => withinForm_of_reaches h ho (hearlier q hq)⟩
      obtain ⟨xs, htail, hx | ⟨hnil, -⟩⟩ := hpass
      · rw [Position.enter_rest] at htail
        subst htail
        have hbehind := leftBehind_of_drop_eq_cons h
        rwa [drop_extent_of_balanced ho hx hc] at hbehind
      · cases hnil
    · rintro why trace after ⟨rest, rfl, hreach, htrace, -⟩
      exact ⟨withinForm_of_reaches h ho hreach,
        fun q hq => withinForm_of_reaches h ho (htrace.reaches q hq)⟩

/-- The forms of expressions. -/
theorem takesForm_formOf {inner : Inner} {opened : Token} {tail : List Token}
    (hinner : inner.Tidy P ctx n) (hs : Supply P (n + 1) pos.rest)
    (hpos : pos.rest = tokens.drop i) (h : tokens.drop i = opened :: tail)
    (ho : opened.opens = true) :
    TakesForm ctx tokens i pos (formOf inner pos.rest[1]?).1 (formOf inner pos.rest[1]?).2 := by
  have hrest := hpos.trans h
  have hhead : pos.rest[1]? = tail[0]? := by simp [hrest]
  refine takesForm_of_closing hpos h ho (form_formOf_lands hinner hs hrest ho) ?_
  intro counted
  rw [hhead]
  exact closing_formOf (pos.enter counted tail) hinner (hs.tail hrest)

/-- The forms of definitions. -/
theorem takesForm_definition {inner : Inner} {opened : Token} {tail : List Token}
    (hinner : inner.Tidy P ctx n) (hs : Supply P (n + 1) pos.rest)
    (hpos : pos.rest = tokens.drop i) (h : tokens.drop i = opened :: tail)
    (ho : opened.opens = true) (hword : tail[0]?.map Token.lexeme = some (.keyword .define)) :
    TakesForm ctx tokens i pos "definition" (definition inner) := by
  have hrest := hpos.trans h
  refine takesForm_of_closing hpos h ho (form_definition_lands hinner hs hrest ho hword) ?_
  intro counted
  exact closing_definition (pos.enter counted tail) hinner (hs.tail hrest) hword

end Parse

/-! ## Data -/

namespace Datum

variable {limit : Int} {endOfInput : Span} {fuel : Nat} {t : Token}

/-- Reading a datum takes just the form that begins at the index `i`. -/
theorem exists_read_leftBehind (h : Ascending tokens) (hi : tokens.drop i = t :: ts)
    (hfuel : fuelFor (t :: ts) ≤ fuel) (depth : Nat) :
    ∃ r, read limit endOfInput fuel depth t ts = .ok r ∧ LeftBehind tokens i r.rest ∧
      r.depth = depth := by
  have hasc : Ascending (t :: ts) := hi ▸ h.of_suffix (List.drop_suffix i tokens)
  obtain ⟨r, hr, htakes⟩ := read_takes (P := fun _ => True) limit endOfInput fuel depth t ts
    hfuel hasc (restores_lexeme _)
  exact ⟨r, hr, htakes.rest_eq ▸ leftBehind_of_drop_eq_cons hi, htakes.depth_eq⟩

/-- All tokens in order are read as data. -/
theorem exists_readAll_eq_ok (limit : Int) (endOfInput : Span) (h : Ascending tokens) :
    ∃ r, readAll limit endOfInput tokens = .ok r ∧ r.rest = [] ∧ r.depth = 0 := by
  obtain ⟨r, hr, hdepth, hrest, -⟩ := readFrom_takes (P := fun _ => True) limit endOfInput 0
    (Nat.le_refl _) h (restores_lexeme tokens)
    (fun _ _ => trivial)
  exact ⟨r, hr, hrest, hdepth⟩

end Datum

/-! ## All readers -/

namespace Session

/-- **Readers take one form.** With tokens in order, reading a datum and parsing a form that
begins at any index end behind this form, in the depth and the open forms they began with, and so
all tokens are read, as data and as a program. The tokens of a source are in order, and they are
when sequences in them are expanded. -/
theorem readers_take_one_form :
    (∀ tokens, Ascending tokens →
      (∀ limit endOfInput depth fuel i t ts, tokens.drop i = t :: ts →
        Datum.fuelFor (t :: ts) ≤ fuel →
        ∃ r, Datum.read limit endOfInput fuel depth t ts = .ok r ∧ LeftBehind tokens i r.rest ∧
          r.depth = depth) ∧
      (∀ ctx level i pos opened tail, pos.rest = tokens.drop i →
        tokens.drop i = opened :: tail → opened.opens = true → pos.rest.length ≤ level →
        Parse.TakesForm ctx tokens i pos (Parse.formOf (Parse.nested level) pos.rest[1]?).1
          (Parse.formOf (Parse.nested level) pos.rest[1]?).2 ∧
        (tail[0]?.map Token.lexeme = some (.keyword .define) →
          Parse.TakesForm ctx tokens i pos "definition"
            (Parse.definition (Parse.nested level)))) ∧
      (∀ limit endOfInput, ∃ r, Datum.readAll limit endOfInput tokens = .ok r ∧ r.rest = [] ∧
        r.depth = 0) ∧
      (∀ ctx, ∃ p trace, Parse.program ctx { rest := tokens } = .done p trace { rest := [] })) ∧
    (∀ src l, Lexed.ofSource src = .ok l → Ascending l.tokens ∧
      ∀ rules limit, (∀ r ∈ rules, r = Transformer.sequence) →
        ∃ events x, Expansion.ofTokens rules limit src l.tokens = (events, .ok x) ∧
          Ascending x.tokens) := by
  constructor
  · intro tokens h
    refine ⟨?_, ?_, fun limit endOfInput => Datum.exists_readAll_eq_ok limit endOfInput h, ?_⟩
    · intro limit endOfInput depth fuel i t ts hi hfuel
      exact Datum.exists_read_leftBehind h hi hfuel depth
    · -- What the tokens say does not matter here, nor what is left behind the form.
      intro ctx level i pos opened tail hpos hi ho hlevel
      have hs : Supply (fun _ => True) (level + 1) pos.rest := by
        refine ⟨Nat.lt_succ_of_le hlevel, ?_, fun _ _ => trivial⟩
        rw [hpos]
        exact h.of_suffix (List.drop_suffix i tokens)
      have hinner := Parse.nested_tidy (P := fun _ => True) ctx level
      exact ⟨Parse.takesForm_formOf hinner hs hpos hi ho,
        fun hword => Parse.takesForm_definition hinner hs hpos hi ho hword⟩
    · intro ctx
      have hs : Supply (fun _ => True) (tokens.length + 1) tokens :=
        ⟨Nat.lt_succ_self _, h, fun _ _ => trivial⟩
      obtain ⟨p, trace, hdone, -⟩ :=
        Parse.exists_program_eq_done ctx { rest := tokens } hs rfl
      exact ⟨p, trace, hdone⟩
  · intro src l hl
    refine ⟨(Lexed.separate hl).ascending, ?_⟩
    intro rules limit hrules
    obtain ⟨events, x, -, hx, -, hasc, -⟩ := Expansion.exists_ofTokens_eq_ok (P := fun _ => True)
      hrules limit (fun _ => trivial) hl (fun _ _ => trivial)
    exact ⟨events, x, hx, hasc⟩

/-- Three brackets in one place, the last of which is never closed: the first two are read where no
list is allowed, and the last is parsed inside another form. -/
theorem readers_take_one_form_brackets :
    ∃ o c : Token, o.opens = true ∧ c.closes = true ∧ Ascending [o, c, o] ∧
      (∃ r, Datum.read 0 (Span.point "a.scm" 9) 6 1 o [c, o] = .ok r ∧
        LeftBehind [o, c, o] 0 r.rest ∧ r.depth = 1) ∧
      Parse.TakesForm (Context.ofSource 5 ⟨"a.scm", "()(".toList⟩) [o, c, o] 2
        { depth := 1, forms := [true], rest := [o] } "procedure call"
        (Parse.call (Parse.nested 1)) := by
  have hasc : Ascending [⟨.keyword .opening, Span.point "a.scm" 2⟩,
      ⟨.keyword .closing, Span.point "a.scm" 2⟩, ⟨.keyword .opening, Span.point "a.scm" 2⟩] := by
    unfold Ascending
    decide +kernel
  obtain ⟨hread, hform, -⟩ := readers_take_one_form.1 _ hasc
  exact ⟨⟨.keyword .opening, Span.point "a.scm" 2⟩, ⟨.keyword .closing, Span.point "a.scm" 2⟩,
    rfl, rfl, hasc, hread 0 (Span.point "a.scm" 9) 1 6 0 _ _ rfl (Nat.le_refl 6),
    (hform (Context.ofSource 5 ⟨"a.scm", "()(".toList⟩) 1 2
      { depth := 1, forms := [true], rest := [⟨.keyword .opening, Span.point "a.scm" 2⟩] }
      _ _ rfl rfl rfl (Nat.le_refl 1)).1⟩

end Session

end SchemeFront
