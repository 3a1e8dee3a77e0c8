import SchemeFront.Proofs.Datum.Reading
import SchemeFront.Proofs.Lexer.Layout

set_option autoImplicit false

/-! # Reading and flattening a source

The tokens of a source are separate and its brackets are single characters, so flattening the data
that were read gives the tokens back, spans included; of any other tokens in order, what they say
comes back (`Datum.flattenAll_ofTokens`). It does not matter whether brackets are balanced, or how
deeply lists may be nested.
-/

namespace SchemeFront

open Token

/-! ## Brackets and spans of lists -/

/-- A span of one character is the first of a span that begins with it. -/
theorem Span.first_join {s t : Span} (hs : s.stop = s.start + 1) (h : s.start ≤ t.start) :
    (s.join t).first = s := by
  obtain ⟨path, start, stop, hle⟩ := s
  simp only at hs h
  subst hs
  simp only [first, join, ofLength, Int.min_eq_left h, Int.natCast_one]

/-- A span of one character is the last of a span that ends with it. -/
theorem Span.final_join {s t : Span} (ht : t.stop = t.start + 1) (hpath : s.path = t.path)
    (h : s.stop ≤ t.stop) : (s.join t).final = t := by
  obtain ⟨path, start, stop, hle⟩ := t
  simp only at ht hpath h
  subst ht hpath
  simp only [final, join, ofLength, Int.max_eq_right h, Int.natCast_one, Int.add_sub_cancel]

/-- The brackets of a source can be derived from the ends of the spans of its lists. -/
theorem Lexed.restores {src : Source} {l : Lexed} (h : ofSource src = .ok l) :
    Token.Restores id l.tokens := by
  -- Each bracket is one character wide, and in the same file as the other.
  refine List.Pairwise.imp_of_mem ?_ (Lexed.separate h).ordered
  intro o c ho hc hle hopens hcloses
  obtain ⟨-, -, -, -, hopath, -⟩ := Lexed.exists_of_mem h ho
  obtain ⟨-, -, -, -, hcpath, -⟩ := Lexed.exists_of_mem h hc
  have hostop : o.span.stop = o.span.start + 1 := Lexed.stop_of_isKeyword h ho hopens
  have hcstop : c.span.stop = c.span.start + 1 := Lexed.stop_of_isKeyword h hc hcloses
  have hopening : o.lexeme = .keyword .opening := eq_of_beq hopens
  have hclosing : c.lexeme = .keyword .closing := eq_of_beq hcloses
  constructor
  · rw [Span.first_join hostop (by omega), ← hopening]
  · rw [Span.final_join hcstop (by rw [hopath, hcpath]) (by omega), ← hclosing]

/-! ## Round trip -/

namespace Datum

/-- What reading gives, whatever `f` shows of the tokens. -/
theorem ofTokens_takes {β : Type} {f : Token → β} {ts : List Token} (limit : Int) (src : Source)
    (h : Ascending ts) (hf : Restores f ts) :
    ∃ data report?, ofTokens limit src ts = .ok (data, report?) ∧
      (flattenAll data).map f = ts.map f := by
  obtain ⟨r, hr, -, -, -, hflat⟩ := readFrom_takes (P := fun _ => True) limit src.endOfInput 0
    (Nat.le_refl _) h hf (fun _ _ => trivial)
  refine ⟨r.value, Report.of? .syntactic r.notes src, ?_, hflat⟩
  rw [ofTokens, readAll, hr]
  rfl

/-- The tokens of a source are read, and come back with their spans. -/
theorem exists_readAll {src : Source} {l : Lexed} (limit : Int) (h : Lexed.ofSource src = .ok l) :
    ∃ r, readAll limit src.endOfInput l.tokens = .ok r ∧ flattenAll r.value = l.tokens := by
  obtain ⟨r, hr, -, -, -, hflat⟩ := readFrom_takes (P := fun _ => True) limit src.endOfInput 0
    (Nat.le_refl _) (Lexed.separate h).ascending (Lexed.restores h) (fun _ _ => trivial)
  rw [List.map_id, List.map_id] at hflat
  exact ⟨r, hr, hflat⟩

/-- **Flattening inverts reading.** The tokens of a source come back as they were, with their
spans, and of any tokens in order what they say comes back. -/
theorem flattenAll_ofTokens (limit : Int) (src : Source) :
    (∀ l, Lexed.ofSource src = .ok l → ∃ data report?,
      ofTokens limit src l.tokens = .ok (data, report?) ∧ flattenAll data = l.tokens) ∧
    (∀ ts, Ascending ts → ∃ data report?, ofTokens limit src ts = .ok (data, report?) ∧
      (flattenAll data).map Token.lexeme = ts.map Token.lexeme) := by
  constructor
  · -- Of the tokens of a source, everything is restored.
    intro l hl
    obtain ⟨data, report?, hdata, hflat⟩ :=
      ofTokens_takes limit src (Lexed.separate hl).ascending (Lexed.restores hl)
    rw [List.map_id, List.map_id] at hflat
    exact ⟨data, report?, hdata, hflat⟩
  · intro ts h
    exact ofTokens_takes limit src h (restores_lexeme ts)

/-- A bracket too many, a list that is too deep, a character that belongs to no token and a list
that is never closed; and tokens that all stand in one place. -/
theorem flattenAll_ofTokens_broken :
    (∃ l data report?, Lexed.ofSource ⟨"a.scm", "x) (a (b 1.50)) ' (c".toList⟩ = .ok l ∧
      ofTokens 1 ⟨"a.scm", "x) (a (b 1.50)) ' (c".toList⟩ l.tokens = .ok (data, report?) ∧
      flattenAll data = l.tokens) ∧
    (∃ data report?,
      Ascending [⟨.keyword .opening, Span.point "b.scm" 2⟩, ⟨.keyword .point, Span.point "b.scm" 2⟩,
        ⟨.keyword .closing, Span.point "b.scm" 2⟩] ∧
      ofTokens 1 ⟨"a.scm", "x) (a (b 1.50)) ' (c".toList⟩
        [⟨.keyword .opening, Span.point "b.scm" 2⟩, ⟨.keyword .point, Span.point "b.scm" 2⟩,
          ⟨.keyword .closing, Span.point "b.scm" 2⟩] = .ok (data, report?) ∧
      (flattenAll data).map Token.lexeme
        = [.keyword .opening, .keyword .point, .keyword .closing]) := by
  constructor
  · have hlexed : (Lexed.ofSource ⟨"a.scm", "x) (a (b 1.50)) ' (c".toList⟩).toOption.isSome := by
      decide +kernel
    cases hl : Lexed.ofSource ⟨"a.scm", "x) (a (b 1.50)) ' (c".toList⟩ with
    | error fault =>
        rw [hl] at hlexed
        cases hlexed
    | ok l =>
        obtain ⟨data, report?, h⟩ := (flattenAll_ofTokens 1 _).1 l hl
        exact ⟨l, data, report?, rfl, h⟩
  · have hasc : Ascending [⟨.keyword .opening, Span.point "b.scm" 2⟩,
        ⟨.keyword .point, Span.point "b.scm" 2⟩, ⟨.keyword .closing, Span.point "b.scm" 2⟩] := by
      unfold Ascending
      decide +kernel
    obtain ⟨data, report?, h⟩ := (flattenAll_ofTokens 1 ⟨"a.scm", "x) (a (b 1.50)) ' (c".toList⟩).2
      _ hasc
    exact ⟨data, report?, hasc, h⟩

end Datum

end SchemeFront
