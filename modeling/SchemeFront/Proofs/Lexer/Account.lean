import SchemeFront.Proofs.Lexer.Parts

set_option autoImplicit false

/-! # Every character is accounted for

Each character of a source is in a token, in a comment, blank, or reported
(`Lexed.accountsFor`). Which of these it is can be told without scanning: a comment by a semicolon
before it on its line, and a character that is reported by the two characters behind it.
-/

namespace SchemeFront

open Text

/-- The offset `i` lies in the span. -/
def Span.Covers (s : Span) (i : Nat) : Prop := s.start ≤ i ∧ (i : Int) < s.stop

namespace Source

/-- The offset `i` lies in a comment that was cut out of the source. -/
def InComment (src : Source) (i : Nat) : Prop :=
  ∃ before text behind,
    StandsIn Piece.text (Piece.pieces false src.text) before (.comment text) behind ∧
      before.length ≤ i ∧ i < before.length + text.length

/-- A letter `t` or `f` at the offset `i`, with no identifier character behind it. -/
def IsBooleanLetter (src : Source) (i : Nat) : Prop :=
  (src.text[i]? = some 't' ∨ src.text[i]? = some 'f') ∧
    ∀ c, src.text[i + 1]? = some c → isIdentifier c = false

/-- The character at the offset `i` belongs to no token and is not blank, to judge by it and the
two characters behind it. -/
def IsStray (src : Source) (i : Nat) : Prop :=
  ∃ c, src.text[i]? = some c ∧ isBlank c = false ∧ isIdentifier c = false ∧
    c ∉ ['(', ')', '.'] ∧ ¬ (c = '#' ∧ src.IsBooleanLetter (i + 1))

end Source

/-- What becomes of a character. -/
inductive Role where
  | lexeme
  | comment
  | blank
  | stray
deriving DecidableEq

namespace Lexed

/-- The character at the offset `i` is in exactly one token, or in a comment, or a blank outside
of both, or one finding is about it and says so. -/
def Plays (l : Lexed) (src : Source) (i : Nat) : Role → Prop
  | .lexeme => ∃! t, t ∈ l.tokens ∧ t.span.Covers i
  | .comment => src.InComment i
  | .blank => (∃ c, src.text[i]? = some c ∧ isBlank c = true) ∧
      (¬ ∃ t ∈ l.tokens, t.span.Covers i) ∧ ¬ src.InComment i
  | .stray => (∃! d, d ∈ l.diagnostics ∧ d.span.Covers i) ∧
      ∃ c, src.text[i]? = some c ∧ strayChar src.path i c ∈ l.diagnostics

/-- The tokens and findings account for every character of the source. -/
structure AccountsFor (l : Lexed) (src : Source) : Prop where
  /-- No token is empty, and each ends before the next one begins. -/
  separate : Token.Separate l.tokens
  bounded : ∀ t ∈ l.tokens, 0 ≤ t.span.start ∧ t.span.stop ≤ src.text.length
  role : ∀ i, i < src.text.length → ∃! r, l.Plays src i r
  /-- The findings are in order, and each is about one stray character. -/
  ordered : l.diagnostics.Pairwise fun d e => d.span.start < e.span.start
  single : ∀ d ∈ l.diagnostics, ∃ i c, src.text[i]? = some c ∧ d = strayChar src.path i c
  comment : ∀ i, i < src.text.length → (src.InComment i ↔ IsBehindSemicolon src.text i)
  reported : ∀ i, i < src.text.length → ¬ src.InComment i →
    ((∃ d ∈ l.diagnostics, d.span.Covers i) ↔ src.IsStray i)

end Lexed

/-! ## Comments -/

/-- The piece is a comment. -/
def Piece.isComment : Piece → Bool
  | comment _ => true
  | _ => false

/-- The part is a comment. -/
def Part.isComment : Part → Bool
  | comment _ => true
  | _ => false

theorem Piece.Proper.of_append {ps qs : List Piece} (h : Proper (ps ++ qs)) : Proper qs := by
  induction ps with
  | nil => exact h
  | cons p ps ih => exact ih h.2.2

theorem Piece.Proper.wellFormed {ps : List Piece} (h : Proper ps) : ∀ p ∈ ps, p.WellFormed := by
  induction ps with
  | nil => simp
  | cons p ps ih =>
      intro q hq
      rcases List.mem_cons.1 hq with rfl | hq
      · exact h.1
      · exact ih h.2.2 q hq

theorem Source.lt_length_of_getElem? {src : Source} {i : Nat} {c : Char}
    (h : src.text[i]? = some c) : i < src.text.length := by
  obtain ⟨hi, -⟩ := List.getElem?_eq_some_iff.1 h
  exact hi

namespace Source

variable {src : Source} {i : Nat}

/-- The comments that are cut out are those that semicolons begin. -/
theorem inComment_iff (hi : i < src.text.length) :
    src.InComment i ↔ IsBehindSemicolon src.text i := by
  have hproper := Piece.proper_pieces src.text
  have hcomment : ∀ {before p behind},
      StandsIn Piece.text (Piece.pieces false src.text) before p behind → p.isComment = true →
      (∃ body, p.text = ';' :: body ∧ '\n' ∉ body) ∧ ∀ c ∈ behind.head?, c = '\n' := by
    rintro before p behind ⟨ys, zs, hpieces, -, rfl⟩ hp
    rw [hpieces] at hproper
    cases p with
    | comment text => exact ⟨hproper.of_append.1, hproper.of_append.head?_flatMap⟩
    | _ => cases hp
  have hother : ∀ p ∈ Piece.pieces false src.text, p.isComment = false → ';' ∉ p.text := by
    intro p hmem hp
    have hform := hproper.wellFormed p hmem
    cases p with
    | comment text => cases hp
    | run text =>
        intro hsemi
        exact absurd (hform.2 ';' hsemi) (by decide)
    | mark c => simpa [Piece.text] using hform.2.symm
  have hlen : i < ((Piece.pieces false src.text).flatMap Piece.text).length := by
    rwa [Piece.flatMap_text_pieces]
  obtain ⟨before, p, behind, hp, hle, hlt⟩ := StandsIn.exists_of_lt hlen
  have key := StandsIn.isBehindSemicolon_iff hcomment hother hp hle hlt
  rw [Piece.flatMap_text_pieces] at key
  rw [key]
  constructor
  · rintro ⟨before', text, behind', htext, hle', hlt'⟩
    obtain ⟨-, rfl, -⟩ := hp.unique htext hle hlt hle' hlt'
    rfl
  · intro hc
    cases p with
    | comment text => exact ⟨before, text, behind, hp, hle, hlt⟩
    | _ => cases hc

end Source

/-! ## The parts and their characters -/

namespace Spelling

theorem not_mem_of_ofMark? {c : Char} (h : ofMark? c = none) : c ∉ ['(', ')', '.'] := by
  intro hc
  simp only [List.mem_cons, List.not_mem_nil, or_false] at hc
  rcases hc with rfl | rfl | rfl <;> cases h

end Spelling

namespace Part

/-- A character of a token is a bracket, a point or an identifier character, unless it is the
number sign of a boolean. -/
theorem mem_text_of_spelling? {before behind : List Char} {p : Part} {s : Spelling}
    (h : p.Fits before behind) (hs : p.spelling? = some s) {c : Char} (hc : c ∈ p.text) :
    isIdentifier c = true ∨ c ∈ ['(', ')', '.'] ∨ (c = '#' ∧ ∃ b, p = boolean b) := by
  cases p with
  | word run => exact .inl (h.1.identifiers c hc)
  | real whole part =>
      rcases List.mem_append.1 hc with hc | hc
      · exact .inl (Spelling.isIdentifier_of_isSignedDigits h.1 c hc)
      · rcases List.mem_cons.1 hc with rfl | hc
        · exact .inr (.inl (by decide))
        · exact .inl (Spelling.isIdentifier_of_isDigits h.2.1 c hc)
  | boolean b =>
      rcases List.mem_cons.1 hc with rfl | hc
      · exact .inr (.inr ⟨rfl, b, rfl⟩)
      · obtain rfl := List.mem_singleton.1 hc
        cases b <;> exact .inl (by decide)
  | mark k =>
      obtain ⟨d, hd⟩ := h
      rw [text, Spelling.text_of_ofMark? hd] at hc
      obtain rfl := List.mem_singleton.1 hc
      exact .inr (.inl (Spelling.mem_of_ofMark? hd))
  | _ => cases hs

/-- No semicolon stands outside of comments. -/
theorem not_mem_text {before behind : List Char} {p : Part} (h : p.Fits before behind)
    (hp : p.isComment = false) : ';' ∉ p.text := by
  intro hmem
  cases hs : p.spelling? with
  | some s =>
      rcases mem_text_of_spelling? h hs hmem with hc | hc | ⟨hc, -⟩
      · exact absurd hc (by decide)
      · exact absurd hc (by decide)
      · exact absurd hc (by decide)
  | none =>
      cases p with
      | comment body => cases hp
      | blank c =>
          obtain rfl := List.mem_singleton.1 hmem
          exact absurd (show isBlank ';' = true from h) (by decide)
      | stray c =>
          obtain rfl := List.mem_singleton.1 hmem
          exact h.2.2.2.1 rfl
      | _ => cases hs

/-- What becomes of the characters of a part. -/
def role : Part → Role
  | comment _ => .comment
  | blank _ => .blank
  | stray _ => .stray
  | _ => .lexeme

theorem role_eq_lexeme_iff {p : Part} : p.role = .lexeme ↔ ∃ s, p.spelling? = some s := by
  cases p <;> simp [role, spelling?]

theorem role_eq_comment_iff {p : Part} : p.role = .comment ↔ p.isComment = true := by
  cases p <;> simp [role, isComment]

/-- A number sign begins a boolean if a letter `t` or `f` without an identifier character behind
it follows. -/
theorem startsBoolean_iff {behind : List Char} : Spelling.StartsBoolean behind ↔
    (behind[0]? = some 't' ∨ behind[0]? = some 'f') ∧
      ∀ c, behind[1]? = some c → isIdentifier c = false := by
  constructor
  · rintro ⟨run, rest, rfl, hbool, hrest⟩
    have hnext : ∀ c, rest[0]? = some c → isIdentifier c = false := by
      intro c hc
      rw [startsInWord, List.head?_eq_getElem?, hc] at hrest
      exact hrest
    unfold Spelling.boolean? at hbool
    split at hbool
    · exact ⟨.inl rfl, hnext⟩
    · exact ⟨.inr rfl, hnext⟩
    · cases hbool
  · rintro ⟨hletter, hnext⟩
    cases behind with
    | nil => simp at hletter
    | cons d ds =>
        refine ⟨[d], ds, rfl, ?_, ?_⟩
        · simp only [List.getElem?_cons_zero, Option.some.injEq] at hletter
          rcases hletter with rfl | rfl
          · rfl
          · rfl
        · cases ds with
          | nil => rfl
          | cons e ds => exact hnext e rfl

end Part

theorem Source.isBooleanLetter_iff {src : Source} {i : Nat} :
    src.IsBooleanLetter i ↔ Spelling.StartsBoolean (src.text.drop i) := by
  rw [Part.startsBoolean_iff, List.getElem?_drop, List.getElem?_drop]
  rfl

namespace Source.HasParts

variable {src : Source} {ps : List Part} {l : Lexed} {before behind : List Char} {p : Part}
  {i : Nat} {c : Char}

theorem fits (hps : src.HasParts ps) (hp : StandsIn Part.text ps before p behind) :
    p.Fits before behind := hps.fitting.fits hp

/-- Every character of the source is in a part. -/
theorem exists_standsIn (hps : src.HasParts ps) (hi : i < src.text.length) :
    ∃ before p behind, StandsIn Part.text ps before p behind ∧ before.length ≤ i ∧
      i < before.length + p.text.length := by
  rw [← hps.text_eq] at hi
  exact StandsIn.exists_of_lt hi

/-- The character of the source at an offset is one of its part. -/
theorem getElem?_eq (hps : src.HasParts ps) (hp : StandsIn Part.text ps before p behind)
    (hle : before.length ≤ i) (hlt : i < before.length + p.text.length) :
    src.text[i]? = p.text[i - before.length]? := by
  rw [← hps.text_eq, hp.getElem? hle hlt]

theorem inComment_iff (hps : src.HasParts ps) (hp : StandsIn Part.text ps before p behind)
    (hle : before.length ≤ i) (hlt : i < before.length + p.text.length) :
    src.InComment i ↔ p.isComment = true := by
  have hlen : i < src.text.length := by
    rw [← hps.text_eq, hp.flatMap_eq]
    simp only [List.length_append]
    omega
  have hcomment : ∀ {before p behind}, StandsIn Part.text ps before p behind →
      p.isComment = true → (∃ body, p.text = ';' :: body ∧ '\n' ∉ body) ∧
        ∀ c ∈ behind.head?, c = '\n' := by
    intro before p behind hp hc
    have hfits := hps.fits hp
    cases p with
    | comment body => exact ⟨⟨body, rfl, hfits.1⟩, hfits.2⟩
    | _ => cases hc
  have hother : ∀ q ∈ ps, q.isComment = false → ';' ∉ q.text := by
    intro q hq hc
    obtain ⟨ys, zs, hys⟩ := List.append_of_mem hq
    exact Part.not_mem_text (hps.fits ⟨ys, zs, hys, rfl, rfl⟩) hc
  rw [Source.inComment_iff hlen, ← hps.text_eq]
  exact StandsIn.isBehindSemicolon_iff hcomment hother hp hle hlt

/-- The tokens over a character are those that its part spells. -/
theorem covers_iff (hps : src.HasParts ps) (h : Lexed.ofSource src = .ok l)
    (hp : StandsIn Part.text ps before p behind) (hle : before.length ≤ i)
    (hlt : i < before.length + p.text.length) {t : Token} :
    t ∈ l.tokens ∧ t.span.Covers i ↔
      ∃ s, p.spelling? = some s ∧ l.Spells src before.length s t := by
  constructor
  · rintro ⟨ht, hstart, hstop⟩
    obtain ⟨before', p', behind', s, hp', hs, hspells⟩ := Lexed.exists_part h hps ht
    have hlen : s.length = p'.text.length := by rw [Spelling.length, Part.text_of_spelling? hs]
    simp only [hspells.span_eq, Span.ofLength, hlen] at hstart hstop
    obtain ⟨rfl, rfl, -⟩ := hp.unique hp' hle hlt (by omega) (by omega)
    exact ⟨s, hs, hspells⟩
  · rintro ⟨s, hs, hspells⟩
    have hlen : s.length = p.text.length := by rw [Spelling.length, Part.text_of_spelling? hs]
    refine ⟨hspells.mem, ?_⟩
    rw [hspells.span_eq]
    simp only [Span.Covers, Span.ofLength, hlen]
    omega

/-- The findings about a character are that its part is stray. -/
theorem covers_diagnostic_iff (hps : src.HasParts ps) (h : Lexed.ofSource src = .ok l)
    (hp : StandsIn Part.text ps before p behind) (hle : before.length ≤ i)
    (hlt : i < before.length + p.text.length) {d : Diagnostic} :
    d ∈ l.diagnostics ∧ d.span.Covers i ↔
      ∃ c, p = .stray c ∧ i = before.length ∧ d = Lexed.strayChar src.path i c := by
  rw [Lexed.mem_diagnostics_iff h hps]
  constructor
  · rintro ⟨⟨before', c, behind', hp', rfl⟩, hstart, hstop⟩
    simp only [Lexed.strayChar, Diagnostic.unexpected, Span.ofLength] at hstart hstop
    have hi : i = before'.length := by omega
    obtain ⟨rfl, rfl, -⟩ := hp.unique hp' hle hlt (by omega) (by simp [hi, Part.text])
    exact ⟨c, rfl, hi, by rw [hi]⟩
  · rintro ⟨c, rfl, rfl, rfl⟩
    refine ⟨⟨before, c, behind, hp, rfl⟩, ?_⟩
    simp only [Span.Covers, Lexed.strayChar, Diagnostic.unexpected, Span.ofLength]
    omega

/-- Exactly one token is over a character of a part that spells one. -/
theorem existsUnique_covers (hps : src.HasParts ps) (h : Lexed.ofSource src = .ok l)
    (hp : StandsIn Part.text ps before p behind) (hle : before.length ≤ i)
    (hlt : i < before.length + p.text.length) {s : Spelling} (hs : p.spelling? = some s) :
    ∃! t, t ∈ l.tokens ∧ t.span.Covers i := by
  obtain ⟨t, ht⟩ := Lexed.exists_token h hps hp hs
  refine ⟨t, (hps.covers_iff h hp hle hlt).2 ⟨s, hs, ht⟩, ?_⟩
  intro u hu
  obtain ⟨s', hs', hu'⟩ := (hps.covers_iff h hp hle hlt).1 hu
  obtain rfl : s' = s := by simpa [hs] using hs'.symm
  exact hu'.unique ht

/-- A token is over a character if its part spells one. -/
theorem covered_iff (hps : src.HasParts ps) (h : Lexed.ofSource src = .ok l)
    (hp : StandsIn Part.text ps before p behind) (hle : before.length ≤ i)
    (hlt : i < before.length + p.text.length) :
    (∃ t ∈ l.tokens, t.span.Covers i) ↔ p.role = .lexeme := by
  rw [Part.role_eq_lexeme_iff]
  constructor
  · rintro ⟨t, ht⟩
    obtain ⟨s, hs, -⟩ := (hps.covers_iff h hp hle hlt).1 ht
    exact ⟨s, hs⟩
  · rintro ⟨s, hs⟩
    exact (hps.existsUnique_covers h hp hle hlt hs).exists

/-- A blank outside of tokens and comments is a blank part. -/
theorem isBlank_iff (hps : src.HasParts ps) (hp : StandsIn Part.text ps before p behind)
    (hle : before.length ≤ i) (hlt : i < before.length + p.text.length) :
    ((∃ c, src.text[i]? = some c ∧ isBlank c = true) ∧ p.role ≠ .lexeme ∧ p.role ≠ .comment) ↔
      p.role = .blank := by
  rw [hps.getElem?_eq hp hle hlt]
  have hfits := hps.fits hp
  cases p with
  | blank c =>
      have hi : i - before.length = 0 := by
        simp only [Part.text, List.length_singleton] at hlt
        omega
      refine iff_of_true ⟨⟨c, by simp [hi, Part.text], hfits⟩, ?_, ?_⟩ rfl <;> simp [Part.role]
  | stray c =>
      refine iff_of_false ?_ (by simp [Part.role])
      rintro ⟨⟨d, hd, hblank⟩, -⟩
      obtain rfl := List.mem_singleton.1 (List.mem_of_getElem? hd)
      rw [hfits.1] at hblank
      cases hblank
  | _ => simp [Part.role]

/-- A stray character has one finding about it, which is the one for its text. -/
theorem plays_stray (hps : src.HasParts ps) (h : Lexed.ofSource src = .ok l)
    (hp : StandsIn Part.text ps before (.stray c) behind) : l.Plays src before.length .stray := by
  have hlt : before.length < before.length + (Part.stray c).text.length := by simp [Part.text]
  have hmem := (hps.covers_diagnostic_iff h hp (Nat.le_refl _) hlt).2 ⟨c, rfl, rfl, rfl⟩
  refine ⟨⟨_, hmem, ?_⟩, c, ?_, hmem.1⟩
  · intro d hd
    obtain ⟨c', hc, -, rfl⟩ := (hps.covers_diagnostic_iff h hp (Nat.le_refl _) hlt).1 hd
    cases hc
    rfl
  · rw [hps.getElem?_eq hp (Nat.le_refl _) hlt]
    simp [Part.text]

/-- What becomes of a character is told by its part. -/
theorem plays_iff (hps : src.HasParts ps) (h : Lexed.ofSource src = .ok l)
    (hp : StandsIn Part.text ps before p behind) (hle : before.length ≤ i)
    (hlt : i < before.length + p.text.length) (r : Role) : l.Plays src i r ↔ p.role = r := by
  have htoken := hps.covered_iff h hp hle hlt
  have hcomment : src.InComment i ↔ p.role = .comment := by
    rw [hps.inComment_iff hp hle hlt, Part.role_eq_comment_iff]
  cases r with
  | lexeme =>
      constructor
      · intro ht
        exact htoken.1 ht.exists
      · intro hrole
        obtain ⟨s, hs⟩ := Part.role_eq_lexeme_iff.1 hrole
        exact hps.existsUnique_covers h hp hle hlt hs
  | comment => exact hcomment
  | blank =>
      show (∃ c, src.text[i]? = some c ∧ isBlank c = true) ∧
        (¬ ∃ t ∈ l.tokens, t.span.Covers i) ∧ ¬ src.InComment i ↔ p.role = .blank
      rw [htoken, hcomment]
      exact hps.isBlank_iff hp hle hlt
  | stray =>
      constructor
      · rintro ⟨hd, -⟩
        obtain ⟨d, hd⟩ := hd.exists
        obtain ⟨c, rfl, -⟩ := (hps.covers_diagnostic_iff h hp hle hlt).1 hd
        rfl
      · intro hrole
        cases p with
        | stray c =>
            obtain rfl : i = before.length := by
              simp only [Part.text, List.length_singleton] at hlt
              omega
            exact hps.plays_stray h hp
        | _ => cases hrole

/-- The source behind the first character of a part. -/
theorem drop_eq (hps : src.HasParts ps) (hp : StandsIn Part.text ps before p behind)
    {cs : List Char} (hcs : p.text = c :: cs) :
    src.text.drop (before.length + 1) = cs ++ behind := by
  rw [← hps.text_eq, hp.flatMap_eq, List.append_assoc, ← List.drop_drop, List.drop_left, hcs]
  rfl

/-- A character of a token is not stray. -/
theorem not_isStray_of_spelling? (hps : src.HasParts ps)
    (hp : StandsIn Part.text ps before p behind) (hle : before.length ≤ i)
    (hlt : i < before.length + p.text.length) {s : Spelling} (hs : p.spelling? = some s) :
    ¬ src.IsStray i := by
  have hfits := hps.fits hp
  rintro ⟨c, hc, -, hid, hmark, hsign⟩
  rw [hps.getElem?_eq hp hle hlt] at hc
  rcases Part.mem_text_of_spelling? hfits hs (List.mem_of_getElem? hc) with h | h | ⟨rfl, h⟩
  · rw [hid] at h
    cases h
  · exact hmark h
  · -- The number sign of a boolean is its first character.
    obtain ⟨b, rfl⟩ := h
    have hi : i = before.length := by
      cases hk : i - before.length with
      | zero => omega
      | succ k => cases b <;> cases k <;> simp [hk, Part.text, Spelling.text] at hc
    refine hsign ⟨rfl, ?_⟩
    rw [isBooleanLetter_iff, hi, hps.drop_eq hp rfl]
    cases b
    · exact ⟨['f'], behind, rfl, rfl, hfits⟩
    · exact ⟨['t'], behind, rfl, rfl, hfits⟩

/-- A stray part is a stray character. -/
theorem isStray_stray (hps : src.HasParts ps)
    (hp : StandsIn Part.text ps before (.stray c) behind) : src.IsStray before.length := by
  obtain ⟨hblank, hid, hmark, -, hsign⟩ := hps.fits hp
  refine ⟨c, ?_, hblank, hid, Spelling.not_mem_of_ofMark? hmark, ?_⟩
  · rw [hps.getElem?_eq hp (Nat.le_refl _) (by simp [Part.text])]
    simp [Part.text]
  · rintro ⟨hc, hletter⟩
    rw [isBooleanLetter_iff, hps.drop_eq hp rfl] at hletter
    exact hsign hc hletter

/-- A character outside of comments is stray if it and the two behind it say so. -/
theorem isStray_iff (hps : src.HasParts ps) (hp : StandsIn Part.text ps before p behind)
    (hle : before.length ≤ i) (hlt : i < before.length + p.text.length)
    (hcomment : ¬ src.InComment i) : src.IsStray i ↔ p.role = .stray := by
  cases hs : p.spelling? with
  | some s =>
      refine iff_of_false (hps.not_isStray_of_spelling? hp hle hlt hs) ?_
      rw [Part.role_eq_lexeme_iff.2 ⟨s, hs⟩]
      rintro ⟨⟩
  | none =>
      cases p with
      | comment body => exact absurd ((hps.inComment_iff hp hle hlt).2 rfl) hcomment
      | blank c =>
          have hfits : isBlank c = true := hps.fits hp
          refine iff_of_false ?_ (by simp [Part.role])
          rintro ⟨d, hd, hblank, -⟩
          rw [hps.getElem?_eq hp hle hlt] at hd
          obtain rfl := List.mem_singleton.1 (List.mem_of_getElem? hd)
          rw [hfits] at hblank
          cases hblank
      | stray c =>
          obtain rfl : i = before.length := by
            simp only [Part.text, List.length_singleton] at hlt
            omega
          exact iff_of_true (hps.isStray_stray hp) rfl
      | _ => cases hs

end Source.HasParts

/-! ## The account -/

/-- The findings of a scan are in the order of their characters. -/
theorem Lexed.diagnostics_pairwise {src : Source} {l : Lexed} (h : ofSource src = .ok l) :
    l.diagnostics.Pairwise fun d e => d.span.start < e.span.start := by
  rw [diagnostics_ofScanned h, List.pairwise_filterMap]
  refine (Scanned.laid_ofText src.text).pairwise.imp ?_
  intro i j hij d hd e he
  cases i with
  | token start s => cases hd
  | stray start c =>
      cases j with
      | token start' s => cases he
      | stray start' c' =>
          cases hd
          cases he
          have hlt : start + 1 ≤ start' := hij
          simp only [strayChar, Diagnostic.unexpected, Span.ofLength]
          omega

/-- **The scanner accounts for every character.** Its tokens and findings are in order, and each
character is in exactly one token, in a comment, blank or reported exactly once. -/
theorem Lexed.accountsFor {src : Source} {l : Lexed} (h : ofSource src = .ok l) :
    l.AccountsFor src := by
  obtain ⟨ps, hps⟩ := src.exists_hasParts
  refine ⟨separate h, ?_, ?_, diagnostics_pairwise h, ?_, fun i hi => src.inComment_iff hi, ?_⟩
  · intro t ht
    obtain ⟨-, -, -, -, -, -, hstart, hstop, -⟩ := exists_of_mem h ht
    exact ⟨hstart, hstop⟩
  · intro i hi
    obtain ⟨before, p, behind, hp, hle, hlt⟩ := hps.exists_standsIn hi
    refine ⟨p.role, (hps.plays_iff h hp hle hlt _).2 rfl, ?_⟩
    intro r hr
    exact ((hps.plays_iff h hp hle hlt r).1 hr).symm
  · intro d hd
    obtain ⟨before, c, behind, hp, rfl⟩ := (mem_diagnostics_iff h hps).1 hd
    refine ⟨before.length, c, ?_, rfl⟩
    rw [hps.getElem?_eq hp (Nat.le_refl _) (by simp [Part.text])]
    simp [Part.text]
  · intro i hi hcomment
    obtain ⟨before, p, behind, hp, hle, hlt⟩ := hps.exists_standsIn hi
    rw [hps.isStray_iff hp hle hlt hcomment]
    constructor
    · rintro ⟨d, hd⟩
      obtain ⟨c, rfl, -⟩ := (hps.covers_diagnostic_iff h hp hle hlt).1 hd
      rfl
    · intro hrole
      obtain ⟨d, hd⟩ := ((hps.plays_iff h hp hle hlt .stray).2 hrole).1.exists
      exact ⟨d, hd⟩

/-- Among tokens, a comment and blanks, a number sign and a comma are reported. -/
theorem Lexed.accountsFor_stray :
    ∃ l, ofSource ⟨"a.scm", "(#t #x ;c\n1.5,".toList⟩ = .ok l ∧
      l.diagnostics = [strayChar "a.scm" 4 '#', strayChar "a.scm" 13 ','] ∧
      l.AccountsFor ⟨"a.scm", "(#t #x ;c\n1.5,".toList⟩ :=
  ⟨_, rfl, rfl, accountsFor rfl⟩

end SchemeFront
