import SchemeFront.Proofs.Lexer.Account

set_option autoImplicit false

/-! # Maximal munch

The scanner takes longest runs of identifier characters as a whole (`Lexed.munches`). What token
a run makes depends on the run and on what stands next to it: digits are part of a number with a
point if a point and digits follow, `t` and `f` make a boolean behind a number sign, and any other
run is read by itself (`Spelling.Reads`). Besides, only brackets and points are tokens.
-/

namespace SchemeFront

open Text

/-! ## The classification of runs -/

/-- One digit or more. -/
def Text.IsDigits (cs : List Char) : Prop := cs ≠ [] ∧ ∀ c ∈ cs, c.isDigit = true

/-- Digits behind an optional sign. -/
def Text.IsSignedDigits (cs : List Char) : Prop :=
  ∃ sign ds, cs = sign ++ ds ∧ sign ∈ [[], ['+'], ['-']] ∧ IsDigits ds

/-- What a run spells if it is a token by itself. -/
inductive Spelling.Reads : List Char → Spelling → Prop where
  | keyword (k : Keyword) (hk : k ∈ Keyword.words) : Reads k.text.toList (.keyword k)
  | integer (run : List Char) (hword : ∀ k ∈ Keyword.words, run ≠ k.text.toList)
      (hdigits : IsSignedDigits run) : Reads run (.integer run)
  | ident (run : List Char) (hword : ∀ k ∈ Keyword.words, run ≠ k.text.toList)
      (hdigits : ¬ IsSignedDigits run) : Reads run (.ident run)

/-- The token is a number with a point. -/
def Token.IsReal (t : Token) : Prop := ∃ d, t.lexeme = .atom (.real d)

namespace Source

/-- At the offset `i` begins the longest run `run` of identifier characters. -/
def RunAt (src : Source) (i : Nat) (run : List Char) : Prop :=
  ∃ before behind, src.text = before ++ run ++ behind ∧ before.length = i ∧
    IsRun before run behind

/-- The run at the offset `i` is a signed number that is directly followed by a point and `part`,
a longest run that is made of digits only. -/
def PointAt (src : Source) (i : Nat) (run part : List Char) : Prop :=
  IsSignedDigits run ∧ src.text[i + run.length]? = some '.' ∧
    src.RunAt (i + run.length + 1) part ∧ IsDigits part

/-- The run at the offset `i` is the letter of a boolean. -/
def LetterAt (src : Source) (i : Nat) (run : List Char) (b : Bool) : Prop :=
  run = [if b then 't' else 'f'] ∧ ∃ j, i = j + 1 ∧ src.text[j]? = some '#'

end Source

namespace Lexed

/-- The run at the offset `i` is the fraction of the number `t` with a point, which begins before
it. -/
def IsFraction (l : Lexed) (src : Source) (i : Nat) (run : List Char) (t : Token) : Prop :=
  ∃ j whole, src.RunAt j whole ∧ src.PointAt j whole run ∧ i = j + whole.length + 1 ∧
    l.Spells src j (.real whole run) t

/-- The token that the run at the offset `i` belongs to. -/
inductive RunToken (l : Lexed) (src : Source) (i : Nat) (run : List Char) : Token → Prop where
  | fraction {t : Token} (h : l.IsFraction src i run t) : RunToken l src i run t
  | real {t : Token} {part : List Char} (hfree : ∀ u, ¬ l.IsFraction src i run u)
      (hpoint : src.PointAt i run part) (h : l.Spells src i (.real run part) t) :
      RunToken l src i run t
  | boolean {t : Token} {b : Bool} (hletter : src.LetterAt i run b)
      (h : l.Spells src (i - 1) (.boolean b) t) : RunToken l src i run t
  | word {t : Token} {s : Spelling} (hfree : ∀ u, ¬ l.IsFraction src i run u)
      (hpoint : ∀ part, ¬ src.PointAt i run part) (hletter : ∀ b, ¬ src.LetterAt i run b)
      (hs : Spelling.Reads run s) (h : l.Spells src i s t) : RunToken l src i run t

/-- At the offset `i`, outside of comments and of numbers with a point, stands the bracket or
point `k`. -/
def MarkAt (l : Lexed) (src : Source) (i : Nat) (k : Keyword) : Prop :=
  k ∈ [Keyword.opening, .closing, .point] ∧ (∃ c, src.text[i]? = some c ∧ k.text.toList = [c]) ∧
    ¬ src.InComment i ∧ (k = .point → ¬ ∃ t ∈ l.tokens, t.IsReal ∧ t.span.Covers i)

/-- Tokens take in runs of identifier characters as a whole. -/
structure Munches (l : Lexed) (src : Source) : Prop where
  /-- A run outside of comments belongs to one token, and only to this one. -/
  run : ∀ i run, src.RunAt i run → ¬ src.InComment i → ∃ t, l.RunToken src i run t ∧
    ∀ k, i ≤ k → k < i + run.length → ∀ u ∈ l.tokens, u.span.Covers k ↔ u = t
  /-- Any bracket or point is a token. -/
  mark : ∀ i k, l.MarkAt src i k → ∃ t, l.Spells src i (.keyword k) t
  /-- There are no other tokens. -/
  token : ∀ t ∈ l.tokens, (∃ i run, src.RunAt i run ∧ ¬ src.InComment i ∧ l.RunToken src i run t) ∨
    ∃ i k, l.MarkAt src i k ∧ l.Spells src i (.keyword k) t
  ident : ∀ t ∈ l.tokens, ∀ name, t.lexeme = .atom (.ident name) →
    (∀ k : Keyword, name ≠ k.text) ∧ ¬ IsSignedDigits name.toList

end Lexed

/-! ### Spellings -/

/-- Any other keyword than the words is spelled with a character that no word has. -/
theorem Keyword.exists_mem_of_not_mem_words {k : Keyword} (h : k ∉ words) :
    ∃ c ∈ k.text.toList, isIdentifier c = false := by
  cases k with
  | opening => exact ⟨'(', by decide, by decide⟩
  | closing => exact ⟨')', by decide, by decide⟩
  | point => exact ⟨'.', by decide, by decide⟩
  | _ => exact absurd (by decide) h

namespace Spelling

theorem isSignedDigits_iff {cs : List Char} :
    isSignedDigits cs = true ↔ IsSignedDigits cs := by
  simp only [isSignedDigits_iff_exists, isDigits_iff, IsSignedDigits, IsDigits]

/-- The lexemes that a spelling can be read as. -/
inductive Yields : Spelling → Lexeme → Prop where
  | keyword (k : Keyword) : Yields (.keyword k) (.keyword k)
  | boolean (b : Bool) : Yields (.boolean b) (.atom (.boolean b))
  | integer (cs : List Char) (n : Int) : Yields (.integer cs) (.atom (.integer n))
  | real (whole part : List Char) (d : Decimal) : Yields (.real whole part) (.atom (.real d))
  | ident (cs : List Char) : Yields (.ident cs) (.atom (.ident (String.ofList cs)))

theorem yields_of_lexeme {s : Spelling} {x : Lexeme} (h : s.lexeme = .ok x) : Yields s x := by
  cases s with
  | keyword k =>
      cases h
      exact .keyword k
  | boolean b =>
      cases h
      exact .boolean b
  | integer cs =>
      rw [lexeme] at h
      cases hr : readInteger cs <;> rw [hr] at h <;> cases h
      exact .integer cs _
  | real whole part =>
      rw [lexeme] at h
      cases hr : Decimal.ofText (whole ++ '.' :: part) <;> rw [hr] at h <;> cases h
      exact .real whole part _
  | ident cs =>
      cases h
      exact .ident cs

theorem reads_ofRun (run : List Char) : Reads run (ofRun run) := by
  unfold ofRun Keyword.ofWord?
  cases hk : Keyword.words.find? fun k => k.text.toList == run with
  | some k =>
      have hbeq := List.find?_some hk
      have heq : k.text.toList = run := eq_of_beq hbeq
      rw [← heq]
      exact .keyword k (List.mem_of_find?_eq_some hk)
  | none =>
      have hword : ∀ k ∈ Keyword.words, run ≠ k.text.toList := by
        intro k hmem heq
        exact List.find?_eq_none.1 hk k hmem (beq_iff_eq.2 heq.symm)
      dsimp only
      split
      · rename_i hdigits
        exact .integer run hword (isSignedDigits_iff.1 hdigits)
      · rename_i hdigits
        exact .ident run hword fun h => hdigits (isSignedDigits_iff.2 h)

end Spelling

/-! ## The runs in a part -/

namespace Part

/-- In the part, `run` stands between `front` and `rear` and is one of its longest runs. -/
inductive HasRun : Part → (front run rear : List Char) → Prop where
  | word (run : List Char) : HasRun (word run) [] run []
  | whole (whole part : List Char) : HasRun (real whole part) [] whole ('.' :: part)
  | fraction (whole part : List Char) : HasRun (real whole part) (whole ++ ['.']) part []
  | letter (b : Bool) : HasRun (boolean b) ['#'] [if b then 't' else 'f'] []

variable {before behind front run rear : List Char} {p : Part} {k : Nat} {c : Char}

theorem HasRun.text_eq (h : HasRun p front run rear) : p.text = front ++ run ++ rear := by
  cases h with
  | word => simp [text]
  | whole whole part => rfl
  | fraction whole part => simp [text, Spelling.text]
  | letter b => rfl

/-- A part with a run is a token. -/
theorem HasRun.exists_spelling? (h : HasRun p front run rear) : ∃ s, p.spelling? = some s := by
  cases h <;> exact ⟨_, rfl⟩

/-- The runs in a part are longest ones in the text. -/
theorem HasRun.isRun (h : HasRun p front run rear) (hfits : p.Fits before behind) :
    IsRun (before ++ front) run (rear ++ behind) := by
  cases h with
  | word =>
      rw [List.append_nil]
      exact hfits.1
  | whole whole part =>
      obtain ⟨hwhole, -, hfirst, -⟩ := hfits
      rw [List.append_nil]
      have hpoint : isIdentifier '.' = false := by decide
      refine ⟨?_, Spelling.isIdentifier_of_isSignedDigits hwhole, hfirst, hpoint⟩
      rintro rfl
      cases hwhole
  | fraction whole part =>
      obtain ⟨-, hpart, -, hlast⟩ := hfits
      refine ⟨(Spelling.isDigits_iff.1 hpart).1, Spelling.isIdentifier_of_isDigits hpart, ?_, hlast⟩
      rw [← List.append_assoc, endsInWord_append_singleton]
      decide
  | letter b =>
      refine ⟨by simp, ?_, ?_, hfits⟩
      · intro c hc
        rw [List.mem_singleton.1 hc]
        cases b <;> decide
      · rw [endsInWord_append_singleton]
        decide

/-- Outside of comments, identifier characters are in the runs of the parts. -/
theorem exists_hasRun (hfits : p.Fits before behind) (hp : p.isComment = false)
    (hc : p.text[k]? = some c) (hid : isIdentifier c = true) :
    ∃ front run rear, HasRun p front run rear ∧ front.length ≤ k ∧
      k < front.length + run.length := by
  obtain ⟨hlt, -⟩ := List.getElem?_eq_some_iff.1 hc
  have hmem := List.mem_of_getElem? hc
  cases p with
  | comment body => cases hp
  | word run => exact ⟨_, _, _, .word run, Nat.zero_le k, by simpa [text] using hlt⟩
  | real whole part =>
      simp only [text, Spelling.text, List.length_append, List.length_cons] at hlt
      rcases Nat.lt_trichotomy k whole.length with hk | rfl | hk
      · exact ⟨_, _, _, .whole whole part, Nat.zero_le k, by simpa using hk⟩
      · simp only [text, Spelling.text, List.getElem?_append_right (Nat.le_refl _), Nat.sub_self,
          List.getElem?_cons_zero, Option.some.injEq] at hc
        subst hc
        cases hid
      · refine ⟨_, _, _, .fraction whole part, ?_, ?_⟩
        · simp only [List.length_append, List.length_singleton]
          omega
        · simp only [List.length_append, List.length_singleton]
          omega
  | boolean b =>
      cases k with
      | zero =>
          cases hc
          cases hid
      | succ k =>
          simp only [text, Spelling.text, List.length_cons, List.length_nil] at hlt
          exact ⟨_, _, _, .letter b, by simp, by simp; omega⟩
  | mark keyword =>
      obtain ⟨d, hd⟩ := hfits
      rw [text, Spelling.text_of_ofMark? hd] at hmem
      obtain rfl := List.mem_singleton.1 hmem
      have hmark := Spelling.mem_of_ofMark? hd
      simp only [List.mem_cons, List.not_mem_nil, or_false] at hmark
      rcases hmark with rfl | rfl | rfl <;> cases hid
  | blank d =>
      obtain rfl := List.mem_singleton.1 hmem
      rw [not_isIdentifier_of_isBlank hfits] at hid
      cases hid
  | stray d =>
      obtain rfl := List.mem_singleton.1 hmem
      rw [hfits.2.1] at hid
      cases hid

theorem isComment_eq_false_of_spelling? {s : Spelling} (hs : p.spelling? = some s) :
    p.isComment = false := by
  cases p with
  | comment body => cases hs
  | _ => rfl

/-- A bracket is a part, and so is a point, unless it is in a number. -/
theorem eq_mark_or_real {keyword : Keyword} (hfits : p.Fits before behind)
    (hp : p.isComment = false) (hmark : Spelling.ofMark? c = some keyword) (hc : c ∈ p.text) :
    p = mark keyword ∨ ∃ whole part, p = real whole part ∧ keyword = .point := by
  obtain ⟨hid, hblank⟩ := Spelling.classes_of_ofMark? hmark
  cases p with
  | comment body => cases hp
  | word run =>
      rw [hfits.1.identifiers c hc] at hid
      cases hid
  | real whole part =>
      rcases List.mem_append.1 hc with hc | hc
      · rw [Spelling.isIdentifier_of_isSignedDigits hfits.1 c hc] at hid
        cases hid
      · rcases List.mem_cons.1 hc with rfl | hc
        · cases hmark
          exact .inr ⟨whole, part, rfl, rfl⟩
        · rw [Spelling.isIdentifier_of_isDigits hfits.2.1 c hc] at hid
          cases hid
  | boolean b =>
      rcases List.mem_cons.1 hc with rfl | hc
      · cases hmark
      · obtain rfl := List.mem_singleton.1 hc
        cases b <;> cases hid
  | mark k =>
      obtain ⟨d, hd⟩ := hfits
      rw [text, Spelling.text_of_ofMark? hd] at hc
      obtain rfl := List.mem_singleton.1 hc
      rw [hd] at hmark
      cases hmark
      exact .inl rfl
  | blank d =>
      obtain rfl := List.mem_singleton.1 hc
      rw [show isBlank c = true from hfits] at hblank
      cases hblank
  | stray d =>
      obtain rfl := List.mem_singleton.1 hc
      rw [hfits.2.2.1] at hmark
      cases hmark

/-- A part that spells a token has a run, unless it is a bracket or a point. -/
theorem exists_hasRun_or_mark {s : Spelling} (hs : p.spelling? = some s) :
    (∃ front run rear, HasRun p front run rear) ∨ ∃ k, p = mark k := by
  cases p with
  | word run => exact .inl ⟨_, _, _, .word run⟩
  | real whole part => exact .inl ⟨_, _, _, .whole whole part⟩
  | boolean b => exact .inl ⟨_, _, _, .letter b⟩
  | mark k => exact .inr ⟨k, rfl⟩
  | _ => cases hs

end Part

/-! ## The tokens of runs -/

namespace Source

variable {src : Source} {before run behind part : List Char} {i : Nat}

/-- A point and digits behind a run are what a number is continued by. -/
theorem PointAt.takesPoint (htext : src.text = before ++ run ++ behind)
    (h : src.PointAt before.length run part) : Spelling.TakesPoint run behind := by
  obtain ⟨hrun, hpoint, ⟨before', behind', htext', hlen, hpart⟩, hdigits⟩ := h
  rw [← List.length_append] at hpoint hlen
  rw [htext, List.getElem?_append_right (Nat.le_refl _), Nat.sub_self] at hpoint
  cases behind with
  | nil => cases hpoint
  | cons c cs =>
      cases hpoint
      have hsplit : (before ++ run ++ ['.']) ++ cs = before' ++ (part ++ behind') := by
        rw [← List.append_assoc before', ← htext', htext]
        simp
      obtain ⟨-, rfl⟩ := List.append_inj hsplit (by rw [hlen, List.length_append]; rfl)
      exact ⟨Spelling.isSignedDigits_iff.2 hrun, part, behind', rfl,
        Spelling.isDigits_iff.2 hdigits, hpart.last⟩

theorem LetterAt.getLast? {b : Bool} (htext : src.text = before ++ run ++ behind)
    (h : src.LetterAt before.length run b) : before.getLast? = some '#' := by
  obtain ⟨-, j, hj, hsign⟩ := h
  rw [List.getLast?_eq_getElem?, hj, Nat.add_sub_cancel]
  rwa [htext, List.append_assoc, List.getElem?_append_left (by omega)] at hsign

end Source

namespace Source.HasParts

variable {src : Source} {ps : List Part} {l : Lexed} {before behind front run rear : List Char}
  {p : Part} {i : Nat}

theorem text_eq_of_hasRun (hps : src.HasParts ps) (hp : StandsIn Part.text ps before p behind)
    (hrun : p.HasRun front run rear) :
    src.text = (before ++ front) ++ run ++ (rear ++ behind) := by
  rw [← hps.text_eq, hp.flatMap_eq, hrun.text_eq]
  simp only [List.append_assoc]

/-- A run in a part is one of the text. -/
theorem runAt (hps : src.HasParts ps) (hp : StandsIn Part.text ps before p behind)
    (hrun : p.HasRun front run rear) : src.RunAt (before.length + front.length) run :=
  ⟨before ++ front, rear ++ behind, hps.text_eq_of_hasRun hp hrun, List.length_append,
    hrun.isRun (hps.fits hp)⟩

/-- A run of the text, outside of comments, is in one part. -/
theorem exists_hasRun (hps : src.HasParts ps) (hrun : src.RunAt i run)
    (hcomment : ¬ src.InComment i) : ∃ before p behind front rear,
      StandsIn Part.text ps before p behind ∧ p.HasRun front run rear ∧
      i = before.length + front.length := by
  obtain ⟨before', behind', htext, rfl, hrun⟩ := hrun
  obtain ⟨c, cs, rfl⟩ := List.exists_cons_of_ne_nil hrun.nonempty
  have hchar : src.text[before'.length]? = some c := by
    rw [htext, List.append_assoc, List.getElem?_append_right (Nat.le_refl _), Nat.sub_self]
    rfl
  obtain ⟨before, p, behind, hp, hle, hlt⟩ :=
    hps.exists_standsIn (Source.lt_length_of_getElem? hchar)
  rw [hps.getElem?_eq hp hle hlt] at hchar
  rw [hps.inComment_iff hp hle hlt, Bool.not_eq_true] at hcomment
  obtain ⟨front, run, rear, hrun', hfront, hend⟩ :=
    Part.exists_hasRun (hps.fits hp) hcomment hchar (hrun.identifiers c (by simp))
  -- Both runs are longest ones, and the one of the part holds the beginning of the other.
  obtain ⟨rfl, rfl, -⟩ := hrun.unique (hrun'.isRun (hps.fits hp))
    (by rw [← htext, hps.text_eq_of_hasRun hp hrun'])
    (by rw [List.length_append]; omega) (by rw [List.length_append]; omega)
  exact ⟨before, p, behind, front, rear, hp, hrun', List.length_append⟩

/-- A run that a token begins with is no fraction. -/
theorem not_isFraction (hps : src.HasParts ps) (h : Lexed.ofSource src = .ok l)
    (hp : StandsIn Part.text ps before p behind) (hpos : 0 < p.text.length) (run : List Char)
    (u : Token) : ¬ l.IsFraction src before.length run u := by
  rintro ⟨j, whole, -, ⟨-, -, -, hdigits⟩, hj, hspells⟩
  have hrun := List.length_pos_iff.2 hdigits.1
  have hcovers : u.span.Covers before.length := by
    rw [hspells.span_eq]
    simp only [Span.Covers, Span.ofLength, Spelling.length, Spelling.text, List.length_append,
      List.length_cons]
    omega
  obtain ⟨s, -, hs⟩ := (hps.covers_iff h hp (Nat.le_refl _) (by omega)).1 ⟨hspells.mem, hcovers⟩
  have hspan := congrArg Span.start (hspells.span_eq.symm.trans hs.span_eq)
  simp only [Span.ofLength] at hspan
  omega

/-- A number with a point is made of a signed number, the point and digits. -/
theorem pointAt (hps : src.HasParts ps) {whole part : List Char}
    (hp : StandsIn Part.text ps before (.real whole part) behind) :
    src.PointAt before.length whole part := by
  obtain ⟨hwhole, hpart, -⟩ := hps.fits hp
  have htext := hps.text_eq_of_hasRun hp (.whole whole part)
  refine ⟨Spelling.isSignedDigits_iff.1 hwhole, ?_, ?_, Spelling.isDigits_iff.1 hpart⟩
  · rw [htext, List.append_nil, List.getElem?_append_right (by simp)]
    simp
  · have hat := hps.runAt hp (.fraction whole part)
    rwa [List.length_append, ← Nat.add_assoc] at hat

/-- The token that a part spells is that of its runs. -/
theorem runToken (hps : src.HasParts ps) (h : Lexed.ofSource src = .ok l)
    (hp : StandsIn Part.text ps before p behind) (hrun : p.HasRun front run rear) {s : Spelling}
    (hs : p.spelling? = some s) {t : Token} (ht : l.Spells src before.length s t) :
    l.RunToken src (before.length + front.length) run t := by
  have hfits := hps.fits hp
  have htext := hps.text_eq_of_hasRun hp hrun
  have hat := hps.runAt hp hrun
  cases hrun with
  | word =>
      cases hs
      have hfree := hps.not_isFraction h hp (List.length_pos_iff.2 hfits.1.nonempty) run
      rw [List.append_nil] at htext
      refine .word hfree ?_ ?_ (Spelling.reads_ofRun run) ht
      · intro part hpoint
        exact hfits.2.1 (hpoint.takesPoint htext)
      · intro b hletter
        have hnone := hfits.2.2 (hletter.getLast? htext)
        rw [hletter.1] at hnone
        cases b <;> cases hnone
  | whole whole part =>
      cases hs
      have hpos : 0 < (Part.real run part).text.length := by
        simp only [Part.text, Spelling.text, List.length_append, List.length_cons]
        omega
      exact .real (hps.not_isFraction h hp hpos run) (hps.pointAt hp) ht
  | fraction whole part =>
      cases hs
      refine .fraction ⟨before.length, whole, hps.runAt hp (.whole whole run), hps.pointAt hp,
        ?_, ht⟩
      simp [Nat.add_assoc]
  | letter b =>
      cases hs
      refine .boolean ⟨rfl, before.length, rfl, ?_⟩ ht
      rw [htext, List.append_assoc, List.append_assoc, List.getElem?_append_right (Nat.le_refl _),
        Nat.sub_self]
      rfl

/-- A character that a token is over has no other token over it. -/
theorem eq_of_covers (hps : src.HasParts ps) (h : Lexed.ofSource src = .ok l)
    (hp : StandsIn Part.text ps before p behind) (hle : before.length ≤ i)
    (hlt : i < before.length + p.text.length) {s : Spelling} (hs : p.spelling? = some s)
    {t : Token} (ht : l.Spells src before.length s t) {u : Token} (hu : u ∈ l.tokens) :
    u.span.Covers i ↔ u = t := by
  constructor
  · intro hcovers
    obtain ⟨s', hs', hu'⟩ := (hps.covers_iff h hp hle hlt).1 ⟨hu, hcovers⟩
    obtain rfl : s' = s := by simpa [hs] using hs'.symm
    exact hu'.unique ht
  · rintro rfl
    exact ((hps.covers_iff h hp hle hlt).2 ⟨s, hs, ht⟩).2

end Source.HasParts

/-! ## The theorem -/

namespace Lexed

variable {src : Source} {l : Lexed}

/-- Only numbers with a point become such tokens. -/
theorem Spells.exists_eq_real {i : Nat} {s : Spelling} {t : Token} (h : l.Spells src i s t)
    (ht : t.IsReal) : ∃ whole part, s = .real whole part := by
  obtain ⟨d, hd⟩ := ht
  have hs := Spelling.yields_of_lexeme h.lexeme_eq
  rw [hd] at hs
  cases hs
  exact ⟨_, _, rfl⟩

theorem Spells.isReal {i : Nat} {whole part : List Char} {t : Token}
    (h : l.Spells src i (.real whole part) t) : t.IsReal := by
  have hs := Spelling.yields_of_lexeme h.lexeme_eq
  generalize hx : t.lexeme = x at hs
  cases hs
  exact ⟨_, hx⟩

theorem Spells.eq_ident {i : Nat} {s : Spelling} {t : Token} {name : String}
    (h : l.Spells src i s t) (hname : t.lexeme = .atom (.ident name)) :
    s = .ident name.toList := by
  have hs := Spelling.yields_of_lexeme h.lexeme_eq
  rw [hname] at hs
  generalize hx : Lexeme.atom (.ident name) = x at hs
  cases hs with
  | ident cs =>
      cases hx
      rw [String.toList_ofList]
  | _ => cases hx

variable {ps : List Part}

/-- A run outside of comments belongs to one token. -/
theorem exists_runToken (h : ofSource src = .ok l) (hps : src.HasParts ps) {i : Nat}
    {run : List Char} (hrun : src.RunAt i run) (hcomment : ¬ src.InComment i) :
    ∃ t, l.RunToken src i run t ∧
      ∀ k, i ≤ k → k < i + run.length → ∀ u ∈ l.tokens, u.span.Covers k ↔ u = t := by
  obtain ⟨before, p, behind, front, rear, hp, hrun', rfl⟩ := hps.exists_hasRun hrun hcomment
  obtain ⟨s, hs⟩ := hrun'.exists_spelling?
  obtain ⟨t, ht⟩ := exists_token h hps hp hs
  refine ⟨t, hps.runToken h hp hrun' hs ht, ?_⟩
  intro k hle hlt u hu
  have hlen := congrArg List.length hrun'.text_eq
  simp only [List.length_append] at hlen
  exact hps.eq_of_covers h hp (by omega) (by omega) hs ht hu

/-- A bracket or point outside of comments and of numbers is a token. -/
theorem exists_markToken (h : ofSource src = .ok l) (hps : src.HasParts ps) {i : Nat}
    {k : Keyword} (hk : l.MarkAt src i k) : ∃ t, l.Spells src i (.keyword k) t := by
  obtain ⟨hmem, ⟨c, hchar, hc⟩, hcomment, hreal⟩ := hk
  have hmark := Spelling.ofMark?_of_mem hmem hc
  obtain ⟨before, p, behind, hp, hle, hlt⟩ :=
    hps.exists_standsIn (Source.lt_length_of_getElem? hchar)
  rw [hps.getElem?_eq hp hle hlt] at hchar
  rw [hps.inComment_iff hp hle hlt, Bool.not_eq_true] at hcomment
  rcases Part.eq_mark_or_real (hps.fits hp) hcomment hmark (List.mem_of_getElem? hchar) with
    rfl | ⟨whole, part, rfl, rfl⟩
  · obtain ⟨t, ht⟩ := exists_token h hps hp rfl
    obtain rfl : before.length = i := by
      simp only [Part.text, hc, List.length_singleton] at hlt
      omega
    exact ⟨t, ht⟩
  · obtain ⟨t, ht⟩ := exists_token h hps hp rfl
    exact absurd ⟨t, ht.mem, ht.isReal, (hps.eq_of_covers h hp hle hlt rfl ht ht.mem).2 rfl⟩
      (hreal rfl)

/-- A token is that of a run, or a bracket or point. -/
theorem runToken_or_mark (h : ofSource src = .ok l) (hps : src.HasParts ps) {t : Token}
    (ht : t ∈ l.tokens) :
    (∃ i run, src.RunAt i run ∧ ¬ src.InComment i ∧ l.RunToken src i run t) ∨
      ∃ i k, l.MarkAt src i k ∧ l.Spells src i (.keyword k) t := by
  obtain ⟨before, p, behind, s, hp, hs, hspells⟩ := exists_part h hps ht
  have hcomment : ∀ i, before.length ≤ i → i < before.length + p.text.length →
      ¬ src.InComment i := by
    intro i hle hlt
    rw [hps.inComment_iff hp hle hlt, Part.isComment_eq_false_of_spelling? hs]
    exact Bool.false_ne_true
  rcases Part.exists_hasRun_or_mark hs with ⟨front, run, rear, hrun⟩ | ⟨k, rfl⟩
  · have hpos := List.length_pos_iff.2 (hrun.isRun (hps.fits hp)).nonempty
    have hlen := congrArg List.length hrun.text_eq
    simp only [List.length_append] at hlen
    exact .inl ⟨_, run, hps.runAt hp hrun, hcomment _ (by omega) (by omega),
      hps.runToken h hp hrun hs hspells⟩
  · cases hs
    obtain ⟨c, hc⟩ := hps.fits hp
    have htext : k.text.toList = [c] := Spelling.text_of_ofMark? hc
    have hlt : before.length < before.length + (Part.mark k).text.length := by
      simp [Part.text, htext]
    refine .inr ⟨before.length, k, ⟨Spelling.mem_marks_of_ofMark? hc, ⟨c, ?_, htext⟩,
      hcomment _ (Nat.le_refl _) hlt, ?_⟩, hspells⟩
    · rw [hps.getElem?_eq hp (Nat.le_refl _) hlt, Part.text, htext, Nat.sub_self]
      rfl
    · -- The only token there is the point itself.
      rintro - ⟨u, hu, hureal, hcovers⟩
      obtain rfl := (hps.eq_of_covers h hp (Nat.le_refl _) hlt rfl hspells hu).1 hcovers
      obtain ⟨whole, part, heq⟩ := hspells.exists_eq_real hureal
      cases heq

/-- An identifier is spelled neither like a keyword nor like a number. -/
theorem not_reserved_of_ident (h : ofSource src = .ok l) (hps : src.HasParts ps) {t : Token}
    (ht : t ∈ l.tokens) {name : String} (hname : t.lexeme = .atom (.ident name)) :
    (∀ k : Keyword, name ≠ k.text) ∧ ¬ IsSignedDigits name.toList := by
  obtain ⟨before, p, behind, s, hp, hs, hspells⟩ := exists_part h hps ht
  obtain rfl := hspells.eq_ident hname
  cases p with
  | word run =>
      have hreads := Spelling.reads_ofRun run
      obtain ⟨hrun, -⟩ := hps.fits hp
      rw [Option.some.inj hs] at hreads
      generalize hn : name.toList = cs at hreads
      cases hreads with
      | ident run hword hdigits =>
          refine ⟨?_, hdigits⟩
          rintro k rfl
          by_cases hk : k ∈ Keyword.words
          · exact hword k hk hn.symm
          · obtain ⟨c, hc, hid⟩ := Keyword.exists_mem_of_not_mem_words hk
            rw [hn] at hc
            rw [hrun.identifiers c hc] at hid
            cases hid
  | _ => cases hs

/-- **Maximal munch.** Each run of identifier characters outside of comments belongs as a whole
to one token, which the run and the characters next to it determine; brackets and points are
tokens, and there are no others. -/
theorem munches (h : ofSource src = .ok l) : l.Munches src := by
  obtain ⟨ps, hps⟩ := src.exists_hasParts
  exact ⟨fun _ _ hrun hcomment => exists_runToken h hps hrun hcomment,
    fun _ _ hk => exists_markToken h hps hk, fun _ ht => runToken_or_mark h hps ht,
    fun _ ht _ hname => not_reserved_of_ident h hps ht hname⟩

/-- A number with two points, a number with a letter and a boolean, behind one another. -/
theorem munches_chain :
    ∃ l, ofSource ⟨"a.scm", "1.2.3 1.5x #t".toList⟩ = .ok l ∧ l.tokens.length = 7 ∧
      l.Munches ⟨"a.scm", "1.2.3 1.5x #t".toList⟩ :=
  ⟨_, rfl, rfl, munches rfl⟩

end Lexed

end SchemeFront
