import Mathlib.Data.List.Forall2
import SchemeFront.Proofs.Lexer.Display
import SchemeFront.Proofs.Lexer.Munch

set_option autoImplicit false

/-! # Tokens with space between them

What stands between tokens does not matter, as long as there is something: words that are tokens
by themselves are scanned as these tokens when they are set apart by blanks and comments
(`Lexed.exists_ofScanned_of_spaced`). So the tokens of a source come back from their displays, and
from their excerpts, in any layout (`Lexed.relexes`).
-/

namespace SchemeFront

open Text

/-! ## Layouts -/

namespace Text

/-- Blanks, and comments with the newline that ends them. -/
inductive IsSpace : List Char → Prop
  | nil : IsSpace []
  | blank {c : Char} {rest : List Char} (hc : isBlank c = true) (more : IsSpace rest) :
      IsSpace (c :: rest)
  | comment {body rest : List Char} (hbody : '\n' ∉ body) (more : IsSpace rest) :
      IsSpace (';' :: (body ++ '\n' :: rest))

/-- The text shows the words in order, with some space between any two of them. -/
inductive Spaced : List (List Char) → List Char → Prop
  | nil : Spaced [] []
  | singleton (w : List Char) : Spaced [w] w
  | cons (w v : List Char) {ws : List (List Char)} {space text : List Char} (hne : space ≠ [])
      (hspace : IsSpace space) (more : Spaced (v :: ws) text) :
      Spaced (w :: v :: ws) (w ++ (space ++ text))

/-- Single blanks are space. -/
theorem spaced_intercalate (words : List (List Char)) : Spaced words ([' '].intercalate words) := by
  match words with
  | [] => exact .nil
  | [w] =>
      rw [List.intercalate_singleton]
      exact .singleton w
  | w :: v :: words =>
      rw [List.intercalate_cons_cons, List.append_assoc]
      exact .cons w v (by simp) (.blank (by decide) .nil) (spaced_intercalate (v :: words))

/-- The text begins with a blank or a comment, if it is not empty. -/
def StartsInSpace (cs : List Char) : Prop := ∀ c ∈ cs.head?, isBlank c = true ∨ c = ';'

theorem IsSpace.startsInSpace {space : List Char} (h : IsSpace space) (hne : space ≠ [])
    (rest : List Char) : StartsInSpace (space ++ rest) := by
  cases h with
  | nil => exact absurd rfl hne
  | blank hc more =>
      rintro c ⟨⟩
      exact .inl hc
  | comment hbody more =>
      rintro c ⟨⟩
      exact .inr rfl

/-- Space is no part of a word. -/
theorem StartsInSpace.startsInWord_eq_false {cs : List Char} (h : StartsInSpace cs) :
    startsInWord cs = false := by
  cases cs with
  | nil => rfl
  | cons c cs =>
      rw [startsInWord_cons]
      rcases h c rfl with hc | rfl
      · exact not_isIdentifier_of_isBlank hc
      · decide

end Text

/-- What `words` show, each by itself, are the tokens of `l`: any text that shows them with space
between them has no stray characters, and its tokens say exactly what those of `l` do. -/
def Lexed.Relexes (l : Lexed) (words : List (List Char)) : Prop :=
  ∀ path text, Spaced words text → ∃ m, ofSource ⟨path, text⟩ = .ok m ∧ m.diagnostics = [] ∧
    m.tokens.map Token.lexeme = l.tokens.map Token.lexeme

/-! ## Pieces -/

namespace Piece

/-- A run goes as far as the identifier characters do. -/
theorem pieces_run {run rest : List Char} (hne : run ≠ [])
    (hrun : ∀ c ∈ run, isIdentifier c = true) (hrest : startsInWord rest = false) :
    pieces false (run ++ rest) = .run run :: pieces false rest := by
  obtain ⟨c, cs, rfl⟩ := List.exists_cons_of_ne_nil hne
  have hc : isIdentifier c = true := hrun c (by simp)
  have hcs : ∀ d ∈ cs, isIdentifier d = true := fun d hd => hrun d (by simp [hd])
  have hsemi : c ≠ ';' := by
    rintro rfl
    cases hc
  have hstop : rest.takeWhile isIdentifier = [] ∧ rest.dropWhile isIdentifier = rest := by
    cases rest with
    | nil => exact ⟨rfl, rfl⟩
    | cons d ds =>
        rw [startsInWord_cons] at hrest
        simp [hrest]
  rw [List.cons_append, pieces, if_neg (by simp [hsemi]), if_pos hc, consRun_pieces,
    List.takeWhile_append_of_pos hcs, List.dropWhile_append_of_pos hcs, hstop.1, hstop.2,
    List.append_nil]

/-- A character of no run and no comment is a piece by itself. -/
theorem pieces_mark {c : Char} (hc : isIdentifier c = false) (hsemi : c ≠ ';')
    (rest : List Char) : pieces false (c :: rest) = .mark c :: pieces false rest := by
  rw [pieces, if_neg (by simp [hsemi]), if_neg (by simp [hc])]

/-- A comment goes up to the end of its line. -/
theorem pieces_comment {body : List Char} (hbody : '\n' ∉ body) (rest : List Char) :
    pieces false (';' :: (body ++ '\n' :: rest)) =
      .comment (';' :: body) :: .mark '\n' :: pieces false rest := by
  have hline : ∀ c ∈ body, (c != '\n') = true := by
    intro c hc
    simpa using ne_of_mem_of_not_mem hc hbody
  rw [pieces, if_pos (by simp), consComment_pieces, List.takeWhile_append_of_pos hline,
    List.dropWhile_append_of_pos hline, List.takeWhile_cons_of_neg (by simp),
    List.dropWhile_cons_of_neg (by simp), List.append_nil, pieces_mark (by decide) (by decide)]

/-- No point, and so no fraction, stands where a text begins with space. -/
theorem pieces_ne_point {rest : List Char} (h : StartsInSpace rest) (qs : List Piece) :
    pieces false rest ≠ .mark '.' :: qs := by
  intro heq
  cases rest with
  | nil => cases heq
  | cons c cs =>
      rcases h c rfl with hc | rfl
      · have hsemi : c ≠ ';' := by
          rintro rfl
          exact absurd hc (by decide)
        rw [pieces_mark (not_isIdentifier_of_isBlank hc) hsemi] at heq
        cases heq
        exact absurd hc (by decide)
      · rw [pieces, if_pos (by simp), consComment_pieces] at heq
        cases heq

end Piece

/-! ## The scan -/

namespace Scanned

variable {start : Nat} {rest : List Char}

/-- In the scan, a mark other than a number sign stands for itself. -/
theorem ofPieces_mark {c : Char} (hc : c ≠ '#') (ps : List Piece) :
    ofPieces start (.mark c :: ps) = consMark start c (ofPieces (start + 1) ps) := by
  rw [ofPieces]
  exact fun _ _ _ hmark => hc hmark

/-- A blank leaves nothing. -/
theorem ofPieces_blank {c : Char} (hc : isBlank c = true) (rest : List Char) :
    ofPieces start (Piece.pieces false (c :: rest)) =
      ofPieces (start + 1) (Piece.pieces false rest) := by
  have hne : c ≠ ';' ∧ c ≠ '#' := by
    constructor
    · rintro rfl
      exact absurd hc (by decide)
    · rintro rfl
      exact absurd hc (by decide)
  have hnone : Spelling.ofMark? c = none := by
    cases hk : Spelling.ofMark? c with
    | none => rfl
    | some k =>
        rw [(Spelling.classes_of_ofMark? hk).2] at hc
        cases hc
  rw [Piece.pieces_mark (not_isIdentifier_of_isBlank hc) hne.1, ofPieces_mark hne.2, consMark,
    hnone]
  exact if_pos hc

/-- Space leaves nothing. -/
theorem ofPieces_space {space : List Char} (h : IsSpace space) (rest : List Char) :
    ofPieces start (Piece.pieces false (space ++ rest)) =
      ofPieces (start + space.length) (Piece.pieces false rest) := by
  induction h generalizing start with
  | nil => rfl
  | blank hc more ih =>
      rw [List.cons_append, ofPieces_blank hc, ih, List.length_cons, Nat.add_right_comm,
        Nat.add_assoc]
  | @comment body space hbody more ih =>
      have hassoc : ';' :: (body ++ '\n' :: space) ++ rest
          = ';' :: (body ++ '\n' :: (space ++ rest)) := by
        simp
      rw [hassoc, Piece.pieces_comment hbody, ofPieces, ← Piece.pieces_mark (by decide) (by decide),
        ofPieces_blank (by decide), ih]
      simp only [List.length_cons, List.length_append]
      congr 1
      omega

/-- A run in front of space is a token. -/
theorem ofPieces_run {run : List Char} (hne : run ≠ []) (hrun : ∀ c ∈ run, isIdentifier c = true)
    (hrest : StartsInSpace rest) : ofPieces start (Piece.pieces false (run ++ rest)) =
      .token start (.ofRun run) :: ofPieces (start + run.length) (Piece.pieces false rest) := by
  rw [Piece.pieces_run hne hrun hrest.startsInWord_eq_false, ofPieces]
  intro part qs heq
  exact Piece.pieces_ne_point hrest _ heq

/-- A bracket or point is a token. -/
theorem ofPieces_keyword {c : Char} {k : Keyword} (hk : Spelling.ofMark? c = some k)
    (rest : List Char) : ofPieces start (Piece.pieces false (c :: rest)) =
      .token start (.keyword k) :: ofPieces (start + 1) (Piece.pieces false rest) := by
  have hid := (Spelling.classes_of_ofMark? hk).1
  have hne : c ≠ ';' ∧ c ≠ '#' := by
    constructor
    · rintro rfl
      cases hk
    · rintro rfl
      cases hk
  rw [Piece.pieces_mark hid hne.1, ofPieces_mark hne.2, consMark, hk]

end Scanned

/-! ## Words -/

namespace Spelling

/-- Signed digits are no word, and so they spell an integer. -/
theorem ofRun_of_isSignedDigits {cs : List Char} (h : isSignedDigits cs = true) :
    ofRun cs = integer cs := by
  rw [ofRun, ofWord?_of_isSignedDigits h]
  exact if_pos h

/-- **A spelling that can stand alone is scanned as it is** in front of space. -/
theorem scan_text {s : Spelling} (hs : s.StandsAlone) {start : Nat} {rest : List Char}
    (hrest : StartsInSpace rest) : Scanned.ofPieces start (Piece.pieces false (s.text ++ rest)) =
      .token start s :: Scanned.ofPieces (start + s.length) (Piece.pieces false rest) := by
  cases s with
  | keyword k =>
      cases k with
      | opening => exact Scanned.ofPieces_keyword rfl rest
      | closing => exact Scanned.ofPieces_keyword rfl rest
      | point => exact Scanned.ofPieces_keyword rfl rest
      | define => exact Scanned.ofPieces_run (by decide) (List.all_eq_true.1 (by decide)) hrest
      | lambda => exact Scanned.ofPieces_run (by decide) (List.all_eq_true.1 (by decide)) hrest
      | conditional => exact Scanned.ofPieces_run (by decide) (List.all_eq_true.1 (by decide)) hrest
      | assign => exact Scanned.ofPieces_run (by decide) (List.all_eq_true.1 (by decide)) hrest
  | boolean b =>
      have hletter : ∀ c ∈ [if b then 't' else 'f'], isIdentifier c = true :=
        List.all_eq_true.1 (by cases b <;> decide)
      have hpieces := Piece.pieces_run (by simp) hletter hrest.startsInWord_eq_false
      show Scanned.ofPieces start
        (Piece.pieces false ('#' :: ([if b then 't' else 'f'] ++ rest))) = _
      rw [Piece.pieces_mark (by decide) (by decide), hpieces, Scanned.ofPieces]
      cases b <;> rfl
  | integer cs =>
      have hne : cs ≠ [] := by
        rintro rfl
        cases hs
      rw [← ofRun_of_isSignedDigits hs, text_ofRun, length, text_ofRun]
      exact Scanned.ofPieces_run hne (isIdentifier_of_isSignedDigits hs) hrest
  | real whole part =>
      have hwhole : whole ≠ [] := by
        rintro rfl
        cases hs.1
      rw [text, List.append_assoc, List.cons_append,
        Piece.pieces_run hwhole (isIdentifier_of_isSignedDigits hs.1) rfl,
        Piece.pieces_mark (by decide) (by decide), Piece.pieces_run (isDigits_iff.1 hs.2).1
        (isIdentifier_of_isDigits hs.2) hrest.startsInWord_eq_false, Scanned.ofPieces,
        if_pos (by rw [hs.1, hs.2]; rfl)]
      simp [length, text]
  | ident name =>
      have hscan : Scanned.ofPieces start (Piece.pieces false (name ++ rest)) = _ :=
        Scanned.ofPieces_run hs.1 hs.2.1 hrest
      rwa [hs.2.2] at hscan

end Spelling

/-! ## Sources -/

namespace Lexed

variable {src : Source} {l : Lexed}

/-- Words that stand for lexemes give them back, whatever space is between them. -/
theorem exists_ofScanned_of_spaced {words : List (List Char)} {xs : List Lexeme}
    {text : List Char} (path : String) (start : Nat)
    (h : List.Forall₂ (fun w x => ∃ s : Spelling, s.StandsAlone ∧ s.text = w ∧ s.lexeme = .ok x)
      words xs) (ht : Spaced words text) :
    ∃ m, ofScanned path (Scanned.ofPieces start (Piece.pieces false text)) = .ok m ∧
      m.diagnostics = [] ∧ m.tokens.map Token.lexeme = xs := by
  -- A word in front of space is one token, in front of those that the rest gives.
  have step : ∀ {s : Spelling} {x : Lexeme} {xs : List Lexeme} {start : Nat} {rest : List Char},
      s.StandsAlone → s.lexeme = .ok x → StartsInSpace rest →
      (∃ m, ofScanned path (Scanned.ofPieces (start + s.length) (Piece.pieces false rest)) = .ok m ∧
        m.diagnostics = [] ∧ m.tokens.map Token.lexeme = xs) →
      ∃ m, ofScanned path (Scanned.ofPieces start (Piece.pieces false (s.text ++ rest))) = .ok m ∧
        m.diagnostics = [] ∧ m.tokens.map Token.lexeme = x :: xs := by
    rintro s x xs start rest hs hx hrest ⟨m, hm, hnone, rfl⟩
    refine ⟨⟨⟨x, Span.ofLength path start s.length⟩ :: m.tokens, m.diagnostics⟩, ?_, hnone, rfl⟩
    rw [Spelling.scan_text hs hrest, ofScanned, hx, hm]
    rfl
  induction ht generalizing start xs with
  | nil =>
      cases h
      exact ⟨{}, rfl, rfl, rfl⟩
  | singleton w =>
      obtain ⟨x, _, ⟨s, hs, rfl, hx⟩, hnil, rfl⟩ := List.forall₂_cons_left_iff.1 h
      cases hnil
      rw [← List.append_nil s.text]
      exact step hs hx (by simp [StartsInSpace]) ⟨{}, rfl, rfl, rfl⟩
  | @cons w v ws space text hne hspace more ih =>
      obtain ⟨x, xs, ⟨s, hs, rfl, hx⟩, hmore, rfl⟩ := List.forall₂_cons_left_iff.1 h
      refine step hs hx (hspace.startsInSpace hne text) ?_
      rw [Scanned.ofPieces_space hspace]
      exact ih _ hmore

theorem relexes_of_forall {f : Token → List Char}
    (h : ∀ t ∈ l.tokens, ∃ s : Spelling, s.StandsAlone ∧ s.text = f t ∧ s.lexeme = .ok t.lexeme) :
    l.Relexes (l.tokens.map f) := by
  intro path text ht
  simp only [ofSource, Scanned.ofText_eq_ofPieces]
  refine exists_ofScanned_of_spaced path 0 ?_ ht
  rw [List.forall₂_map_left_iff, List.forall₂_map_right_iff, List.forall₂_same]
  exact h

/-- A token stands in the source between what is before and behind it, in a spelling that can
stand alone. -/
theorem exists_spelled (h : ofSource src = .ok l) {t : Token} (ht : t ∈ l.tokens) :
    ∃ before s behind, src.text = before ++ s.text ++ behind ∧ s.StandsAlone ∧
      l.Spells src before.length s t := by
  obtain ⟨ps, hps⟩ := src.exists_hasParts
  obtain ⟨before, p, behind, s, hp, hs, hspells⟩ := exists_part h hps ht
  refine ⟨before, s, behind, ?_, Spelling.standsAlone_of_spelling? (hps.fits hp) hs, hspells⟩
  rw [← hps.text_eq, hp.flatMap_eq, Part.text_of_spelling? hs]

/-- The source shows each token in a spelling that can stand alone. -/
theorem exists_standsAlone (h : ofSource src = .ok l) {t : Token} (ht : t ∈ l.tokens) :
    ∃ s : Spelling, s.StandsAlone ∧ s.text = src.excerpt t.span ∧ s.lexeme = .ok t.lexeme := by
  obtain ⟨before, s, behind, htext, hs, hspells⟩ := exists_spelled h ht
  refine ⟨s, hs, ?_, hspells.lexeme_eq⟩
  rw [hspells.span_eq, Spelling.length, Source.excerpt_ofLength htext]

/-- **Tokens come back from their displays and from their excerpts, in any layout.** All tokens of
a source can be displayed. Set apart by blanks and comments, the displays are read as tokens that
say the same, with the written sign of a decimal, and so are the excerpts. -/
theorem relexes (h : ofSource src = .ok l) :
    (∀ t ∈ l.tokens, t.lexeme.isWritable = true) ∧
      l.Relexes (l.tokens.map fun t => t.text.toList) ∧
      l.Relexes (l.tokens.map fun t => src.excerpt t.span) := by
  refine ⟨?_, relexes_of_forall ?_, relexes_of_forall fun t ht => exists_standsAlone h ht⟩
  · intro t ht
    obtain ⟨s, hs, -, hx⟩ := exists_standsAlone h ht
    obtain ⟨x, hx', hwrite⟩ := Spelling.exists_lexeme_eq_ok hs.isNumeric
      (Spelling.isOverlong_eq_false hs.isNumeric hx)
    rw [hx] at hx'
    cases hx'
    exact hwrite
  · intro t ht
    obtain ⟨s, hs, -, hx⟩ := exists_standsAlone h ht
    exact Spelling.exists_display hs hx

/-- Tokens that nothing separates, and numbers that are displayed in another spelling. -/
theorem relexes_adjacent :
    ∃ l, ofSource ⟨"a.scm", "1.x a#t 1.2.3 -00.0(+07)".toList⟩ = .ok l ∧ l.tokens.length = 12 ∧
      (∀ t ∈ l.tokens, t.lexeme.isWritable = true) ∧
      l.Relexes (l.tokens.map fun t => t.text.toList) ∧
      l.Relexes (l.tokens.map fun t => Source.excerpt ⟨"a.scm", "1.x a#t 1.2.3 -00.0(+07)".toList⟩
        t.span) :=
  ⟨_, rfl, rfl, relexes rfl⟩

end Lexed

end SchemeFront
