import SchemeFront.Proofs.Lexer.Numeral

set_option autoImplicit false

/-! # The parts of a source

A source text falls into words, numbers with a point, booleans, brackets and points, comments,
blanks and stray characters. What may stand at a place is said by the characters around it alone
(`Part.Fits`). Every text has parts that fit, and they are what the scan recognises
(`Source.exists_hasParts`): the tokens are what the parts spell (`Lexed.exists_token`,
`Lexed.exists_part`), and the findings are about the stray ones (`Lexed.mem_diagnostics_iff`).
-/

namespace SchemeFront

open Text

/-! ## Parts -/

/-- A part of a source text. -/
inductive Part where
  /-- A semicolon and the rest of the line. -/
  | comment (body : List Char)
  /-- A run of identifier characters that is a token by itself. -/
  | word (run : List Char)
  | real (whole part : List Char)
  | boolean (value : Bool)
  /-- A bracket or a point. -/
  | mark (keyword : Keyword)
  | blank (char : Char)
  | stray (char : Char)
deriving DecidableEq

namespace Part

/-- The characters of a part. -/
def text : Part → List Char
  | comment body => ';' :: body
  | word run => run
  | real whole part => (Spelling.real whole part).text
  | boolean b => (Spelling.boolean b).text
  | mark k => k.text.toList
  | blank c => [c]
  | stray c => [c]

/-- How the token is spelled that the part makes. -/
def spelling? : Part → Option Spelling
  | word run => some (.ofRun run)
  | real whole part => some (.real whole part)
  | boolean b => some (.boolean b)
  | mark k => some (.keyword k)
  | _ => none

/-- What the scan recognises in the part. -/
def scanned? (start : Nat) : Part → Option Scanned
  | stray c => some (.stray start c)
  | p => p.spelling?.map (.token start)

/-- What the scan recognises in parts, the first of which starts at the offset `start`. -/
def found : (start : Nat) → List Part → List Scanned
  | _, [] => []
  | start, p :: ps => (p.scanned? start).toList ++ found (start + p.text.length) ps

/-- The part may stand between `before` and `behind`. -/
def Fits (before behind : List Char) : Part → Prop
  | comment body => '\n' ∉ body ∧ ∀ c ∈ behind.head?, c = '\n'
  | word run => IsRun before run behind ∧ ¬ Spelling.TakesPoint run behind ∧
      (before.getLast? = some '#' → Spelling.boolean? run = none)
  | real whole part => Spelling.isSignedDigits whole = true ∧ Spelling.isDigits part = true ∧
      endsInWord before = false ∧ startsInWord behind = false
  | boolean _ => startsInWord behind = false
  | mark k => ∃ c, Spelling.ofMark? c = some k
  | blank c => isBlank c = true
  | stray c => isBlank c = false ∧ isIdentifier c = false ∧ Spelling.ofMark? c = none ∧
      c ≠ ';' ∧ (c = '#' → ¬ Spelling.StartsBoolean behind)

/-- The parts fit in one after the other. -/
def Fitting (before : List Char) : List Part → Prop
  | [] => True
  | p :: ps => p.Fits before (ps.flatMap text) ∧ Fitting (before ++ p.text) ps

theorem text_of_spelling? {p : Part} {s : Spelling} (h : p.spelling? = some s) :
    s.text = p.text := by
  cases p with
  | word run =>
      cases h
      exact Spelling.text_ofRun run
  | _ => cases h <;> rfl

/-- A part that stands among fitting ones fits. -/
theorem Fitting.fits {ps : List Part} {front before behind : List Char} {p : Part}
    (h : Fitting front ps) (hp : StandsIn text ps before p behind) :
    p.Fits (front ++ before) behind := by
  induction ps generalizing front before with
  | nil => cases hp.mem
  | cons q ps ih =>
      rcases StandsIn.cons_iff.1 hp with ⟨rfl, rfl, rfl⟩ | ⟨before, rfl, hrest⟩
      · rw [List.append_nil]
        exact h.1
      · rw [← List.append_assoc]
        exact ih h.2 hrest

/-- What is recognised in parts is recognised in one of them. -/
theorem mem_found_iff {ps : List Part} {start : Nat} {i : Scanned} : i ∈ found start ps ↔
    ∃ before p behind, StandsIn text ps before p behind ∧
      p.scanned? (start + before.length) = some i := by
  induction ps generalizing start with
  | nil =>
      simp only [found, List.not_mem_nil, false_iff]
      rintro ⟨before, p, behind, hp, -⟩
      cases hp.mem
  | cons q ps ih =>
      rw [found, List.mem_append, Option.mem_toList, ih]
      constructor
      · rintro (hq | ⟨before, p, behind, hp, hi⟩)
        · exact ⟨[], q, _, StandsIn.cons_iff.2 (.inl ⟨rfl, rfl, rfl⟩), hq⟩
        · refine ⟨q.text ++ before, p, behind, StandsIn.cons_iff.2 (.inr ⟨before, rfl, hp⟩), ?_⟩
          rwa [List.length_append, ← Nat.add_assoc]
      · rintro ⟨before, p, behind, hp, hi⟩
        rcases StandsIn.cons_iff.1 hp with ⟨rfl, rfl, rfl⟩ | ⟨before, rfl, hrest⟩
        · exact .inl hi
        · refine .inr ⟨before, p, behind, hrest, ?_⟩
          rwa [Nat.add_assoc, ← List.length_append]

/-! ## The parts of a scan -/

/-- The parts `ps` fit behind `before`, make up the text of the pieces and are what the scan of
the pieces gives. -/
structure Tells (before : List Char) (start : Nat) (pieces : List Piece) (items : List Scanned)
    (ps : List Part) : Prop where
  text_eq : ps.flatMap text = pieces.flatMap Piece.text
  found_eq : found start ps = items
  fitting : Fitting before ps

/-- The first piece does not go on with a token that `before` has begun. -/
def Fresh (before : List Char) (pieces : List Piece) : Prop :=
  ∀ run qs, pieces = .run run :: qs → endsInWord before = false ∧
    (before.getLast? = some '#' → Spelling.boolean? run = none)

theorem Tells.cons {before : List Char} {start : Nat} {p : Part} (front : List Piece)
    {pieces : List Piece} {items : List Scanned} {ps : List Part}
    (htext : p.text = front.flatMap Piece.text)
    (hfits : p.Fits before (pieces.flatMap Piece.text))
    (h : Tells (before ++ p.text) (start + p.text.length) pieces items ps) :
    Tells before start (front ++ pieces) ((p.scanned? start).toList ++ items) (p :: ps) where
  text_eq := by rw [List.flatMap_cons, List.flatMap_append, h.text_eq, htext]
  found_eq := by rw [found, h.found_eq]
  fitting := ⟨by rwa [h.text_eq], h.fitting⟩

theorem fresh_run {before : List Char} {text : List Char} {qs : List Piece} :
    Fresh before (.run text :: qs) ↔ endsInWord before = false ∧
      (before.getLast? = some '#' → Spelling.boolean? text = none) := by
  constructor
  · intro h
    exact h text qs rfl
  · intro h run qs' heq
    cases heq
    exact h

/-- Behind a run any piece is fresh, as it is none. -/
theorem fresh_of_proper {before run : List Char} {ps : List Piece}
    (h : Piece.Proper (.run run :: ps)) : Fresh before ps := by
  intro run' qs heq
  exact absurd heq (h.2.1 run' qs)

/-- A mark that is the last character of `before` begins no token with the next piece. -/
theorem fresh_of_mark {before : List Char} {c : Char} {ps : List Piece}
    (hc : isIdentifier c = false)
    (h : c = '#' → ∀ run qs, ps = .run run :: qs → Spelling.boolean? run = none) :
    Fresh (before ++ [c]) ps := by
  intro run qs heq
  rw [endsInWord_append_singleton]
  exact ⟨hc, fun hlast => h (by simpa using hlast) run qs heq⟩

/-- A run stands as a word where no longer token takes it in. -/
theorem fits_word {before run : List Char} {ps : List Piece}
    (h : Piece.Proper (.run run :: ps)) (hfresh : Fresh before (.run run :: ps))
    (hpoint : ¬ Spelling.TakesPoint run (ps.flatMap Piece.text)) :
    (word run).Fits before (ps.flatMap Piece.text) := by
  obtain ⟨hfirst, hsign⟩ := fresh_run.1 hfresh
  exact ⟨⟨h.1.1, h.1.2, hfirst, h.startsInWord_eq_false⟩, hpoint, hsign⟩

/-- A mark is a bracket or a point, or blank, or a stray character. -/
theorem exists_tells_mark {before : List Char} {start : Nat} {c : Char} {pieces : List Piece}
    {items : List Scanned} {ps : List Part} (h : Piece.Proper (.mark c :: pieces))
    (hsign : c = '#' → ¬ Spelling.StartsBoolean (pieces.flatMap Piece.text))
    (hrest : Tells (before ++ [c]) (start + 1) pieces items ps) :
    ∃ p, Tells before start (.mark c :: pieces) (Scanned.consMark start c items) (p :: ps) := by
  unfold Scanned.consMark
  cases hk : Spelling.ofMark? c with
  | some k =>
      have htext : (mark k).text = [c] := Spelling.text_of_ofMark? hk
      exact ⟨mark k, .cons [.mark c] htext ⟨c, hk⟩ (by rwa [htext])⟩
  | none =>
      dsimp only
      by_cases hb : isBlank c = true
      · rw [if_pos hb]
        have hfits : (blank c).Fits before (pieces.flatMap Piece.text) := hb
        exact ⟨blank c, .cons [.mark c] rfl hfits hrest⟩
      · rw [if_neg hb]
        have hfits : (stray c).Fits before (pieces.flatMap Piece.text) :=
          ⟨by simpa using hb, h.1.1, hk, h.1.2, hsign⟩
        exact ⟨stray c, .cons [.mark c] rfl hfits hrest⟩

/-- Proper pieces have parts. -/
theorem exists_tells_ofPieces {before : List Char} (start : Nat) {pieces : List Piece}
    (h : Piece.Proper pieces) (hfresh : Fresh before pieces) :
    ∃ ps, Tells before start pieces (Scanned.ofPieces start pieces) ps := by
  fun_induction Scanned.ofPieces start pieces generalizing before with
  | case1 start => exact ⟨[], rfl, rfl, trivial⟩
  | case2 start text pieces ih =>
      obtain ⟨⟨body, rfl, hbody⟩, hmeets, hpieces⟩ := h
      have hnext : Fresh (before ++ ';' :: body) pieces := by
        rcases hmeets with rfl | ⟨qs, rfl⟩
        · rintro run qs ⟨⟩
        · rintro run qs ⟨⟩
      obtain ⟨ps, hps⟩ := ih hpieces hnext
      have hfits : (comment body).Fits before (pieces.flatMap Piece.text) :=
        ⟨hbody, Piece.Proper.head?_flatMap ⟨⟨body, rfl, hbody⟩, hmeets, hpieces⟩⟩
      exact ⟨comment body :: ps, .cons [.comment (';' :: body)]
        (by simp [text, Piece.text]) hfits hps⟩
  | case3 start whole part pieces hdigits ih =>
      rw [Bool.and_eq_true] at hdigits
      have hpart := h.2.2.2.2
      have hnext : Fresh (before ++ (whole ++ '.' :: part)) pieces := fresh_of_proper hpart
      obtain ⟨ps, hps⟩ := ih hpart.2.2 hnext
      have hfits : (real whole part).Fits before (pieces.flatMap Piece.text) :=
        ⟨hdigits.1, hdigits.2, (fresh_run.1 hfresh).1, hpart.startsInWord_eq_false⟩
      refine ⟨real whole part :: ps,
        .cons [.run whole, .mark '.', .run part] ?_ hfits ?_⟩
      · simp [text, Spelling.text, Piece.text]
      · simpa [text, Spelling.text] using hps
  | case4 start whole part pieces hdigits ih =>
      obtain ⟨ps, hps⟩ := ih h.2.2 (fresh_of_proper h)
      exact ⟨word whole :: ps, .cons [.run whole] (by simp [text, Piece.text])
        (fits_word h hfresh (Spelling.not_takesPoint_of_run h.2.2.2.2 hdigits)) hps⟩
  | case5 start run pieces hshape ih =>
      obtain ⟨ps, hps⟩ := ih h.2.2 (fresh_of_proper h)
      exact ⟨word run :: ps, .cons [.run run] (by simp [text, Piece.text])
        (fits_word h hfresh (Spelling.not_takesPoint_of_shape h.2.2 hshape)) hps⟩
  | case6 start run pieces b hb ih =>
      have hrun := h.2.2
      have htext : (boolean b).text = '#' :: run := Spelling.text_boolean hb
      have hlen : (boolean b).text.length = 2 := by cases b <;> rfl
      have hnext : Fresh (before ++ (boolean b).text) pieces := fresh_of_proper hrun
      obtain ⟨ps, hps⟩ := ih hrun.2.2 hnext
      have hfits : (boolean b).Fits before (pieces.flatMap Piece.text) := hrun.startsInWord_eq_false
      exact ⟨boolean b :: ps, .cons [.mark '#', .run run]
        (by simp [htext, Piece.text]) hfits (by rwa [hlen])⟩
  | case7 start run pieces hb ih =>
      have hnext : Fresh (before ++ ['#']) (.run run :: pieces) := by
        refine fresh_of_mark h.1.1 ?_
        rintro - run' qs heq
        cases heq
        exact hb
      obtain ⟨ps, hps⟩ := ih h.2.2 hnext
      obtain ⟨p, hp⟩ :=
        exists_tells_mark h (fun _ => Spelling.not_startsBoolean_of_run h.2.2 hb) hps
      exact ⟨_, hp⟩
  | case8 start c pieces hshape ih =>
      have hnone : ∀ run qs, c = '#' → pieces ≠ .run run :: qs := by
        intro run qs hc heq
        exact hshape run qs heq hc
      have hnext : Fresh (before ++ [c]) pieces :=
        fresh_of_mark h.1.1 fun hc run qs heq => absurd heq (hnone run qs hc)
      obtain ⟨ps, hps⟩ := ih h.2.2 hnext
      obtain ⟨p, hp⟩ := exists_tells_mark h
        (fun hc => Spelling.not_startsBoolean_of_shape h.2.2 fun run qs => hnone run qs hc) hps
      exact ⟨_, hp⟩

/-! ## Looking up what was recognised -/

theorem scanned?_eq_token_iff {p : Part} {n start : Nat} {s : Spelling} :
    p.scanned? n = some (.token start s) ↔ start = n ∧ p.spelling? = some s := by
  cases p <;> simp [scanned?, spelling?, eq_comm]

theorem scanned?_eq_stray_iff {p : Part} {n start : Nat} {c : Char} :
    p.scanned? n = some (.stray start c) ↔ start = n ∧ p = stray c := by
  cases p <;> simp [scanned?, spelling?, eq_comm]

end Part

/-- The parts `ps` make up the source, and they are what the scan recognises in it. -/
structure Source.HasParts (src : Source) (ps : List Part) : Prop where
  text_eq : ps.flatMap Part.text = src.text
  found_eq : Part.found 0 ps = Scanned.ofText src.text
  fitting : Part.Fitting [] ps

/-- Every source has parts. -/
theorem Source.exists_hasParts (src : Source) : ∃ ps, src.HasParts ps := by
  have hfresh : Part.Fresh [] (Piece.pieces false src.text) := by
    intro run qs _
    exact ⟨rfl, fun h => by cases h⟩
  obtain ⟨ps, hps⟩ := Part.exists_tells_ofPieces 0 (Piece.proper_pieces src.text) hfresh
  exact ⟨ps, by rw [hps.text_eq, Piece.flatMap_text_pieces],
    by rw [hps.found_eq, Scanned.ofText_eq_ofPieces], hps.fitting⟩

namespace Lexed

/-- At the offset `i` begins the token `t`, and it is spelled `s`. -/
structure Spells (l : Lexed) (src : Source) (i : Nat) (s : Spelling) (t : Token) : Prop where
  mem : t ∈ l.tokens
  lexeme_eq : s.lexeme = .ok t.lexeme
  span_eq : t.span = Span.ofLength src.path i s.length

/-- Only one token is spelled in one way at one place. -/
theorem Spells.unique {l : Lexed} {src : Source} {i : Nat} {s : Spelling} {t u : Token}
    (ht : l.Spells src i s t) (hu : l.Spells src i s u) : t = u := by
  have hspan : t.span = u.span := by rw [ht.span_eq, hu.span_eq]
  have hlexeme : t.lexeme = u.lexeme := by
    have heq := ht.lexeme_eq.symm.trans hu.lexeme_eq
    injection heq
  cases t
  cases u
  cases hspan
  cases hlexeme
  rfl

variable {path : String} {items : List Scanned} {src : Source} {l : Lexed} {ps : List Part}

/-- What was recognised as a token became one. -/
theorem exists_mem_of_mem_items (h : ofScanned path items = .ok l) {start : Nat} {s : Spelling}
    (hs : .token start s ∈ items) : ∃ lexeme, s.lexeme = .ok lexeme ∧
      ⟨lexeme, Span.ofLength path start s.length⟩ ∈ l.tokens := by
  induction items generalizing l with
  | nil => cases hs
  | cons i items ih =>
      cases i with
      | token start' s' =>
          obtain ⟨lexeme, more, hread, hmore, htokens, -⟩ := ofScanned_token_eq_ok h
          rw [htokens]
          rcases List.mem_cons.1 hs with heq | hs
          · cases heq
            exact ⟨lexeme, hread, List.mem_cons_self ..⟩
          · obtain ⟨lexeme', hread', hmem⟩ := ih hmore hs
            exact ⟨lexeme', hread', List.mem_cons_of_mem _ hmem⟩
      | stray start' c =>
          obtain ⟨more, hmore, htokens, -⟩ := ofScanned_stray_eq_ok h
          rw [htokens]
          exact ih hmore (by simpa using hs)

/-- The findings are those about the stray characters, in order. -/
theorem diagnostics_ofScanned (h : ofScanned path items = .ok l) :
    l.diagnostics = items.filterMap fun
      | .token _ _ => none
      | .stray start c => some (strayChar path start c) := by
  induction items generalizing l with
  | nil =>
      cases h
      rfl
  | cons i items ih =>
      cases i with
      | token start s =>
          obtain ⟨lexeme, more, -, hmore, -, hdiagnostics⟩ := ofScanned_token_eq_ok h
          rw [hdiagnostics, ih hmore]
          rfl
      | stray start c =>
          obtain ⟨more, hmore, -, hdiagnostics⟩ := ofScanned_stray_eq_ok h
          rw [hdiagnostics, ih hmore]
          rfl

/-- A part that spells a token has made it. -/
theorem exists_token (h : ofSource src = .ok l) (hps : src.HasParts ps)
    {before behind : List Char} {p : Part} (hp : StandsIn Part.text ps before p behind)
    {s : Spelling} (hs : p.spelling? = some s) : ∃ t, l.Spells src before.length s t := by
  have hmem : .token before.length s ∈ Scanned.ofText src.text := by
    rw [← hps.found_eq, Part.mem_found_iff]
    exact ⟨before, p, behind, hp, Part.scanned?_eq_token_iff.2 ⟨by rw [Nat.zero_add], hs⟩⟩
  obtain ⟨lexeme, hread, hmem'⟩ := exists_mem_of_mem_items h hmem
  exact ⟨_, hmem', hread, rfl⟩

/-- A token is what a part spells. -/
theorem exists_part (h : ofSource src = .ok l) (hps : src.HasParts ps) {t : Token}
    (ht : t ∈ l.tokens) : ∃ before p behind s, StandsIn Part.text ps before p behind ∧
      p.spelling? = some s ∧ l.Spells src before.length s t := by
  obtain ⟨start, s, hmem, hread, hspan⟩ := exists_of_mem_ofScanned h ht
  rw [← hps.found_eq, Part.mem_found_iff] at hmem
  obtain ⟨before, p, behind, hp, hs⟩ := hmem
  obtain ⟨rfl, hspell⟩ := Part.scanned?_eq_token_iff.1 hs
  rw [Nat.zero_add] at hspan
  exact ⟨before, p, behind, s, hp, hspell, ht, hread, hspan⟩

/-- The findings are about the stray parts. -/
theorem mem_diagnostics_iff (h : ofSource src = .ok l) (hps : src.HasParts ps) {d : Diagnostic} :
    d ∈ l.diagnostics ↔ ∃ before c behind, StandsIn Part.text ps before (.stray c) behind ∧
      d = strayChar src.path before.length c := by
  rw [diagnostics_ofScanned h, List.mem_filterMap]
  constructor
  · rintro ⟨i, hmem, hd⟩
    cases i with
    | token start s => cases hd
    | stray start c =>
        cases hd
        rw [← hps.found_eq, Part.mem_found_iff] at hmem
        obtain ⟨before, p, behind, hp, hs⟩ := hmem
        obtain ⟨rfl, rfl⟩ := Part.scanned?_eq_stray_iff.1 hs
        exact ⟨before, c, behind, hp, by rw [Nat.zero_add]⟩
  · rintro ⟨before, c, behind, hp, rfl⟩
    refine ⟨.stray before.length c, ?_, rfl⟩
    rw [← hps.found_eq, Part.mem_found_iff]
    exact ⟨before, _, behind, hp, Part.scanned?_eq_stray_iff.2 ⟨by rw [Nat.zero_add], rfl⟩⟩

end Lexed

end SchemeFront
