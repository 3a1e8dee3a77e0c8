import SchemeFront.Lexer
import SchemeFront.Proofs.Text.Parts

set_option autoImplicit false

/-! # How a text is cut into pieces

For reasoning, a text is cut into pieces: comments, longest runs of identifier characters, and
single other characters. A comment goes from a semicolon to the end of its line. The pieces lose
nothing (`Piece.flatMap_text_pieces`), and they are longest ones (`Piece.proper_pieces`), so that
the first characters of a text say what its first piece is.

`Scanned.ofPieces` says what is recognised in pieces. A run is one token (`Spelling.ofRun`), with
two exceptions: signed digits, a point and a run of digits make up one real, and after a number
sign a run `t` or `f` is a boolean.
-/

namespace SchemeFront

open Text

/-! ## What runs spell -/

namespace Spelling

/-- One digit or more. -/
def isDigits (cs : List Char) : Bool := !cs.isEmpty && cs.all Char.isDigit

/-- Digits behind an optional sign. -/
def isSignedDigits (cs : List Char) : Bool := isDigits (splitSign cs).2

/-- What a run spells by itself: a reserved word, an integer or an identifier. -/
def ofRun (run : List Char) : Spelling :=
  match Keyword.ofWord? run with
  | some k => keyword k
  | none => if isSignedDigits run then integer run else ident run

/-- The boolean that a run behind a number sign spells. -/
def boolean? : List Char → Option Bool
  | ['t'] => some true
  | ['f'] => some false
  | _ => none

/-- The keyword that a single character is. -/
def ofMark? (c : Char) : Option Keyword :=
  if c = '(' then some .opening
  else if c = ')' then some .closing
  else if c = '.' then some .point
  else none

/-- A run of digits, with an optional sign in front, that a point and digits follow. -/
def TakesPoint (run behind : List Char) : Prop :=
  isSignedDigits run = true ∧ ∃ part rest, behind = '.' :: (part ++ rest) ∧
    isDigits part = true ∧ startsInWord rest = false

/-- The number sign in front of `behind` is that of a boolean. -/
def StartsBoolean (behind : List Char) : Prop :=
  ∃ run rest, behind = run ++ rest ∧ (boolean? run).isSome ∧ startsInWord rest = false

theorem isDigits_iff {cs : List Char} :
    isDigits cs = true ↔ cs ≠ [] ∧ ∀ c ∈ cs, c.isDigit = true := by
  simp [isDigits]

/-- Digits are identifier characters. -/
theorem isIdentifier_of_isDigits {cs : List Char} (h : isDigits cs = true) :
    ∀ c ∈ cs, isIdentifier c = true := fun c hc =>
  isIdentifier_of_isDigit ((isDigits_iff.1 h).2 c hc)

/-- Digits have no sign in front. -/
theorem splitSign_of_isDigits {ds : List Char} (h : isDigits ds = true) :
    splitSign ds = (false, ds) := by
  unfold splitSign
  split
  · simp [isDigits, show '-'.isDigit = false from rfl] at h
  · simp [isDigits, show '+'.isDigit = false from rfl] at h
  · rfl

/-- A number with a sign is the sign, or nothing, and digits. -/
theorem isSignedDigits_iff_exists {cs : List Char} : isSignedDigits cs = true ↔
    ∃ sign ds, cs = sign ++ ds ∧ sign ∈ [[], ['+'], ['-']] ∧ isDigits ds = true := by
  constructor
  · intro h
    unfold isSignedDigits splitSign at h
    split at h
    · exact ⟨['-'], _, rfl, by simp, h⟩
    · exact ⟨['+'], _, rfl, by simp, h⟩
    · exact ⟨[], _, rfl, by simp, h⟩
  · rintro ⟨sign, ds, rfl, hsign, hds⟩
    simp only [List.mem_cons, List.not_mem_nil, or_false] at hsign
    rcases hsign with rfl | rfl | rfl
    · rw [List.nil_append, isSignedDigits, splitSign_of_isDigits hds]
      exact hds
    · exact hds
    · exact hds

/-- Signs and digits are identifier characters. -/
theorem isIdentifier_of_isSignedDigits {cs : List Char} (h : isSignedDigits cs = true) :
    ∀ c ∈ cs, isIdentifier c = true := by
  unfold isSignedDigits splitSign at h
  intro c hc
  split at h
  · rcases List.mem_cons.1 hc with rfl | hc
    · decide
    · exact isIdentifier_of_isDigits h c hc
  · rcases List.mem_cons.1 hc with rfl | hc
    · decide
    · exact isIdentifier_of_isDigits h c hc
  · exact isIdentifier_of_isDigits h c hc

/-- No number is a reserved word. -/
theorem ofWord?_of_isSignedDigits {cs : List Char} (h : isSignedDigits cs = true) :
    Keyword.ofWord? cs = none := by
  rw [Keyword.ofWord?, List.find?_eq_none]
  intro k hk heq
  rw [← eq_of_beq heq] at h
  simp only [Keyword.words, List.mem_cons, List.not_mem_nil, or_false] at hk
  rcases hk with rfl | rfl | rfl | rfl <;> revert h <;> decide

theorem text_of_ofMark? {c : Char} {k : Keyword} (h : ofMark? c = some k) :
    k.text.toList = [c] := by
  unfold ofMark? at h
  split at h
  · cases h
    subst c
    rfl
  · split at h
    · cases h
      subst c
      rfl
    · split at h
      · cases h
        subst c
        rfl
      · cases h

theorem mem_of_ofMark? {c : Char} {k : Keyword} (h : ofMark? c = some k) :
    c ∈ ['(', ')', '.'] := by
  unfold ofMark? at h
  split at h
  · simp [*]
  · split at h
    · simp [*]
    · split at h
      · simp [*]
      · cases h

theorem ofMark?_of_mem {k : Keyword} (hk : k ∈ [Keyword.opening, .closing, .point]) {c : Char}
    (hc : k.text.toList = [c]) : ofMark? c = some k := by
  simp only [List.mem_cons, List.not_mem_nil, or_false] at hk
  rcases hk with rfl | rfl | rfl <;> cases hc <;> rfl

theorem exists_ofMark?_of_mem {k : Keyword} (hk : k ∈ [Keyword.opening, .closing, .point]) :
    ∃ c, ofMark? c = some k := by
  simp only [List.mem_cons, List.not_mem_nil, or_false] at hk
  rcases hk with rfl | rfl | rfl
  · exact ⟨'(', rfl⟩
  · exact ⟨')', rfl⟩
  · exact ⟨'.', rfl⟩

theorem mem_marks_of_ofMark? {c : Char} {k : Keyword} (h : ofMark? c = some k) :
    k ∈ [Keyword.opening, .closing, .point] := by
  have hc := mem_of_ofMark? h
  simp only [List.mem_cons, List.not_mem_nil, or_false] at hc
  rcases hc with rfl | rfl | rfl <;> cases h <;> decide

/-- Brackets and points are neither identifier characters nor blank. -/
theorem classes_of_ofMark? {c : Char} {k : Keyword} (h : ofMark? c = some k) :
    isIdentifier c = false ∧ isBlank c = false := by
  have hc := mem_of_ofMark? h
  simp only [List.mem_cons, List.not_mem_nil, or_false] at hc
  rcases hc with rfl | rfl | rfl <;> decide

/-- A boolean is spelled with a number sign and one letter. -/
theorem text_boolean {run : List Char} {b : Bool} (h : boolean? run = some b) :
    (boolean b).text = '#' :: run := by
  unfold boolean? at h
  split at h <;> cases h <;> rfl

theorem isIdentifier_of_boolean? {cs : List Char} (h : (boolean? cs).isSome) :
    ∀ c ∈ cs, isIdentifier c = true := by
  intro c hc
  unfold boolean? at h
  split at h
  · rw [List.mem_singleton.1 hc]
    decide
  · rw [List.mem_singleton.1 hc]
    decide
  · cases h

end Spelling

/-! ## Pieces -/

/-- A part of a text that no token begins or ends inside of. -/
inductive Piece where
  /-- A semicolon and what follows it on its line. -/
  | comment (text : List Char)
  /-- Identifier characters, as many as follow one another. -/
  | run (text : List Char)
  /-- Any other character, newlines among them. -/
  | mark (char : Char)
deriving DecidableEq

namespace Piece

/-- The characters of a piece. -/
def text : Piece → List Char
  | comment text => text
  | run text => text
  | mark c => [c]

/-- Put `c` in front of a comment that goes on, or begin one. -/
def consComment (c : Char) : List Piece → List Piece
  | comment text :: ps => comment (c :: text) :: ps
  | ps => comment [c] :: ps

/-- Put `c` in front of a run that goes on, or begin one. -/
def consRun (c : Char) : List Piece → List Piece
  | run text :: ps => run (c :: text) :: ps
  | ps => run [c] :: ps

/-- The pieces of a text; `inComment` says that the text begins inside a comment. -/
def pieces (inComment : Bool) : List Char → List Piece
  | [] => []
  | c :: cs =>
      if (inComment && c != '\n') || c == ';' then consComment c (pieces true cs)
      else if isIdentifier c then consRun c (pieces false cs)
      else mark c :: pieces false cs

theorem flatMap_text_consComment (c : Char) (ps : List Piece) :
    (consComment c ps).flatMap text = c :: ps.flatMap text := by
  cases ps with
  | nil => rfl
  | cons p ps => cases p <;> rfl

theorem flatMap_text_consRun (c : Char) (ps : List Piece) :
    (consRun c ps).flatMap text = c :: ps.flatMap text := by
  cases ps with
  | nil => rfl
  | cons p ps => cases p <;> rfl

/-- The pieces of a text, put together, are the text. -/
theorem flatMap_text_pieces (inComment : Bool) (cs : List Char) :
    (pieces inComment cs).flatMap text = cs := by
  induction cs generalizing inComment with
  | nil => rfl
  | cons c cs ih =>
      rw [pieces]
      split
      · rw [flatMap_text_consComment, ih]
      · split
        · rw [flatMap_text_consRun, ih]
        · rw [List.flatMap_cons, ih]
          rfl

/-- What the characters of a piece are. -/
def WellFormed : Piece → Prop
  | comment text => ∃ body, text = ';' :: body ∧ '\n' ∉ body
  | run text => text ≠ [] ∧ ∀ c ∈ text, isIdentifier c = true
  | mark c => isIdentifier c = false ∧ c ≠ ';'

/-- A comment ends where its line does, and behind a run there is no other one. -/
def Meets : Piece → List Piece → Prop
  | comment _, ps => ps = [] ∨ ∃ qs, ps = mark '\n' :: qs
  | run _, ps => ∀ text qs, ps ≠ run text :: qs
  | mark _, _ => True

/-- Pieces that a text can be cut into. -/
def Proper : List Piece → Prop
  | [] => True
  | p :: ps => p.WellFormed ∧ p.Meets ps ∧ Proper ps

/-- A comment is cut off to the end of its line. -/
theorem consComment_pieces (c : Char) (cs : List Char) :
    consComment c (pieces true cs) =
      comment (c :: cs.takeWhile (· != '\n')) :: pieces false (cs.dropWhile (· != '\n')) := by
  induction cs generalizing c with
  | nil => rfl
  | cons d cs ih =>
      by_cases hd : d = '\n'
      · subst hd
        rfl
      · rw [pieces, if_pos (by simp [hd]), ih d]
        simp [consComment, hd]

/-- A run is cut off as a whole. -/
theorem consRun_pieces (c : Char) (cs : List Char) :
    consRun c (pieces false cs) =
      run (c :: cs.takeWhile isIdentifier) :: pieces false (cs.dropWhile isIdentifier) := by
  induction cs generalizing c with
  | nil => rfl
  | cons d cs ih =>
      by_cases hsemi : d = ';'
      · subst hsemi
        have hid : isIdentifier ';' = false := by decide
        simp [pieces, consComment_pieces, consRun, hid]
      · by_cases hd : isIdentifier d = true
        · rw [pieces, if_neg (by simp [hsemi]), if_pos hd, ih d]
          simp [consRun, hd]
        · rw [pieces, if_neg (by simp [hsemi]), if_neg hd]
          simp [consRun, hd, pieces, hsemi]

/-- A text whose first piece is a run begins with an identifier character. -/
theorem startsInWord_of_pieces {cs text : List Char} {qs : List Piece}
    (h : pieces false cs = run text :: qs) : startsInWord cs = true := by
  cases cs with
  | nil => cases h
  | cons c cs =>
      rw [pieces] at h
      split at h
      · rw [consComment_pieces] at h
        cases h
      · split at h
        · assumption
        · cases h

/-- The pieces that a text is cut into are proper. -/
theorem proper_pieces (cs : List Char) : Proper (pieces false cs) := by
  -- A comment or a run takes many characters at once, so the induction is on the length.
  induction hn : cs.length using Nat.strongRecOn generalizing cs with
  | _ n ih =>
  subst hn
  cases cs with
  | nil => trivial
  | cons c cs =>
      have shorter : ∀ p : Char → Bool, (cs.dropWhile p).length < (c :: cs).length := fun p =>
        Nat.lt_succ_of_le (List.dropWhile_sublist p).length_le
      by_cases hsemi : c = ';'
      · subst hsemi
        rw [pieces, if_pos (by simp), consComment_pieces]
        refine ⟨⟨_, rfl, ?_⟩, ?_, ih _ (shorter _) _ rfl⟩
        · intro hmem
          simpa using List.all_eq_true.1 List.all_takeWhile _ hmem
        · cases hdrop : cs.dropWhile (· != '\n') with
          | nil => exact .inl rfl
          | cons d ds =>
              have hd : d = '\n' := by
                have := List.head?_dropWhile_not (· != '\n') cs
                rw [hdrop] at this
                simpa using this
              subst hd
              exact .inr ⟨pieces false ds, rfl⟩
      · by_cases hc : isIdentifier c = true
        · rw [pieces, if_neg (by simp [hsemi]), if_pos hc, consRun_pieces]
          refine ⟨⟨by simp, ?_⟩, ?_, ih _ (shorter _) _ rfl⟩
          · intro d hd
            rcases List.mem_cons.1 hd with rfl | hd
            · exact hc
            · exact List.all_eq_true.1 List.all_takeWhile _ hd
          · intro text qs heq
            have hstart := startsInWord_of_pieces heq
            have hstop := List.head?_dropWhile_not isIdentifier cs
            cases hdrop : cs.dropWhile isIdentifier with
            | nil => simp [hdrop] at hstart
            | cons d ds =>
                rw [hdrop, startsInWord_cons] at hstart
                simp [hdrop, hstart] at hstop
        · rw [pieces, if_neg (by simp [hsemi]), if_neg hc]
          exact ⟨⟨by simpa using hc, hsemi⟩, trivial, ih _ (Nat.lt_succ_self _) _ rfl⟩

namespace Proper

variable {p : Piece} {ps : List Piece} {c : Char} {cs : List Char}

/-- A text that begins with an identifier character begins with a run. -/
theorem exists_run (h : Proper ps) (hw : startsInWord (ps.flatMap text) = true) :
    ∃ run qs, ps = .run run :: qs := by
  cases ps with
  | nil => cases hw
  | cons p ps =>
      cases p with
      | comment text =>
          obtain ⟨⟨body, rfl, -⟩, -⟩ := h
          exact absurd hw (by simp [Piece.text, show isIdentifier ';' = false by decide])
      | run text => exact ⟨text, ps, rfl⟩
      | mark c => exact absurd hw (by simp [Piece.text, h.1.1])

/-- Behind a run there is no identifier character. -/
theorem startsInWord_eq_false {run : List Char} (h : Proper (.run run :: ps)) :
    startsInWord (ps.flatMap text) = false := by
  rw [Bool.eq_false_iff]
  intro hw
  obtain ⟨run', qs, hps⟩ := exists_run h.2.2 hw
  exact h.2.1 run' qs hps

/-- A text that begins with any other character, but no comment, begins with a mark. -/
theorem exists_mark (h : Proper ps) (hc : isIdentifier c = false) (hsemi : c ≠ ';')
    (heq : ps.flatMap text = c :: cs) : ∃ qs, ps = mark c :: qs ∧ qs.flatMap text = cs := by
  cases ps with
  | nil => cases heq
  | cons p ps =>
      rw [List.flatMap_cons] at heq
      cases p with
      | comment text =>
          obtain ⟨⟨body, rfl, -⟩, -⟩ := h
          cases heq
          exact absurd rfl hsemi
      | run run =>
          obtain ⟨hne, hrun⟩ := h.1
          obtain ⟨d, ds, rfl⟩ := List.exists_cons_of_ne_nil hne
          cases heq
          rw [hrun c (by simp)] at hc
          cases hc
      | mark d =>
          cases heq
          exact ⟨ps, rfl, rfl⟩

/-- Behind a comment its line ends. -/
theorem head?_flatMap {t : List Char} (h : Proper (comment t :: ps)) :
    ∀ c ∈ (ps.flatMap text).head?, c = '\n' := by
  intro c hc
  rcases h.2.1 with rfl | ⟨qs, rfl⟩
  · cases hc
  · cases hc
    rfl

end Proper

end Piece

/-! ## Longer tokens -/

namespace Spelling

/-- A point and a run that are no fraction of a number are not taken in by the run before. -/
theorem not_takesPoint_of_run {whole part : List Char} {ps : List Piece}
    (h : Piece.Proper (.run part :: ps))
    (hdigits : ¬ (isSignedDigits whole && isDigits part) = true) :
    ¬ TakesPoint whole ((Piece.mark '.' :: .run part :: ps).flatMap Piece.text) := by
  rintro ⟨hwhole, part', rest, heq, hpart, hrest⟩
  have heq' : part ++ ps.flatMap Piece.text = part' ++ rest := by simpa [Piece.text] using heq
  obtain ⟨rfl, -⟩ := eq_of_append_eq h.1.2 (isIdentifier_of_isDigits hpart)
    h.startsInWord_eq_false hrest heq'
  exact hdigits (by rw [hwhole, hpart]; rfl)

/-- A run takes in no point if no point and run are the next pieces. -/
theorem not_takesPoint_of_shape {run : List Char} {ps : List Piece} (h : Piece.Proper ps)
    (hshape : ∀ part qs, ps ≠ .mark '.' :: .run part :: qs) :
    ¬ TakesPoint run (ps.flatMap Piece.text) := by
  rintro ⟨-, part, rest, heq, hpart, -⟩
  obtain ⟨qs, rfl, hqs⟩ := h.exists_mark (by decide) (by decide) heq
  obtain ⟨hne, hdigit⟩ := isDigits_iff.1 hpart
  obtain ⟨d, ds, rfl⟩ := List.exists_cons_of_ne_nil hne
  have hword : startsInWord (qs.flatMap Piece.text) = true := by
    rw [hqs]
    exact isIdentifier_of_isDigit (hdigit d (by simp))
  obtain ⟨part', qs', rfl⟩ := h.2.2.exists_run hword
  exact hshape part' qs' rfl

/-- A run that spells no boolean begins none. -/
theorem not_startsBoolean_of_run {run : List Char} {ps : List Piece}
    (h : Piece.Proper (.run run :: ps)) (hb : boolean? run = none) :
    ¬ StartsBoolean ((Piece.run run :: ps).flatMap Piece.text) := by
  rintro ⟨run', rest, heq, hbool, hrest⟩
  obtain ⟨rfl, -⟩ := eq_of_append_eq h.1.2 (isIdentifier_of_boolean? hbool)
    h.startsInWord_eq_false hrest (by simpa [Piece.text] using heq)
  rw [hb] at hbool
  cases hbool

/-- Where no run is the next piece, no boolean begins. -/
theorem not_startsBoolean_of_shape {ps : List Piece} (h : Piece.Proper ps)
    (hshape : ∀ run qs, ps ≠ .run run :: qs) : ¬ StartsBoolean (ps.flatMap Piece.text) := by
  rintro ⟨run, rest, heq, hbool, -⟩
  have hword : startsInWord (ps.flatMap Piece.text) = true := by
    rw [heq]
    unfold boolean? at hbool
    split at hbool
    · rfl
    · rfl
    · cases hbool
  obtain ⟨run', qs, rfl⟩ := h.exists_run hword
  exact hshape run' qs rfl

end Spelling

/-! ## What is recognised in pieces -/

namespace Scanned

/-- A mark that belongs to no longer token, in front of what follows. -/
def consMark (start : Nat) (c : Char) (more : List Scanned) : List Scanned :=
  match Spelling.ofMark? c with
  | some k => token start (.keyword k) :: more
  | none => if isBlank c then more else stray start c :: more

/-- What is recognised in a list of pieces, the first of which starts at the offset `start`. -/
def ofPieces : (start : Nat) → List Piece → List Scanned
  | _, [] => []
  | start, .comment text :: ps => ofPieces (start + text.length) ps
  | start, .run whole :: .mark '.' :: .run part :: ps =>
      if Spelling.isSignedDigits whole && Spelling.isDigits part then
        token start (.real whole part) :: ofPieces (start + (whole.length + (part.length + 1))) ps
      else
        token start (.ofRun whole) :: ofPieces (start + whole.length) (.mark '.' :: .run part :: ps)
  | start, .run text :: ps => token start (.ofRun text) :: ofPieces (start + text.length) ps
  | start, .mark '#' :: .run text :: ps =>
      match Spelling.boolean? text with
      | some b => token start (.boolean b) :: ofPieces (start + 2) ps
      | none => consMark start '#' (ofPieces (start + 1) (.run text :: ps))
  | start, .mark c :: ps => consMark start c (ofPieces (start + 1) ps)

end Scanned

end SchemeFront
