import SchemeFront.Proofs.Lexer.Choice
import SchemeFront.Proofs.Token.Nesting

set_option autoImplicit false

/-! # How tokens lie in a text

What the scan recognises lies in the text in order: each item is found at its offset, as it is
spelled, and nothing between two items belongs to either (`Scanned.laid_ofText`). So the spans of
the tokens of a source are not empty, do not overlap and follow one another (`Token.Separate`),
and the source shows every bracket in its place (`Lexed.excerpt_of_isKeyword`).
-/

namespace SchemeFront

/-! ## Spellings -/

/-- A spelling that the scan makes: its numbers are digits, with an optional sign in front. -/
def Spelling.IsNumeric : Spelling → Prop
  | integer cs => isSignedDigits cs = true
  | real whole part => isSignedDigits whole = true ∧ isDigits part = true
  | _ => True

/-- A run spells itself. -/
theorem Spelling.text_ofRun (run : List Char) : (ofRun run).text = run := by
  unfold ofRun
  cases hk : Keyword.ofWord? run with
  | some k =>
      have := List.find?_some hk
      exact eq_of_beq this
  | none =>
      dsimp only
      split <;> rfl

theorem Spelling.isNumeric_ofRun (run : List Char) : (ofRun run).IsNumeric := by
  unfold ofRun
  cases Keyword.ofWord? run with
  | some k => trivial
  | none =>
      dsimp only
      split
      · assumption
      · trivial

namespace Scanned

/-- The characters of what was recognised. -/
def text : Scanned → List Char
  | token _ spelling => spelling.text
  | stray _ c => [c]

/-- The offset of what was recognised. -/
def start : Scanned → Nat
  | token start _ => start
  | stray start _ => start

/-- What was recognised is a stray character. -/
def isStray : Scanned → Bool
  | token _ _ => false
  | stray _ _ => true

/-- What was recognised is a number with too many digits. -/
def isOverlong : Scanned → Bool
  | token _ spelling => spelling.isOverlong
  | stray _ _ => false

/-- The numbers in what was recognised are made of digits. -/
def IsNumeric : Scanned → Prop
  | token _ spelling => spelling.IsNumeric
  | stray _ _ => True

/-! ## Items in order -/

/-- The items lie in order in the text `cs`, whose first character has the offset `start`. -/
inductive Laid : (start : Nat) → (cs : List Char) → List Scanned → Prop where
  | nil (start : Nat) : Laid start [] []
  | skip {start : Nat} {cs : List Char} {items : List Scanned} (gap : List Char)
      (rest : Laid (start + gap.length) cs items) : Laid start (gap ++ cs) items
  | cons {cs : List Char} {items : List Scanned} (i : Scanned) (hne : i.text ≠ [])
      (hnum : i.IsNumeric) (rest : Laid (i.start + i.text.length) cs items) :
      Laid i.start (i.text ++ cs) (i :: items)

/-- A token that is spelled by the characters `word`. -/
theorem Laid.consToken (start : Nat) (word : List Char) {cs : List Char} {items : List Scanned}
    {s : Spelling} (htext : s.text = word) (hne : word ≠ []) (hnum : s.IsNumeric)
    (rest : Laid (start + word.length) cs items) :
    Laid start (word ++ cs) (token start s :: items) := by
  subst htext
  exact .cons (token start s) hne hnum rest

/-- A single mark, in front of what lies behind it. -/
theorem Laid.consMark {start : Nat} {c : Char} {cs : List Char} {items : List Scanned}
    (h : Laid (start + 1) cs items) : Laid start (c :: cs) (consMark start c items) := by
  unfold Scanned.consMark
  cases hk : Spelling.ofMark? c with
  | some k => exact .consToken start [c] (Spelling.text_of_ofMark? hk) (by simp) trivial h
  | none =>
      dsimp only
      split
      · exact .skip [c] h
      · exact .cons (stray start c) (by simp [text]) trivial h

/-- What is recognised in pieces lies in their text. -/
theorem laid_ofPieces (start : Nat) (ps : List Piece) (hne : ∀ p ∈ ps, p.text ≠ []) :
    Laid start (ps.flatMap Piece.text) (ofPieces start ps) := by
  fun_induction ofPieces start ps with
  | case1 start => exact .nil start
  | case2 start text ps ih =>
      rw [List.flatMap_cons]
      exact .skip text (ih fun p hp => hne p (by simp [hp]))
  | case3 start whole part ps h ih =>
      -- A real: signed digits, the point and digits.
      rw [Bool.and_eq_true] at h
      have hrest := ih fun p hp => hne p (by simp [hp])
      have key := Laid.consToken start (whole ++ '.' :: part) (s := .real whole part) rfl
        (by simp) h (by simpa using hrest)
      simpa [Piece.text] using key
  | case4 start whole part ps h ih =>
      rw [List.flatMap_cons]
      have hrest := ih fun p hp => hne p (List.mem_cons_of_mem _ hp)
      exact .consToken _ _ (Spelling.text_ofRun whole) (hne _ (by simp))
        (Spelling.isNumeric_ofRun whole) hrest
  | case5 start text ps h ih =>
      rw [List.flatMap_cons]
      have hrest := ih fun p hp => hne p (by simp [hp])
      exact .consToken _ _ (Spelling.text_ofRun text) (hne _ (by simp))
        (Spelling.isNumeric_ofRun text) hrest
  | case6 start text ps b h ih =>
      -- A boolean: the number sign and its letter.
      have htext := Spelling.text_boolean h
      have hlen : text.length = 1 := by simpa [Spelling.text] using congrArg List.length htext.symm
      have key := Laid.consToken start _ htext (by simp) trivial
        (by rw [List.length_cons, hlen]; exact ih fun p hp => hne p (by simp [hp]))
      simpa [Piece.text] using key
  | case7 start text ps h ih =>
      rw [List.flatMap_cons]
      exact (ih fun p hp => hne p (List.mem_cons_of_mem _ hp)).consMark
  | case8 start c ps h ih =>
      rw [List.flatMap_cons]
      exact (ih fun p hp => hne p (by simp [hp])).consMark

end Scanned

/-! ## Pieces -/

theorem Piece.text_ne_nil_consComment (c : Char) {ps : List Piece}
    (h : ∀ p ∈ ps, p.text ≠ []) : ∀ p ∈ consComment c ps, p.text ≠ [] := by
  cases ps with
  | nil => simp [consComment, text]
  | cons p ps => cases p <;> simp_all [consComment, text]

theorem Piece.text_ne_nil_consRun (c : Char) {ps : List Piece}
    (h : ∀ p ∈ ps, p.text ≠ []) : ∀ p ∈ consRun c ps, p.text ≠ [] := by
  cases ps with
  | nil => simp [consRun, text]
  | cons p ps => cases p <;> simp_all [consRun, text]

/-- Every piece of a text has a character. -/
theorem Piece.text_ne_nil (inComment : Bool) (cs : List Char) :
    ∀ p ∈ pieces inComment cs, p.text ≠ [] := by
  induction cs generalizing inComment with
  | nil => simp [pieces]
  | cons c cs ih =>
      rw [pieces]
      split
      · exact text_ne_nil_consComment c (ih true)
      · split
        · exact text_ne_nil_consRun c (ih false)
        · intro p hp
          rcases List.mem_cons.1 hp with rfl | hp
          · simp [text]
          · exact ih false p hp

/-- What is recognised in a text lies in it. -/
theorem Scanned.laid_ofText (cs : List Char) : Laid 0 cs (ofText cs) := by
  have key := laid_ofPieces 0 (Piece.pieces false cs) (Piece.text_ne_nil false cs)
  rwa [Piece.flatMap_text_pieces, ← ofText_eq_ofPieces] at key

namespace Scanned.Laid

variable {start : Nat} {cs : List Char} {items : List Scanned}

/-- Each item is in its place. -/
theorem exists_of_mem (h : Laid start cs items) {i : Scanned} (hi : i ∈ items) :
    ∃ before behind, cs = before ++ i.text ++ behind ∧ i.start = start + before.length ∧
      i.text ≠ [] ∧ i.IsNumeric := by
  induction h with
  | nil start => cases hi
  | skip gap rest ih =>
      obtain ⟨before, behind, rfl, hstart, hi⟩ := ih hi
      refine ⟨gap ++ before, behind, by simp, ?_, hi⟩
      rw [hstart, List.length_append, Nat.add_assoc]
  | cons j hne hnum rest ih =>
      rcases List.mem_cons.1 hi with rfl | hi
      · exact ⟨[], _, rfl, rfl, hne, hnum⟩
      · obtain ⟨before, behind, rfl, hstart, hi⟩ := ih hi
        refine ⟨j.text ++ before, behind, by simp, ?_, hi⟩
        rw [hstart, List.length_append, Nat.add_assoc]

/-- The items follow one another. -/
theorem pairwise (h : Laid start cs items) :
    items.Pairwise fun i j => i.start + i.text.length ≤ j.start := by
  induction h with
  | nil start => exact .nil
  | skip gap rest ih => exact ih
  | cons i hne hnum rest ih =>
      refine .cons ?_ ih
      intro j hj
      obtain ⟨before, -, -, hstart, -⟩ := rest.exists_of_mem hj
      omega

end Scanned.Laid

/-! ## Tokens -/

/-- Tokens that are not empty, do not overlap and follow one another. -/
structure Token.Separate (ts : List Token) : Prop where
  nonempty : ∀ t ∈ ts, t.span.start < t.span.stop
  ordered : ts.Pairwise fun t u => t.span.stop ≤ u.span.start

theorem Token.Separate.ascending {ts : List Token} (h : Separate ts) : Ascending ts :=
  .of_pairwise h.ordered

/-- The characters between `before` and `behind` are the excerpt of their span. -/
theorem Source.excerpt_ofLength {src : Source} {before word behind : List Char} {path : String}
    (h : src.text = before ++ word ++ behind) :
    src.excerpt (Span.ofLength path before.length word.length) = word := by
  -- Neither end is counted from the back, and both are in the text.
  have hlow : ¬ ((before.length : Int) < 0) := by omega
  have hhigh : ¬ ((before.length : Int) + (word.length : Int) < 0) := by omega
  have hsum : ((before.length : Int) + (word.length : Int)).toNat
      = before.length + word.length := by omega
  simp only [excerpt, slice, Span.ofLength, clampIndex, hlow, hhigh, hsum, if_false,
    Int.toNat_natCast, h, List.length_append]
  rw [Nat.min_eq_left (by omega), Nat.min_eq_left (by omega), Nat.add_sub_cancel_left]
  calc ((before ++ word ++ behind).drop before.length).take word.length
      = (word ++ behind).take word.length := by rw [List.append_assoc, List.drop_left]
    _ = word := List.take_left

namespace Lexed

variable {path : String} {items : List Scanned} {src : Source} {l : Lexed} {t : Token}

/-- A scan with a token in front is read by reading the token, and then the rest. -/
theorem ofScanned_token_eq_ok {start : Nat} {s : Spelling}
    (h : ofScanned path (.token start s :: items) = .ok l) :
    ∃ lexeme more, s.lexeme = .ok lexeme ∧ ofScanned path items = .ok more ∧
      l.tokens = ⟨lexeme, Span.ofLength path start s.length⟩ :: more.tokens ∧
      l.diagnostics = more.diagnostics := by
  rw [ofScanned] at h
  obtain ⟨lexeme, hs, h⟩ := exists_of_bind_eq_ok h
  obtain ⟨more, hmore, h⟩ := exists_of_bind_eq_ok h
  cases h
  exact ⟨lexeme, more, hs, hmore, rfl, rfl⟩

theorem ofScanned_stray_eq_ok {start : Nat} {c : Char}
    (h : ofScanned path (.stray start c :: items) = .ok l) :
    ∃ more, ofScanned path items = .ok more ∧ l.tokens = more.tokens ∧
      l.diagnostics = strayChar path start c :: more.diagnostics := by
  rw [ofScanned] at h
  obtain ⟨more, hmore, h⟩ := exists_of_bind_eq_ok h
  cases h
  exact ⟨more, hmore, rfl, rfl⟩

/-- Every token was recognised in the scan. -/
theorem exists_of_mem_ofScanned (h : ofScanned path items = .ok l) (ht : t ∈ l.tokens) :
    ∃ (start : Nat) (s : Spelling), .token start s ∈ items ∧ s.lexeme = .ok t.lexeme ∧
      t.span = Span.ofLength path start s.length := by
  induction items generalizing l with
  | nil =>
      cases h
      cases ht
  | cons i items ih =>
      cases i with
      | token start s =>
          obtain ⟨lexeme, more, hs, hmore, htokens, -⟩ := ofScanned_token_eq_ok h
          rw [htokens] at ht
          rcases List.mem_cons.1 ht with rfl | ht
          · exact ⟨start, s, by simp, hs, rfl⟩
          · obtain ⟨start', s', hmem, hs'⟩ := ih hmore ht
            exact ⟨start', s', List.mem_cons_of_mem _ hmem, hs'⟩
      | stray start c =>
          obtain ⟨more, hmore, htokens, -⟩ := ofScanned_stray_eq_ok h
          rw [htokens] at ht
          obtain ⟨start', s', hmem, hs'⟩ := ih hmore ht
          exact ⟨start', s', List.mem_cons_of_mem _ hmem, hs'⟩

/-- Tokens follow one another as the items of the scan do. -/
theorem ordered_ofScanned (h : ofScanned path items = .ok l)
    (hitems : items.Pairwise fun i j => i.start + i.text.length ≤ j.start) :
    l.tokens.Pairwise fun t u => t.span.stop ≤ u.span.start := by
  induction items generalizing l with
  | nil =>
      cases h
      exact .nil
  | cons i items ih =>
      obtain ⟨hi, hrest⟩ := List.pairwise_cons.1 hitems
      cases i with
      | token start s =>
          obtain ⟨lexeme, more, -, hmore, htokens, -⟩ := ofScanned_token_eq_ok h
          rw [htokens]
          refine .cons ?_ (ih hmore hrest)
          intro u hu
          -- A later token comes from a later item of the scan.
          obtain ⟨start', s', hmem, -, hspan⟩ := exists_of_mem_ofScanned hmore hu
          have hle : start + s.length ≤ start' := hi _ hmem
          rw [hspan]
          simp only [Span.ofLength]
          omega
      | stray start c =>
          obtain ⟨more, hmore, htokens, -⟩ := ofScanned_stray_eq_ok h
          rw [htokens]
          exact ih hmore hrest

/-- There is a finding for every stray character, and for nothing else. -/
theorem diagnostics_ofScanned_eq_nil_iff (h : ofScanned path items = .ok l) :
    l.diagnostics = [] ↔ ¬ ∃ i ∈ items, i.isStray = true := by
  induction items generalizing l with
  | nil =>
      cases h
      simp
  | cons i items ih =>
      cases i with
      | token start s =>
          obtain ⟨lexeme, more, -, hmore, -, hdiagnostics⟩ := ofScanned_token_eq_ok h
          rw [hdiagnostics, ih hmore]
          simp [Scanned.isStray]
      | stray start c =>
          obtain ⟨more, hmore, -, hdiagnostics⟩ := ofScanned_stray_eq_ok h
          rw [hdiagnostics]
          simp [Scanned.isStray]

/-- Every token of a source stands where it is spelled. -/
theorem exists_of_mem (h : ofSource src = .ok l) (ht : t ∈ l.tokens) :
    ∃ s : Spelling, s.lexeme = .ok t.lexeme ∧ s.IsNumeric ∧ s.text ≠ [] ∧
      t.span.path = src.path ∧ t.span.stop = t.span.start + s.length ∧ 0 ≤ t.span.start ∧
      t.span.stop ≤ src.text.length ∧ src.excerpt t.span = s.text := by
  obtain ⟨start, s, hmem, hs, hspan⟩ := exists_of_mem_ofScanned h ht
  obtain ⟨before, behind, htext, hstart, hne, hnum⟩ :=
    (Scanned.laid_ofText src.text).exists_of_mem hmem
  simp only [Scanned.start, Scanned.text, Nat.zero_add] at htext hstart hne
  have hlen := congrArg List.length htext
  simp only [List.length_append] at hlen
  refine ⟨s, hs, hnum, hne, by rw [hspan]; rfl, by rw [hspan]; rfl, ?_, ?_, ?_⟩
  · rw [hspan]
    exact Int.natCast_nonneg start
  · rw [hspan]
    simp only [Span.ofLength, Spelling.length]
    omega
  · rw [hspan, hstart]
    exact Source.excerpt_ofLength htext

/-- The tokens of a source are separate. -/
theorem separate (h : ofSource src = .ok l) : Token.Separate l.tokens where
  nonempty t ht := by
    obtain ⟨s, -, -, hne, -, hstop, -⟩ := exists_of_mem h ht
    have hpos := List.length_pos_iff.2 hne
    rw [hstop, Spelling.length]
    omega
  ordered := ordered_ofScanned h (Scanned.laid_ofText src.text).pairwise

/-- A spelling of a keyword is that of no other lexeme. -/
theorem eq_keyword_of_lexeme {s : Spelling} {k : Keyword} (h : s.lexeme = .ok (.keyword k)) :
    s = .keyword k := by
  cases s with
  | keyword k' =>
      cases h
      rfl
  | integer cs =>
      rw [Spelling.lexeme] at h
      cases hr : Text.readInteger cs <;> rw [hr] at h <;> cases h
  | real whole part =>
      rw [Spelling.lexeme] at h
      cases hr : Decimal.ofText (whole ++ '.' :: part) <;> rw [hr] at h <;> cases h
  | _ => cases h

/-- The source shows a bracket where a token is one. -/
theorem excerpt_of_isKeyword (h : ofSource src = .ok l) (ht : t ∈ l.tokens) {k : Keyword}
    (hk : t.isKeyword k = true) : src.excerpt t.span = k.text.toList := by
  obtain ⟨s, hs, -, -, -, -, -, -, hexcerpt⟩ := exists_of_mem h ht
  rw [eq_of_beq hk] at hs
  rw [hexcerpt, eq_keyword_of_lexeme hs]
  rfl

theorem stop_of_isKeyword (h : ofSource src = .ok l) (ht : t ∈ l.tokens) {k : Keyword}
    (hk : t.isKeyword k = true) : t.span.stop = t.span.start + k.text.toList.length := by
  obtain ⟨s, hs, -, -, -, hstop, -⟩ := exists_of_mem h ht
  rw [eq_of_beq hk] at hs
  rw [hstop, eq_keyword_of_lexeme hs]
  rfl

end Lexed

end SchemeFront
