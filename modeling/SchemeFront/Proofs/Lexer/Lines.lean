import SchemeFront.Proofs.Lexer.Layout

set_option autoImplicit false

/-! # Texts set line by line

No token and no comment goes on behind the end of its line, and none looks there. So the pieces of
two texts with a newline between them are those of the first and those of the second
(`Piece.pieces_newline`), and as the newline is no part of what can be longer than one piece, the
scan of the first ends where that of the second begins (`Scanned.ofPieces_newline`). What is
recognised does not depend on the offset, but for where it stands: `Lexed.ofSource_newline`.
-/

namespace SchemeFront

/-! ## Further on in a text -/

/-- The span `k` characters further on. -/
def Span.shift (k : Nat) (s : Span) : Span :=
  ⟨s.path, s.start + k, s.stop + k, Int.add_le_add_right s.start_le_stop k⟩

/-- The token `k` characters further on. -/
def Token.shift (k : Nat) (t : Token) : Token := ⟨t.lexeme, t.span.shift k⟩

/-- What was met, `k` characters further on. -/
def Found.shift (k : Nat) : Found → Found
  | text shown => text shown
  | token t => token (t.shift k)

/-- What is wrong, `k` characters further on. -/
def Cause.shift (k : Nat) : Cause → Cause
  | unexpected found expected => unexpected (found.map (Found.shift k)) expected
  | unclosed delimiter opened found =>
      unclosed delimiter (opened.shift k) (found.map (Found.shift k))
  | remark message => remark message

/-- The finding `k` characters further on. -/
def Diagnostic.shift (k : Nat) (d : Diagnostic) : Diagnostic :=
  ⟨d.span.shift k, d.cause.shift k, d.construct⟩

theorem Span.ofLength_add (path : String) (start k length : Nat) :
    ofLength path ((start + k : Nat) : Int) length = (ofLength path start length).shift k := by
  simp only [ofLength, shift, Span.mk.injEq, true_and]
  omega

/-! ## Pieces -/

namespace Piece

/-- A newline is in no comment. -/
theorem consComment_newline (c : Char) (ps qs : List Piece) :
    consComment c (ps ++ mark '\n' :: qs) = consComment c ps ++ mark '\n' :: qs := by
  cases ps with
  | nil => rfl
  | cons p ps => cases p <;> rfl

/-- A newline is in no run. -/
theorem consRun_newline (c : Char) (ps qs : List Piece) :
    consRun c (ps ++ mark '\n' :: qs) = consRun c ps ++ mark '\n' :: qs := by
  cases ps with
  | nil => rfl
  | cons p ps => cases p <;> rfl

/-- The pieces of two lines, the first of which may begin inside a comment. -/
theorem pieces_newline (inComment : Bool) (cs ds : List Char) :
    pieces inComment (cs ++ '\n' :: ds) =
      pieces inComment cs ++ mark '\n' :: pieces false ds := by
  induction cs generalizing inComment with
  | nil =>
      have hword : Text.isIdentifier '\n' = false := by decide
      simp [pieces, hword]
  | cons c cs ih =>
      rw [List.cons_append, pieces, pieces]
      split
      · rw [ih, consComment_newline]
      · split
        · rw [ih, consRun_newline]
        · rw [ih, List.cons_append]

end Piece

/-! ## Scanning -/

/-- A boolean is spelled with one letter. -/
theorem Spelling.length_of_boolean? {text : List Char} {b : Bool} (h : boolean? text = some b) :
    text.length = 1 := by
  unfold boolean? at h
  split at h <;> first | rfl | cases h

namespace Scanned

/-- What is recognised, `k` characters further on. -/
def shift (k : Nat) : Scanned → Scanned
  | token start s => token (start + k) s
  | stray start c => stray (start + k) c

theorem consMark_append (start : Nat) (c : Char) (is js : List Scanned) :
    consMark start c (is ++ js) = consMark start c is ++ js := by
  unfold consMark
  cases Spelling.ofMark? c with
  | some k => rfl
  | none =>
      dsimp only
      split <;> rfl

theorem consMark_shift (k start : Nat) (c : Char) (is : List Scanned) :
    consMark (start + k) c (is.map (shift k)) = (consMark start c is).map (shift k) := by
  unfold consMark
  cases Spelling.ofMark? c with
  | some m => rfl
  | none =>
      dsimp only
      split <;> rfl

/-- A number sign that begins no boolean stands for itself. -/
theorem ofPieces_numberSign {text : List Char} (h : Spelling.boolean? text = none) (start : Nat)
    (ps : List Piece) : ofPieces start (.mark '#' :: .run text :: ps) =
      consMark start '#' (ofPieces (start + 1) (.run text :: ps)) := by
  rw [ofPieces.eq_5, h]

/-- The offset is only added to where things stand. -/
theorem ofPieces_shift (k start : Nat) (ps : List Piece) :
    ofPieces (start + k) ps = (ofPieces start ps).map (shift k) := by
  fun_induction ofPieces start ps with
  | case1 start => rfl
  | case2 start text ps ih => rw [ofPieces, Nat.add_right_comm, ih]
  | case3 start whole part ps h ih =>
      rw [ofPieces, if_pos h, Nat.add_right_comm, ih]
      rfl
  | case4 start whole part ps h ih =>
      rw [ofPieces, if_neg h, Nat.add_right_comm, ih]
      rfl
  | case5 start text ps h ih =>
      rw [ofPieces.eq_4 _ _ _ h, Nat.add_right_comm, ih]
      rfl
  | case6 start text ps b h ih =>
      simp only [ofPieces, h]
      rw [Nat.add_right_comm, ih]
      rfl
  | case7 start text ps h ih =>
      rw [ofPieces_numberSign h, Nat.add_right_comm, ih, consMark_shift]
  | case8 start c ps h ih =>
      rw [ofPieces.eq_6 _ _ _ h, Nat.add_right_comm, ih, consMark_shift]

/-- A newline ends whatever is recognised before it. -/
theorem ofPieces_newline {start stop : Nat} {ps : List Piece} (qs : List Piece)
    (hstop : start + (ps.flatMap Piece.text).length = stop) :
    ofPieces start (ps ++ .mark '\n' :: qs) = ofPieces start ps ++ ofPieces (stop + 1) qs := by
  fun_induction ofPieces start ps with
  | case1 start =>
      subst hstop
      rw [List.nil_append, ofPieces.eq_6 _ _ _ (fun _ _ _ h => absurd h (by decide))]
      rfl
  | case2 start text ps ih => exact ih (by grind [Piece.text])
  | case3 start whole part ps h ih =>
      rw [List.cons_append, List.cons_append, List.cons_append, ofPieces, if_pos h,
        ih (by grind [Piece.text]), List.cons_append]
  | case4 start whole part ps h ih =>
      rw [List.cons_append, List.cons_append, List.cons_append, ofPieces, if_neg h,
        ← List.cons_append, ← List.cons_append, ih (by grind [Piece.text]), List.cons_append]
  | case5 start text ps h ih =>
      rw [List.cons_append, ofPieces.eq_4 _ _ _ ?_, ih (by grind [Piece.text]), List.cons_append]
      -- The newline is neither the point of a real nor what stands behind the point.
      intro part behind heq
      cases ps with
      | nil => cases heq
      | cons p ps =>
          cases ps with
          | nil => cases heq
          | cons q ps =>
              injection heq with hp heq
              injection heq with hq
              exact h part ps (by rw [hp, hq])
  | case6 start text ps b h ih =>
      have hlen : text.length = 1 := Spelling.length_of_boolean? h
      rw [List.cons_append, List.cons_append, ofPieces.eq_5, h]
      exact congrArg (_ :: ·) (ih (by grind [Piece.text]))
  | case7 start text ps h ih =>
      rw [List.cons_append, List.cons_append, ofPieces_numberSign h, ← List.cons_append,
        ih (by grind [Piece.text]), consMark_append]
  | case8 start c ps h ih =>
      rw [List.cons_append, ofPieces.eq_6 _ _ _ ?_, ih (by grind [Piece.text]), consMark_append]
      intro text behind heq hc
      cases ps with
      | nil => cases heq
      | cons p ps =>
          injection heq with hp
          exact h text ps (by rw [hp]) hc

/-- The scan of two lines is that of the first, and then that of the second further on. -/
theorem ofText_newline (a b : List Char) :
    ofText (a ++ '\n' :: b) = ofText a ++ (ofText b).map (shift (a.length + 1)) := by
  have hstop : 0 + ((Piece.pieces false a).flatMap Piece.text).length = a.length := by
    rw [Piece.flatMap_text_pieces, Nat.zero_add]
  have hshift := ofPieces_shift (a.length + 1) 0 (Piece.pieces false b)
  rw [Nat.zero_add] at hshift
  rw [ofText_eq_ofPieces, ofText_eq_ofPieces, ofText_eq_ofPieces, Piece.pieces_newline,
    ofPieces_newline _ hstop, hshift]

end Scanned

/-! ## Lexing -/

namespace Lexed

/-- What one lexer found, and behind it what another did. -/
def append (l m : Lexed) : Lexed := ⟨l.tokens ++ m.tokens, l.diagnostics ++ m.diagnostics⟩

instance : Append Lexed := ⟨append⟩

/-- What the lexer found, `k` characters further on. -/
def shift (k : Nat) (l : Lexed) : Lexed :=
  ⟨l.tokens.map (Token.shift k), l.diagnostics.map (Diagnostic.shift k)⟩

variable (path : String)

theorem strayChar_add (start k : Nat) (c : Char) :
    strayChar path (start + k) c = (strayChar path start c).shift k := by
  simp only [strayChar, Diagnostic.unexpected, Diagnostic.shift, Span.ofLength_add]
  rfl

theorem ofScanned_append (is js : List Scanned) :
    ofScanned path (is ++ js) = do
      let l ← ofScanned path is
      let m ← ofScanned path js
      return l ++ m := by
  induction is with
  | nil => exact (bind_pure (ofScanned path js)).symm
  | cons i is ih =>
      cases i with
      | token start s =>
          simp only [List.cons_append, ofScanned, ih, bind_assoc, pure_bind]
          rfl
      | stray start c =>
          simp only [List.cons_append, ofScanned, ih, bind_assoc, pure_bind]
          rfl

theorem ofScanned_shift (k : Nat) (is : List Scanned) :
    ofScanned path (is.map (Scanned.shift k)) = (shift k) <$> ofScanned path is := by
  induction is with
  | nil => rfl
  | cons i is ih =>
      cases i with
      | token start s =>
          simp only [List.map_cons, Scanned.shift, ofScanned, ih, Span.ofLength_add, map_bind,
            bind_map_left, map_pure]
          rfl
      | stray start c =>
          simp only [List.map_cons, Scanned.shift, ofScanned, ih, strayChar_add, map_bind,
            bind_map_left, map_pure]
          rfl

/-- **Lines are lexed one by one.** What the lexer makes of two texts with a newline between them
is what it makes of the first, followed by what it makes of the second, which stands as much
further on as the first line is long. It fails on them together when it fails on one of them. -/
theorem ofSource_newline (a b : List Char) :
    ofSource ⟨path, a ++ '\n' :: b⟩ = do
      let l ← ofSource ⟨path, a⟩
      let m ← ofSource ⟨path, b⟩
      return l ++ m.shift (a.length + 1) := by
  rw [ofSource, Scanned.ofText_newline, ofScanned_append, ofScanned_shift]
  simp only [bind_map_left]
  rfl

-- Neither the real `1.5` nor the boolean `#t` goes over the end of a line, and no comment does.
example : ((ofSource ⟨"a.scm", "1.\n5 #\nt ; (\n)".toList⟩).toOption.map fun l =>
    (l.tokens.map Token.text, l.diagnostics.map (·.span.start))) =
      some (["1", ".", "5", "t", ")"], [5]) := by
  decide +kernel

end Lexed

end SchemeFront
