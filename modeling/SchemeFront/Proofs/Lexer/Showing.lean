import SchemeFront.Proofs.Lexer.Spacing
import SchemeFront.Proofs.Text.Quoting

set_option autoImplicit false

/-! # Tokens that are shown

The tokens of a source are read again from their displays (`Lexeme.IsReread`), so two literals of
one kind that are displayed alike are the same (`Atom.eq_of_display_eq`). Their displays can be
written, and are made of printable characters (`Lexed.shownIn`): spellings are made of visible
characters of ASCII.
-/

namespace SchemeFront

open Text

/-! ## Reading again -/

/-- The lexeme is read again from its display, if that needs reading. -/
def Lexeme.IsReread : Lexeme → Prop
  | atom (.integer n) => Text.readInteger (toString n).toList = .ok n
  | atom (.real d) => Decimal.ofText d.text = .ok d
  | _ => True

/-- A lexeme that is displayed as a spelling of it is read again. -/
theorem Spelling.isReread {s : Spelling} {x : Lexeme} (htext : s.text = x.text.toList)
    (h : s.lexeme = .ok x) : x.IsReread := by
  cases s with
  | keyword k =>
      cases h
      trivial
  | boolean b =>
      cases h
      trivial
  | ident name =>
      cases h
      trivial
  | integer cs =>
      rw [lexeme] at h
      cases hr : Text.readInteger cs with
      | error fault =>
          rw [hr] at h
          cases h
      | ok n =>
          rw [hr] at h
          cases h
          exact (congrArg Text.readInteger htext).symm.trans hr
  | real whole part =>
      rw [lexeme] at h
      cases hr : Decimal.ofText (whole ++ '.' :: part) with
      | error fault =>
          rw [hr] at h
          cases h
      | ok d =>
          rw [hr] at h
          cases h
          have hdisplay : whole ++ '.' :: part = d.text := htext.trans String.toList_ofList
          exact (congrArg Decimal.ofText hdisplay).symm.trans hr

/-- Atoms of one kind that are displayed alike are the same. -/
theorem Atom.eq_of_display_eq {a b : Atom} (ha : Lexeme.IsReread (.atom a))
    (hb : Lexeme.IsReread (.atom b))
    (h : a.kind.toList ++ ' ' :: a.text.toList = b.kind.toList ++ ' ' :: b.text.toList) :
    a = b := by
  cases a with
  | integer m =>
      cases b with
      | integer n =>
          have htext : toString m = toString n := by simpa [kind, text, String.toList_inj] using h
          rw [Lexeme.IsReread, htext, hb] at ha
          exact congrArg integer (Except.ok.inj ha).symm
      | _ => simp [kind] at h
  | real d =>
      cases b with
      | real e =>
          have htext : d.text = e.text := by simpa [kind, text] using h
          rw [Lexeme.IsReread, htext, hb] at ha
          exact congrArg real (Except.ok.inj ha).symm
      | _ => simp [kind] at h
  | boolean c =>
      cases b with
      | boolean d => cases c <;> cases d <;> first | rfl | simp [kind, text] at h
      | _ => simp [kind] at h
  | ident i =>
      cases b with
      | ident j => simpa [kind, text, String.toList_inj] using h
      | _ => simp [kind] at h

/-! ## Displays and classes of characters -/

/-- The display of the lexeme can be written, and is made of characters of a class. -/
structure Lexeme.ShownIn (which : Char → Bool) (x : Lexeme) : Prop where
  isWritable : x.isWritable = true
  chars : ∀ c ∈ x.text.toList, which c = true

theorem isPrintable_of_isIdentifier {c : Char} (h : isIdentifier c = true) :
    isPrintable c = true := by
  have hbounds := isIdentifier_bounds h
  exact isPrintable_of_ascii (by omega) hbounds.2

namespace Spelling

/-- A spelling that can stand alone is made of visible characters. -/
theorem StandsAlone.isPrintable {s : Spelling} (h : s.StandsAlone) {c : Char} (hc : c ∈ s.text) :
    isPrintable c = true := by
  cases s with
  | keyword k => exact isPrintable_of_mem_ascii hc (by cases k <;> decide)
  | boolean b => exact isPrintable_of_mem_ascii hc (by cases b <;> decide)
  | integer cs => exact isPrintable_of_isIdentifier (isIdentifier_of_isSignedDigits h c hc)
  | real whole part =>
      rcases List.mem_append.1 hc with hc | hc
      · exact isPrintable_of_isIdentifier (isIdentifier_of_isSignedDigits h.1 c hc)
      · rcases List.mem_cons.1 hc with rfl | hc
        · exact isPrintable_of_ascii (by decide) (by decide)
        · exact isPrintable_of_isIdentifier (isIdentifier_of_isDigits h.2 c hc)
  | ident name => exact isPrintable_of_isIdentifier (h.2.1 c hc)

/-- What a spelling that can stand alone says is shown in printable characters. -/
theorem StandsAlone.shownIn {which : Char → Bool}
    (hprint : ∀ c, Text.isPrintable c = true → which c = true) {s : Spelling} {x : Lexeme}
    (hs : s.StandsAlone) (h : s.lexeme = .ok x) : x.ShownIn which := by
  obtain ⟨y, hy, hwrite⟩ := exists_lexeme_eq_ok hs.isNumeric (isOverlong_eq_false hs.isNumeric h)
  obtain rfl : x = y := Except.ok.inj (h.symm.trans hy)
  obtain ⟨t, ht, htext, -⟩ := exists_display hs h
  exact ⟨hwrite, fun c hc => hprint c (ht.isPrintable (htext ▸ hc))⟩

end Spelling

/-- The tokens of a source are shown in printable characters. -/
theorem Lexed.shownIn {which : Char → Bool} (hprint : ∀ c, isPrintable c = true → which c = true)
    {src : Source} {l : Lexed} (h : ofSource src = .ok l) :
    ∀ t ∈ l.tokens, t.lexeme.ShownIn which := by
  intro t ht
  obtain ⟨s, hs, -, hx⟩ := exists_standsAlone h ht
  exact hs.shownIn hprint hx

/-- The tokens of a source are read again from their displays. -/
theorem Lexed.isReread {src : Source} {l : Lexed} (h : ofSource src = .ok l) :
    ∀ t ∈ l.tokens, t.lexeme.IsReread := by
  intro t ht
  obtain ⟨s, hs, -, hx⟩ := exists_standsAlone h ht
  obtain ⟨s', -, htext, hx'⟩ := Spelling.exists_display hs hx
  exact Spelling.isReread htext hx'

end SchemeFront
