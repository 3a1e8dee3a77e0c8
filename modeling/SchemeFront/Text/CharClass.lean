set_option autoImplicit false

/-! # Character classes

A class of characters is a list of closed ranges of code points, and `inRanges` is membership.
The two classes of the lexical grammar are here: `isBlank`, what may stand between tokens, and
`isIdentifier`, what an identifier is made of. `not_isIdentifier_of_isBlank` says that no
character is in both.
-/

namespace SchemeFront.Text

/-- `c` lies in one of the closed ranges of code points. -/
def inRanges (ranges : List (Nat × Nat)) (c : Char) : Bool :=
  ranges.any fun r => decide (r.1 ≤ c.toNat) && decide (c.toNat ≤ r.2)

/-! ## Blanks -/

/-- The characters with the property White_Space, and the four information separators. -/
def blankRanges : List (Nat × Nat) :=
  [(0x9, 0xD), (0x1C, 0x20), (0x85, 0x85), (0xA0, 0xA0), (0x1680, 0x1680), (0x2000, 0x200A),
   (0x2028, 0x2029), (0x202F, 0x202F), (0x205F, 0x205F), (0x3000, 0x3000)]

/-- `c` may stand between two tokens and means nothing there. -/
def isBlank (c : Char) : Bool := inRanges blankRanges c

/-! ## Identifier characters -/

/-- The signs that an identifier may hold besides letters and digits. -/
def identifierSigns : List Char :=
  ['!', '$', '%', '&', '*', '+', '-', '/', ':', '<', '=', '>', '?', '@', '^', '_', '~']

/-- `c` may stand in an identifier: a letter or digit of ASCII, or one of the signs. The comma
and the point are not among them. -/
def isIdentifier (c : Char) : Bool := c.isAlphanum || identifierSigns.contains c

/-- Identifier characters are visible characters of ASCII. -/
theorem isIdentifier_bounds {c : Char} (h : isIdentifier c = true) :
    0x21 ≤ c.toNat ∧ c.toNat ≤ 0x7E := by
  rw [isIdentifier, Bool.or_eq_true] at h
  rcases h with h | h
  · unfold Char.isAlphanum Char.isAlpha Char.isUpper Char.isLower Char.isDigit at h
    simp only [Bool.or_eq_true, Bool.and_eq_true, decide_eq_true_eq, ge_iff_le,
      UInt32.le_iff_toNat_le] at h
    rcases h with (h | h) | h
    all_goals
      have h1 := h.1
      have h2 := h.2
      simp only [Char.reduceVal, UInt32.reduceToNat, Char.toNat_val] at h1 h2
      omega
  · have h : c ∈ identifierSigns := List.contains_iff_mem.1 h
    have key : identifierSigns.all (fun d => decide (0x21 ≤ d.toNat ∧ d.toNat ≤ 0x7E)) = true :=
      rfl
    exact of_decide_eq_true (List.all_eq_true.1 key c h)

/-- No character both separates tokens and belongs to an identifier. -/
theorem not_isIdentifier_of_isBlank {c : Char} (h : isBlank c = true) :
    isIdentifier c = false := by
  rw [Bool.eq_false_iff]
  intro hi
  have hb := isIdentifier_bounds hi
  simp only [isBlank, inRanges, blankRanges, List.any_cons, List.any_nil, Bool.or_eq_true,
    Bool.and_eq_true, decide_eq_true_eq, Bool.false_eq_true, or_false] at h
  omega

end SchemeFront.Text
