import SchemeFront.Proofs.Lexer.Parts

set_option autoImplicit false

/-! # Displayed tokens

How a token is displayed is a spelling of it, though not always the one that was read: signs and
zeros that mean nothing are left out. Numbers that are written are read back
(`Text.readInteger_toString`, `Decimal.ofText_text`), and so every lexeme that was read has a
display that is read as the same lexeme (`Spelling.exists_display`).
-/

namespace SchemeFront

/-! ## Integers -/

namespace Text

/-- Digits with a minus sign in front, or without. -/
def signed (negative : Bool) (ds : List Char) : List Char :=
  (if negative then ['-'] else []) ++ ds

theorem splitSign_signed {ds : List Char} (h : Spelling.isDigits ds = true) (negative : Bool) :
    splitSign (signed negative ds) = (negative, ds) := by
  cases negative with
  | false => exact Spelling.splitSign_of_isDigits h
  | true => rfl

theorem isSignedDigits_signed {ds : List Char} (h : Spelling.isDigits ds = true)
    (negative : Bool) : Spelling.isSignedDigits (signed negative ds) = true := by
  rw [Spelling.isSignedDigits, splitSign_signed h]
  exact h

/-- The first character tells the sign. -/
theorem head?_signed {ds rest : List Char} (h : Spelling.isDigits ds = true) (negative : Bool) :
    ((signed negative ds ++ rest).head? == some '-') = negative := by
  cases negative with
  | true => rfl
  | false =>
      obtain ⟨hne, hdigit⟩ := Spelling.isDigits_iff.1 h
      obtain ⟨d, ds, rfl⟩ := List.exists_cons_of_ne_nil hne
      have hd := ne_of_isDigit (hdigit d (by simp)) (show '-'.isDigit = false from rfl)
      simpa [signed] using hd

theorem isDigits_toDigits (n : Nat) : Spelling.isDigits (Nat.toDigits 10 n) = true :=
  Spelling.isDigits_iff.2 ⟨Nat.toDigits_ne_nil,
    fun _ hc => Nat.isDigit_of_mem_toDigits (by decide) (by decide) hc⟩

theorem length_toDigits_le {n k : Nat} (hk : 0 < k) (h : n < Nat.pow 10 k) :
    (Nat.toDigits 10 n).length ≤ k :=
  (Nat.length_toDigits_le_iff (by decide) hk).2 h

theorem toList_toString (n : Int) :
    (toString n).toList = signed (decide (n < 0)) (Nat.toDigits 10 n.natAbs) := by
  rw [Int.toString_eq_repr, Int.repr_eq_if]
  by_cases h : n < 0
  · have habs : (-n).toNat = n.natAbs := by omega
    rw [if_neg (by omega), String.toList_append, habs, Nat.toList_repr, decide_eq_true h]
    rfl
  · have habs : n.toNat = n.natAbs := by omega
    rw [if_pos (by omega), habs, Nat.toList_repr, decide_eq_false h]
    rfl

/-- An integer that is written is read back. -/
theorem readInteger_toString {n : Int} (h : n.natAbs < Nat.pow 10 digitLimit) :
    readInteger (toString n).toList = .ok n := by
  have hdigits := isDigits_toDigits n.natAbs
  have hlen := length_toDigits_le (by decide) h
  rw [toList_toString]
  have hsplit := splitSign_signed hdigits (decide (n < 0))
  rw [(readInteger_of_isSignedDigits (isSignedDigits_signed hdigits _)).2 (by rwa [hsplit]),
    hsplit, Nat.ofDigitChars_ten_toDigits]
  by_cases hneg : n < 0
  · rw [decide_eq_true hneg, if_pos rfl]
    congr 1
    omega
  · rw [decide_eq_false hneg, if_neg (by simp)]
    congr 1
    omega

/-- Zeros in front of digits change nothing. -/
theorem ofDigitChars_leftpad (ds : List Char) (k : Nat) :
    Nat.ofDigitChars 10 (ds.leftpad k '0') 0 = Nat.ofDigitChars 10 ds 0 := by
  have hzeros : ∀ n, Nat.ofDigitChars 10 (List.replicate n '0') 0 = 0 := by
    intro n
    induction n with
    | zero => rfl
    | succ n ih => exact ih
  have hsplit : ∀ cs, Nat.ofDigitChars 10 (cs ++ ds) 0
      = Nat.ofDigitChars 10 ds (Nat.ofDigitChars 10 cs 0) := fun _ => List.foldl_append
  rw [List.leftpad, hsplit, hzeros]

end Text

/-! ## Decimals -/

namespace Decimal

open Text

variable {d : Decimal}

/-- The digits before the point. -/
def wholeDigits (d : Decimal) : List Char := Nat.toDigits 10 (d.numerator.natAbs / d.denominator)

/-- The digits behind the point. -/
def partDigits (d : Decimal) : List Char :=
  (Nat.toDigits 10 (d.numerator.natAbs % d.denominator)).leftpad d.digits '0'

/-- The decimal is written with a minus sign. -/
def isNegative (d : Decimal) : Bool := decide (d.numerator < 0) || d.negative

theorem text_eq (h : 0 < d.digits) :
    d.text = signed d.isNegative d.wholeDigits ++ '.' :: d.partDigits := by
  have hsign : (if d.numerator < 0 ∨ d.negative = true then ['-'] else [])
      = if d.isNegative then ['-'] else [] := by
    simp [isNegative]
  simp only [text, hsign, if_neg (Nat.ne_of_gt h)]
  rfl

theorem length_partDigits (h : 0 < d.digits) : d.partDigits.length = d.digits := by
  have hlt : d.numerator.natAbs % d.denominator < Nat.pow 10 d.digits :=
    Nat.mod_lt _ (Nat.pow_pos (by decide))
  rw [partDigits, List.length_leftpad, Nat.max_eq_left (length_toDigits_le h hlt)]

theorem isDigits_partDigits : Spelling.isDigits d.partDigits = true := by
  rw [Spelling.isDigits_iff, partDigits, List.leftpad]
  refine ⟨by simp [Nat.toDigits_ne_nil], ?_⟩
  intro c hc
  rcases List.mem_append.1 hc with hc | hc
  · rw [List.eq_of_mem_replicate hc]
    rfl
  · exact Nat.isDigit_of_mem_toDigits (by decide) (by decide) hc

/-- The sign that is written and the size make up the numerator. -/
theorem signed_natAbs (hsign : d.negative = true → d.numerator ≤ 0) :
    (if d.isNegative then -(d.numerator.natAbs : Int) else d.numerator.natAbs) = d.numerator := by
  cases hneg : d.isNegative with
  | true =>
      simp only [isNegative, Bool.or_eq_true, decide_eq_true_eq] at hneg
      rw [if_pos rfl]
      rcases hneg with h | h
      · omega
      · have := hsign h
        omega
  | false =>
      simp only [isNegative, Bool.or_eq_false_iff, decide_eq_false_iff_not] at hneg
      rw [if_neg (by simp)]
      omega

/-- A decimal that is written is read back; a sign in front of a zero is not lost. -/
theorem ofText_text (hdigits : 0 < d.digits) (hlen : d.digits ≤ digitLimit)
    (hwrite : d.isWritable = true) (hsign : d.negative = true → d.numerator ≤ 0) :
    ofText d.text = .ok { d with negative := d.isNegative } := by
  have hwhole : Spelling.isDigits d.wholeDigits = true := isDigits_toDigits _
  rw [isWritable, Bool.and_eq_true, decide_eq_true_eq, decide_eq_true_eq] at hwrite
  have hsplit := splitSign_signed hwhole d.isNegative
  have hpart := length_partDigits hdigits
  rw [text_eq hdigits, ofText_eq_ok (isSignedDigits_signed hwhole _) isDigits_partDigits
    (by rw [hsplit]; exact length_toDigits_le (by decide) hwrite.1) (by rwa [hpart])
    (head?_signed hwhole _), hsplit, hpart, wholeDigits, partDigits, ofDigitChars_leftpad,
    Nat.ofDigitChars_ten_toDigits, Nat.ofDigitChars_ten_toDigits]
  -- The two parts make up the size of the numerator, which has the sign that was written.
  have hsize : ((d.numerator.natAbs / d.denominator : Nat) : Int) * (Nat.pow 10 d.digits : Nat)
      + (d.numerator.natAbs % d.denominator : Nat) = d.numerator.natAbs := by
    have := Nat.div_add_mod' d.numerator.natAbs d.denominator
    exact_mod_cast this
  rw [hsize, signed_natAbs hsign]

end Decimal

/-! ## Spellings -/

namespace Spelling

open Text

/-- A spelling that can stand alone: the scan takes it as it is if blanks are around it. -/
def StandsAlone : Spelling → Prop
  | integer cs => isSignedDigits cs = true
  | real whole part => isSignedDigits whole = true ∧ isDigits part = true
  | ident name => name ≠ [] ∧ (∀ c ∈ name, isIdentifier c = true) ∧ ofRun name = ident name
  | _ => True

theorem StandsAlone.isNumeric {s : Spelling} (h : s.StandsAlone) : s.IsNumeric := by
  cases s with
  | integer cs => exact h
  | real whole part => exact h
  | _ => trivial

/-- What a run of identifier characters spells can stand alone. -/
theorem standsAlone_ofRun {run : List Char} (hne : run ≠ [])
    (hrun : ∀ c ∈ run, isIdentifier c = true) : (ofRun run).StandsAlone := by
  have hnum := isNumeric_ofRun run
  have htext := text_ofRun run
  cases hs : ofRun run with
  | ident name =>
      rw [hs] at htext
      obtain rfl : name = run := htext
      exact ⟨hne, hrun, hs⟩
  | integer cs => rwa [hs] at hnum
  | real whole part => rwa [hs] at hnum
  | _ => trivial

/-- What a part spells can stand alone. -/
theorem standsAlone_of_spelling? {before behind : List Char} {p : Part} {s : Spelling}
    (h : p.Fits before behind) (hs : p.spelling? = some s) : s.StandsAlone := by
  cases p with
  | word run =>
      cases hs
      exact standsAlone_ofRun h.1.nonempty h.1.identifiers
  | real whole part =>
      cases hs
      exact ⟨h.1, h.2.1⟩
  | boolean b =>
      cases hs
      trivial
  | mark k =>
      cases hs
      trivial
  | _ => cases hs

/-- A number that was read is not too long. -/
theorem isOverlong_eq_false {s : Spelling} {x : Lexeme} (hnum : s.IsNumeric)
    (h : s.lexeme = .ok x) : s.isOverlong = false := by
  rw [Bool.eq_false_iff]
  intro hlong
  obtain ⟨n, -, herror⟩ := exists_lexeme_eq_error hnum hlong
  rw [h] at herror
  cases herror

/-- The sign that was read is the one that is displayed. -/
theorem exists_real {whole part : List Char} {x : Lexeme}
    (hwhole : isSignedDigits whole = true) (hpart : isDigits part = true)
    (h : (real whole part).lexeme = .ok x) :
    ∃ d : Decimal, x = .atom (.real d) ∧ d.digits = part.length ∧ d.digits ≤ digitLimit ∧
      (d.negative = true → d.numerator ≤ 0) ∧ d.isNegative = d.negative := by
  have hlong := isOverlong_eq_false (s := real whole part) ⟨hwhole, hpart⟩ h
  simp only [isOverlong, numerals, List.any_cons, List.any_nil, Bool.or_false, Bool.or_eq_false_iff,
    decide_eq_false_iff_not, Nat.not_lt] at hlong
  rw [lexeme, Decimal.ofText_eq_ok hwhole hpart hlong.1 hlong.2 rfl] at h
  cases h
  refine ⟨_, rfl, rfl, hlong.2, ?_⟩
  -- The digits alone spell a number that is not negative.
  obtain ⟨size, hsize⟩ : ∃ size : Nat, (Nat.ofDigitChars 10 (splitSign whole).2 0 : Int)
      * Nat.pow 10 part.length + Nat.ofDigitChars 10 part 0 = size := ⟨_, rfl⟩
  rw [hsize]
  generalize ((whole ++ '.' :: part).head? == some '-') = negative
  cases negative with
  | true => simp [Decimal.isNegative]
  | false => simp [Decimal.isNegative]

/-- **A lexeme that was read is displayed as a spelling of it.** -/
theorem exists_display {s : Spelling} {x : Lexeme} (hs : s.StandsAlone) (h : s.lexeme = .ok x) :
    ∃ s' : Spelling, s'.StandsAlone ∧ s'.text = x.text.toList ∧ s'.lexeme = .ok x := by
  have hnum := hs.isNumeric
  obtain ⟨x', hx', hwrite⟩ := exists_lexeme_eq_ok hnum (isOverlong_eq_false hnum h)
  obtain rfl : x' = x := by rw [h] at hx'; exact (Except.ok.inj hx').symm
  cases s with
  | keyword k =>
      cases h
      exact ⟨.keyword k, trivial, rfl, rfl⟩
  | boolean b =>
      cases h
      exact ⟨.boolean b, trivial, by cases b <;> rfl, rfl⟩
  | integer cs =>
      rw [lexeme] at h
      cases hr : readInteger cs with
      | error fault =>
          rw [hr] at h
          cases h
      | ok n =>
          rw [hr] at h
          cases h
          refine ⟨.integer (toString n).toList, ?_, rfl, ?_⟩
          · show isSignedDigits (toString n).toList = true
            rw [toList_toString]
            exact isSignedDigits_signed (isDigits_toDigits _) _
          · simp only [Lexeme.isWritable, Atom.isWritable, decide_eq_true_eq] at hwrite
            rw [lexeme, readInteger_toString hwrite]
            rfl
  | real whole part =>
      obtain ⟨d, rfl, hlen, hlimit, hsign, hneg⟩ := exists_real hs.1 hs.2 h
      have hpos : 0 < d.digits := by
        rw [hlen]
        exact List.length_pos_iff.2 (isDigits_iff.1 hs.2).1
      have htext := Decimal.text_eq hpos
      refine ⟨.real (signed d.isNegative d.wholeDigits) d.partDigits,
        ⟨isSignedDigits_signed (isDigits_toDigits _) _, Decimal.isDigits_partDigits⟩, ?_, ?_⟩
      · rw [text, ← htext]
        exact (String.toList_ofList).symm
      · rw [lexeme, ← htext, Decimal.ofText_text hpos hlimit hwrite hsign, hneg]
        rfl
  | ident name =>
      cases h
      exact ⟨.ident name, hs, (String.toList_ofList).symm, rfl⟩

end Spelling

end SchemeFront
