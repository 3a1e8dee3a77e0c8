import Mathlib.Algebra.Field.Rat
import Mathlib.Tactic.FieldSimp
import Mathlib.Tactic.Ring
import SchemeFront.Proofs.Lexer.Display

set_option autoImplicit false

/-! # Decimals are faithful to their spelling

A decimal keeps what its spelling says: the number of digits behind the point, the value, the sign.
Digits are determined by their number and the number they spell (`Text.eq_of_ofDigitChars_eq`), so
they come back when the decimal is written, but for zeros in front (`Text.trimZeros`). In the other
direction, a decimal that is written is read back. `Decimal.faithful` says both.
-/

namespace SchemeFront

/-! ## Digits and their values -/

namespace Text

/-- The digits without the zeros that mean nothing. One digit is left at least. -/
def trimZeros : List Char → List Char
  | '0' :: c :: cs => trimZeros (c :: cs)
  | cs => cs

/-- The value of digits behind a point: each counts a tenth of the one before it. -/
def partValue : List Char → ℚ
  | [] => 0
  | c :: cs => ((c.toNat - '0'.toNat : ℕ) + partValue cs) / 10

theorem partValue_eq (ds : List Char) :
    partValue ds = (Nat.ofDigitChars 10 ds 0 : ℚ) / (10 : ℚ) ^ ds.length := by
  induction ds with
  | nil => simp [partValue]
  | cons c cs ih =>
      have hfirst := @Nat.ofDigitChars_eq_ofDigitChars_zero cs (10 * 0 + (c.toNat - '0'.toNat))
      rw [partValue, ih, Nat.ofDigitChars_cons, hfirst, List.length_cons, pow_succ]
      push_cast
      field_simp
      ring

/-- As many digits with the same value are the same digits, whatever was in front of them. -/
theorem eq_of_ofDigitChars_eq {cs ds : List Char} {m n : ℕ} (hcs : cs.all Char.isDigit = true)
    (hds : ds.all Char.isDigit = true) (hlen : cs.length = ds.length)
    (h : Nat.ofDigitChars 10 cs m = Nat.ofDigitChars 10 ds n) : m = n ∧ cs = ds := by
  induction cs generalizing ds m n with
  | nil =>
      obtain rfl := List.length_eq_zero_iff.1 hlen.symm
      exact ⟨h, rfl⟩
  | cons c cs ih =>
      cases ds with
      | nil => cases hlen
      | cons d ds =>
          rw [List.all_cons, Bool.and_eq_true] at hcs hds
          rw [Nat.ofDigitChars_cons, Nat.ofDigitChars_cons] at h
          obtain ⟨hval, rfl⟩ := ih hcs.2 hds.2 (Nat.succ.inj hlen) h
          have hc := isDigit_bounds hcs.1
          have hd := isDigit_bounds hds.1
          have hzero : '0'.toNat = 48 := rfl
          obtain rfl : c = d := Char.toNat_inj.1 (by omega)
          exact ⟨by omega, rfl⟩

/-- Without the first of them, digits other than zero in front spell a smaller number. -/
theorem pow_le_ofDigitChars {c : Char} (cs : List Char) (hc : c.isDigit = true) (hne : c ≠ '0') :
    10 ^ cs.length ≤ Nat.ofDigitChars 10 (c :: cs) 0 := by
  have hbounds := isDigit_bounds hc
  have hzero : '0'.toNat = 48 := rfl
  have hpos : c.toNat ≠ 48 := fun h => hne (Char.toNat_inj.1 (h.trans hzero.symm))
  rw [Nat.ofDigitChars_cons, Nat.ofDigitChars_eq_ofDigitChars_zero]
  calc 10 ^ cs.length = 10 ^ cs.length * 1 := (Nat.mul_one _).symm
    _ ≤ 10 ^ cs.length * (10 * 0 + (c.toNat - '0'.toNat)) := Nat.mul_le_mul_left _ (by omega)
    _ ≤ _ := Nat.le_add_right _ _

theorem lt_pow_of_length_toDigits {n k : ℕ} (hk : 0 < k) (h : (Nat.toDigits 10 n).length ≤ k) :
    n < Nat.pow 10 k :=
  (Nat.length_toDigits_le_iff (by decide) hk).1 h

/-- Digits that are as many as those of the number they spell are written as they are. -/
theorem toDigits_ofDigitChars_of_length {ds : List Char} (h : Spelling.isDigits ds = true)
    (hlen : (Nat.toDigits 10 (Nat.ofDigitChars 10 ds 0)).length = ds.length) :
    Nat.toDigits 10 (Nat.ofDigitChars 10 ds 0) = ds :=
  (eq_of_ofDigitChars_eq (all_isDigit_of_isDigits (isDigits_toDigits _))
    (all_isDigit_of_isDigits h) hlen Nat.ofDigitChars_ten_toDigits).2

/-- Of digits that are read and written, only the zeros in front are lost. -/
theorem toDigits_ofDigitChars {ds : List Char} (h : Spelling.isDigits ds = true) :
    Nat.toDigits 10 (Nat.ofDigitChars 10 ds 0) = trimZeros ds := by
  obtain ⟨hne, hdigit⟩ := Spelling.isDigits_iff.1 h
  fun_induction trimZeros ds with
  | case1 c cs ih =>
      have hmore : Spelling.isDigits (c :: cs) = true :=
        Spelling.isDigits_iff.2 ⟨by simp, fun d hd => hdigit d (List.mem_cons_of_mem _ hd)⟩
      rw [← ih hmore (by simp) (Spelling.isDigits_iff.1 hmore).2]
      rfl
  | case2 ds hfirst =>
      have hlt : Nat.ofDigitChars 10 ds 0 < Nat.pow 10 ds.length :=
        ofDigitChars_lt (all_isDigit_of_isDigits h)
      refine toDigits_ofDigitChars_of_length h (Nat.le_antisymm
        (length_toDigits_le (List.length_pos_iff.2 hne) hlt) ?_)
      cases ds with
      | nil => exact absurd rfl hne
      | cons c cs =>
          cases cs with
          | nil => exact Nat.length_toDigits_pos
          | cons d cs =>
              -- The first digit counts, so fewer digits would not do.
              have hzero : c ≠ '0' := fun hc => hfirst d cs (by rw [hc])
              have hle := pow_le_ofDigitChars (d :: cs) (hdigit c (by simp)) hzero
              have hnot : ¬ (Nat.toDigits 10 (Nat.ofDigitChars 10 (c :: d :: cs) 0)).length
                  ≤ (d :: cs).length := by
                rw [Nat.length_toDigits_le_iff (by decide) (by simp)]
                exact Nat.not_lt.2 hle
              rw [List.length_cons]
              omega

/-- With zeros in front up to their number, digits that are read and written are not changed. -/
theorem leftpad_toDigits {ds : List Char} (h : Spelling.isDigits ds = true) :
    (Nat.toDigits 10 (Nat.ofDigitChars 10 ds 0)).leftpad ds.length '0' = ds := by
  have hall := all_isDigit_of_isDigits h
  have hle := length_toDigits_le (List.length_pos_iff.2 (Spelling.isDigits_iff.1 h).1)
    (ofDigitChars_lt hall)
  refine (eq_of_ofDigitChars_eq (m := 0) (n := 0) ?_ hall ?_ ?_).2
  · rw [List.leftpad, List.all_append, List.all_replicate,
      all_isDigit_of_isDigits (isDigits_toDigits _)]
    simp
  · rw [List.length_leftpad, Nat.max_eq_left hle]
  · rw [ofDigitChars_leftpad, Nat.ofDigitChars_ten_toDigits]

end Text

/-! ## Reading and writing -/

namespace Decimal

open Text

variable {d : Decimal} {whole part : List Char}

/-- The fraction is the quotient in lowest terms. -/
theorem fraction_eq (d : Decimal) {q : ℚ} (hq : q = d.numerator / d.denominator) :
    d.fraction = (q.num, q.den) := by
  have hpos : d.denominator ≠ 0 := Nat.ne_of_gt (Nat.pow_pos (by decide))
  rw [hq, ← Rat.mkRat_eq_div, ← Rat.normalize_eq_mkRat hpos, Rat.normalize_eq]
  rfl

/-- Without digits behind the point, those before it are read. -/
theorem ofText_point (hwhole : Spelling.isSignedDigits whole = true)
    (hlen : (splitSign whole).2.length ≤ digitLimit) {negative : Bool}
    (hneg : ((whole ++ ['.']).head? == some '-') = negative) :
    ofText (whole ++ ['.']) =
      .ok ⟨if negative then -(Nat.ofDigitChars 10 (splitSign whole).2 0 : Int)
        else Nat.ofDigitChars 10 (splitSign whole).2 0, 0, negative⟩ := by
  have hpoint : ∀ c ∈ (splitSign whole).2, (c != '.') = true := by
    intro c hc
    have hdigit := List.all_eq_true.1 (all_isDigit_of_isDigits hwhole) c hc
    simpa using ne_of_isDigit hdigit (show '.'.isDigit = false from rfl)
  have htake : ((splitSign whole).2 ++ ['.']).takeWhile (· != '.') = (splitSign whole).2 := by
    rw [List.takeWhile_append_of_pos hpoint]
    simp
  have hdrop : ((splitSign whole).2 ++ ['.']).dropWhile (· != '.') = ['.'] := by
    rw [List.dropWhile_append_of_pos hpoint]
    simp
  rw [ofText, dropWhile_isSign hwhole, htake, hdrop, (readInteger_of_isDigits hwhole).2 hlen, hneg]
  simp [bind, Except.bind, pure, Except.pure]

/-- Without digits behind the point, nothing follows it. -/
theorem text_of_digits_eq_zero (h : d.digits = 0) :
    d.text = signed d.isNegative d.wholeDigits ++ ['.'] := by
  have hsign : (if d.numerator < 0 ∨ d.negative = true then ['-'] else [])
      = if d.isNegative then ['-'] else [] := by
    simp [isNegative]
  simp only [text, hsign, if_pos h]
  rfl

/-- Behind a sign, or without one, the digits are what they are. -/
theorem splitSign_of_sign {sign ds : List Char} (hsign : sign ∈ [[], ['+'], ['-']])
    (h : Spelling.isDigits ds = true) : splitSign (sign ++ ds) = (decide (sign = ['-']), ds) := by
  simp only [List.mem_cons, List.not_mem_nil, or_false] at hsign
  rcases hsign with rfl | rfl | rfl
  · exact Spelling.splitSign_of_isDigits h
  · rfl
  · rfl

/-- A text begins with a minus sign if that is its sign. -/
theorem head?_of_sign {sign ds : List Char} (rest : List Char)
    (hsign : sign ∈ [[], ['+'], ['-']]) (h : Spelling.isDigits ds = true) :
    ((sign ++ ds ++ rest).head? == some '-') = decide (sign = ['-']) := by
  simp only [List.mem_cons, List.not_mem_nil, or_false] at hsign
  rcases hsign with rfl | rfl | rfl
  · exact head?_signed h false
  · rfl
  · rfl

/-- The number that a sign and the digits before and behind a point spell. -/
def spelledValue (sign whole part : List Char) : ℚ :=
  (if sign = ['-'] then -1 else 1) * (Nat.ofDigitChars 10 whole 0 + partValue part)

/-- What a decimal keeps of its spelling. -/
structure KeepsSpelling (sign whole part : List Char) (d : Decimal) : Prop where
  digits_eq : d.digits = part.length
  fraction_eq :
    d.fraction = ((spelledValue sign whole part).num, (spelledValue sign whole part).den)
  negative_iff : d.negative = true ↔ (sign ++ whole ++ '.' :: part).head? = some '-'
  write_eq : d.write =
    .ok ((if sign = ['-'] then ['-'] else []) ++ trimZeros whole ++ '.' :: part)

/-- The decimal with the number `w` before the point and `k` digits behind it that spell `p`. -/
def ofParts (negative : Bool) (w p k : ℕ) : Decimal :=
  ⟨if negative then -((w : Int) * Nat.pow 10 k + p) else w * Nat.pow 10 k + p, k, negative⟩

/-- The sign that is read is the sign that is written, also in front of a zero. -/
theorem isNegative_ofParts (negative : Bool) (w p k : ℕ) :
    (ofParts negative w p k).isNegative = negative := by
  cases negative with
  | true => simp [ofParts, isNegative]
  | false =>
      have hnonneg : (0 : Int) ≤ ((w * Nat.pow 10 k + p : ℕ) : Int) := Int.natCast_nonneg _
      push_cast at hnonneg
      simp only [ofParts, isNegative, Bool.or_false, Bool.false_eq_true, if_false,
        decide_eq_false_iff_not]
      omega

theorem text_ofParts (negative : Bool) (hwhole : Spelling.isDigits whole = true)
    (hpart : Spelling.isDigits part = true) :
    (ofParts negative (Nat.ofDigitChars 10 whole 0) (Nat.ofDigitChars 10 part 0)
      part.length).text = signed negative (trimZeros whole) ++ '.' :: part := by
  obtain ⟨hdiv, hmod⟩ := parts_of_lt (w := Nat.ofDigitChars 10 whole 0) negative
    (ofDigitChars_lt (all_isDigit_of_isDigits hpart))
  have hpos : 0 < part.length := List.length_pos_iff.2 (Spelling.isDigits_iff.1 hpart).1
  rw [text_eq hpos, isNegative_ofParts, wholeDigits, partDigits]
  simp only [ofParts, denominator]
  rw [hdiv, hmod, toDigits_ofDigitChars hwhole, leftpad_toDigits hpart]

theorem fraction_ofParts (sign whole part : List Char) :
    (ofParts (decide (sign = ['-'])) (Nat.ofDigitChars 10 whole 0) (Nat.ofDigitChars 10 part 0)
      part.length).fraction =
      ((spelledValue sign whole part).num, (spelledValue sign whole part).den) := by
  refine Decimal.fraction_eq _ ?_
  rw [spelledValue, partValue_eq]
  by_cases h : sign = ['-']
  all_goals
    simp only [h, ofParts, denominator, decide_true, decide_false, if_true, if_false,
      Bool.false_eq_true, Nat.pow_eq]
    push_cast
    field_simp

/-- A text that spells a decimal is read. -/
theorem exists_keepsSpelling {sign : List Char} (hsign : sign ∈ [[], ['+'], ['-']])
    (hwhole : Spelling.isDigits whole = true) (hpart : Spelling.isDigits part = true)
    (hwlen : whole.length ≤ digitLimit) (hplen : part.length ≤ digitLimit) :
    ∃ d, ofText (sign ++ whole ++ '.' :: part) = .ok d ∧ d.KeepsSpelling sign whole part := by
  have hsplit := splitSign_of_sign hsign hwhole
  have hhead := head?_of_sign ('.' :: part) hsign hwhole
  have hsigned : Spelling.isSignedDigits (sign ++ whole) = true := by
    rw [Spelling.isSignedDigits, hsplit]
    exact hwhole
  have hread := ofText_eq_ok hsigned hpart (by rwa [hsplit]) hplen hhead
  rw [hsplit] at hread
  have hwrite := isWritable_of_lt (decide (sign = ['-']))
    (ofDigitChars_lt (all_isDigit_of_isDigits hwhole)) hwlen
    (ofDigitChars_lt (all_isDigit_of_isDigits hpart)) hplen
  refine ⟨ofParts (decide (sign = ['-'])) (Nat.ofDigitChars 10 whole 0)
    (Nat.ofDigitChars 10 part 0) part.length, hread, rfl, fraction_ofParts sign whole part, ?_, ?_⟩
  · show decide (sign = ['-']) = true ↔ _
    rw [← hhead, beq_iff_eq]
  · have hwrite' : (ofParts (decide (sign = ['-'])) (Nat.ofDigitChars 10 whole 0)
        (Nat.ofDigitChars 10 part 0) part.length).isWritable = true := hwrite
    rw [write, hwrite', text_ofParts _ hwhole hpart, signed]
    simp only [decide_eq_true_eq, writeIf, if_true]

/-- A decimal is read from the text that is written for it. -/
theorem exists_write (hsign : d.negative = true → d.numerator ≤ 0)
    (hwhole : d.wholeDigits.length ≤ digitLimit) (hdigits : d.digits ≤ digitLimit) :
    ∃ text e, d.write = .ok text ∧ ofText text = .ok e ∧ e.numerator = d.numerator ∧
      e.digits = d.digits := by
  have hwrite : d.isWritable = true := by
    have hpart : d.numerator.natAbs % d.denominator < Nat.pow 10 d.digits :=
      Nat.mod_lt _ (Nat.pow_pos (by decide))
    rw [isWritable, Bool.and_eq_true, decide_eq_true_eq, decide_eq_true_eq]
    exact ⟨lt_pow_of_length_toDigits (by decide) hwhole,
      Nat.lt_of_lt_of_le hpart (pow_ten_le hdigits)⟩
  rcases Nat.eq_zero_or_pos d.digits with hzero | hpos
  · have hwd : Spelling.isDigits d.wholeDigits = true := isDigits_toDigits _
    have hsplit := splitSign_signed hwd d.isNegative
    have hread := ofText_point (isSignedDigits_signed hwd d.isNegative) (by rwa [hsplit])
      (head?_signed hwd d.isNegative)
    refine ⟨d.text, _, by rw [write, hwrite]; rfl, by rw [text_of_digits_eq_zero hzero, hread], ?_,
      hzero.symm⟩
    have hsize : d.numerator.natAbs / d.denominator = d.numerator.natAbs := by
      rw [denominator, hzero]
      exact Nat.div_one _
    rw [hsplit, wholeDigits, Nat.ofDigitChars_ten_toDigits, hsize]
    exact signed_natAbs hsign
  · exact ⟨d.text, _, by rw [write, hwrite]; rfl, ofText_text hpos hdigits hwrite hsign, rfl, rfl⟩

/-- **Decimals are faithful to their spelling.** A text of digits around a point, with or without a
sign, is read as a decimal with as many digits behind the point, with the value that the text
spells, and with the sign of the text. It is written with this sign and the digits of the text, but
for zeros in front that mean nothing. In turn, a decimal that is written, with any number of digits
behind the point, is read back with the same numerator and the same number of digits. -/
theorem faithful :
    (∀ sign ∈ [[], ['+'], ['-']], ∀ whole part : List Char, Spelling.isDigits whole = true →
      Spelling.isDigits part = true → whole.length ≤ digitLimit → part.length ≤ digitLimit →
      ∃ d, ofText (sign ++ whole ++ '.' :: part) = .ok d ∧ d.KeepsSpelling sign whole part) ∧
    ∀ d : Decimal, (d.negative = true → d.numerator ≤ 0) → d.wholeDigits.length ≤ digitLimit →
      d.digits ≤ digitLimit → ∃ text e, d.write = .ok text ∧ ofText text = .ok e ∧
        e.numerator = d.numerator ∧ e.digits = d.digits :=
  ⟨fun _ hsign _ _ hwhole hpart hwlen hplen =>
      exists_keepsSpelling hsign hwhole hpart hwlen hplen,
    fun _ hsign hwhole hdigits => exists_write hsign hwhole hdigits⟩

/-- A negative zero with zeros in front and behind, and a decimal without digits behind the
point. -/
theorem faithful_zeros :
    (∃ d, ofText "-000.00".toList = .ok d ∧ d.KeepsSpelling ['-'] "000".toList "00".toList ∧
      d.write = .ok "-0.00".toList) ∧
    ∃ text e, write ⟨-70, 0, true⟩ = .ok text ∧ ofText text = .ok e ∧ e.numerator = -70 ∧
      e.digits = 0 := by
  constructor
  · obtain ⟨d, hread, hkeeps⟩ := faithful.1 ['-'] (by simp) "000".toList "00".toList (by decide)
      (by decide) (by decide) (by decide)
    exact ⟨d, hread, hkeeps, hkeeps.write_eq⟩
  · exact faithful.2 ⟨-70, 0, true⟩ (by decide) (by decide) (by decide)

end Decimal

end SchemeFront
