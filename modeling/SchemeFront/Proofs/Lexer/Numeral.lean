import Mathlib.Data.List.TakeWhile
import SchemeFront.Proofs.Lexer.Layout

set_option autoImplicit false

/-! # Reading the numbers of a source

The scan finds numbers that are made of digits of ASCII. Such a number can be read unless it has
too many digits (`Spelling.exists_lexeme_eq_ok`, `Spelling.exists_lexeme_eq_error`), and a number
that was read can be written. So a source is read unless some number in it is too long
(`Lexed.exists_ofSource_eq_ok`, `Lexed.exists_ofSource_eq_error`).
-/

namespace SchemeFront

/-! ## Digits -/

namespace Text

theorem isDigit_bounds {c : Char} (h : c.isDigit = true) : 48 ≤ c.toNat ∧ c.toNat ≤ 57 := by
  simp only [Char.isDigit, Bool.and_eq_true, decide_eq_true_eq, ge_iff_le,
    UInt32.le_iff_toNat_le] at h
  exact h

/-- A digit of ASCII has its value. -/
theorem digitValue?_of_isDigit {c : Char} (h : c.isDigit = true) :
    digitValue? c = some (c.toNat - 48) := by
  obtain ⟨hlow, hhigh⟩ := isDigit_bounds h
  have hin : (decide (48 ≤ c.toNat) && decide (c.toNat < 48 + 10)) = true := by
    simp only [Bool.and_eq_true, decide_eq_true_eq]
    omega
  rw [digitValue?, digitZeros, List.find?_cons, hin]
  rfl

theorem isGroupChar_of_isDigit {c : Char} (h : c.isDigit = true) : isGroupChar c = true := by
  simp [isGroupChar, digitValue?_of_isDigit h]

theorem ne_of_isDigit {c d : Char} (h : c.isDigit = true) (hd : d.isDigit = false) : c ≠ d := by
  rintro rfl
  rw [h] at hd
  cases hd

/-- Digits and signs are no blanks. -/
theorem isMargin_of_isIdentifier {c : Char} (h : isIdentifier c = true) :
    isMargin c = false := by
  have hblank : isBlank c = false := by
    cases hb : isBlank c with
    | false => rfl
    | true => rw [not_isIdentifier_of_isBlank hb] at h; cases h
  simp [isMargin, hblank]

/-- Digits are nothing but digits. -/
theorem all_isDigit_of_isDigits {ds : List Char} (h : Spelling.isDigits ds = true) :
    ds.all Char.isDigit = true := by
  rw [Spelling.isDigits, Bool.and_eq_true] at h
  exact h.2

/-! ## Integers -/

/-- With more digits there are more numbers. -/
theorem pow_ten_le {k l : Nat} (h : k ≤ l) : Nat.pow 10 k ≤ Nat.pow 10 l :=
  Nat.pow_le_pow_right (by decide) h

/-- A number is smaller than the power of ten with as many zeros as it has digits. -/
theorem valueOf_lt {digits : List Nat} (h : ∀ d ∈ digits, d < 10) :
    valueOf digits < Nat.pow 10 digits.length := by
  have key : ∀ (ds : List Nat) (n : Nat), (∀ d ∈ ds, d < 10) →
      ds.foldl (fun n d => 10 * n + d) n < (n + 1) * Nat.pow 10 ds.length := by
    intro ds
    induction ds with
    | nil => simp
    | cons d ds ih =>
        intro n hds
        have hd : d < 10 := hds d (by simp)
        have := ih (10 * n + d) fun d' hd' => hds d' (by simp [hd'])
        calc (d :: ds).foldl (fun n d => 10 * n + d) n
            < (10 * n + d + 1) * Nat.pow 10 ds.length := this
          _ ≤ ((n + 1) * 10) * Nat.pow 10 ds.length := Nat.mul_le_mul_right _ (by omega)
          _ = (n + 1) * Nat.pow 10 (d :: ds).length := by
              rw [List.length_cons, Nat.mul_assoc, Nat.mul_comm 10]
              rfl
  simpa [valueOf] using key digits 0 h

theorem wellGrouped_of_isDigits {ds : List Char} (h : ds.all Char.isDigit = true)
    (hne : ds ≠ []) : wellGrouped ds = true := by
  fun_induction wellGrouped ds with
  | case1 => exact absurd rfl hne
  | case2 cs => exact absurd h (by simp [show ('_' : Char).isDigit = false from rfl])
  | case3 c hc => rfl
  | case4 c cs hc ih => exact absurd h (by simp [show ('_' : Char).isDigit = false from rfl])
  | case5 c d cs hc hd ih =>
      simp only [List.all_cons, Bool.and_eq_true] at h
      exact ih (by simp [h.2.1, h.2.2]) (by simp)

theorem filterMap_digitValue? {ds : List Char} (h : ds.all Char.isDigit = true) :
    ds.filterMap digitValue? = ds.map fun c => c.toNat - 48 := by
  induction ds with
  | nil => rfl
  | cons c ds ih =>
      simp only [List.all_cons, Bool.and_eq_true] at h
      rw [List.filterMap_cons, digitValue?_of_isDigit h.1, ih h.2, List.map_cons]

/-- A signed numeral begins with a sign or a digit, and so not with a blank. -/
theorem dropWhile_isMargin_of_isSignedDigits {cs : List Char}
    (h : Spelling.isSignedDigits cs = true) : cs.dropWhile isMargin = cs := by
  unfold Spelling.isSignedDigits Spelling.isDigits splitSign at h
  split at h
  · exact List.dropWhile_cons_of_neg (by decide)
  · exact List.dropWhile_cons_of_neg (by decide)
  · cases cs with
    | nil => rfl
    | cons c cs =>
        simp only [Bool.and_eq_true, List.all_cons] at h
        exact List.dropWhile_cons_of_neg
          (by simp [isMargin_of_isIdentifier (isIdentifier_of_isDigit h.2.1)])

/-- Digits of ASCII are read as the number they spell. -/
theorem valueOf_digits {ds : List Char} (h : ds.all Char.isDigit = true) :
    valueOf (ds.filterMap digitValue?) = Nat.ofDigitChars 10 ds 0 := by
  rw [filterMap_digitValue? h, valueOf, List.foldl_map]
  rfl

/-- The number that digits spell is smaller than the power of ten with as many zeros. -/
theorem ofDigitChars_lt {ds : List Char} (h : ds.all Char.isDigit = true) :
    Nat.ofDigitChars 10 ds 0 < Nat.pow 10 ds.length := by
  have hlt : ∀ d ∈ ds.filterMap digitValue?, d < 10 := by
    intro d hd
    rw [filterMap_digitValue? h] at hd
    obtain ⟨c, hc, rfl⟩ := List.mem_map.1 hd
    have := isDigit_bounds (List.all_eq_true.1 h c hc)
    omega
  have key := valueOf_lt hlt
  rwa [valueOf_digits h, filterMap_digitValue? h, List.length_map] at key

/-- Digits with an optional sign are read, unless they are too many. -/
theorem readInteger_of_isSignedDigits {cs : List Char}
    (h : Spelling.isSignedDigits cs = true) :
    (digitLimit < (splitSign cs).2.length →
      readInteger cs = .error (.tooManyDigits (splitSign cs).2.length)) ∧
    ((splitSign cs).2.length ≤ digitLimit → readInteger cs =
      .ok (if (splitSign cs).1 then -(Nat.ofDigitChars 10 (splitSign cs).2 0 : Int)
        else Nat.ofDigitChars 10 (splitSign cs).2 0)) := by
  have hds := h
  simp only [Spelling.isSignedDigits, Spelling.isDigits, Bool.and_eq_true, Bool.not_eq_true',
    List.isEmpty_eq_false_iff] at hds
  obtain ⟨hne, hall⟩ := hds
  -- No blanks and no underscores, so that all of the text is one group of digits.
  have hgroup : ∀ c ∈ (splitSign cs).2, isGroupChar c = true := fun c hc =>
    isGroupChar_of_isDigit (List.all_eq_true.1 hall c hc)
  have htake : (splitSign cs).2.takeWhile isGroupChar = (splitSign cs).2 :=
    List.takeWhile_eq_self_iff.2 hgroup
  have hdrop : (splitSign cs).2.dropWhile isGroupChar = [] :=
    List.dropWhile_eq_nil_iff.2 hgroup
  have hlen : ((splitSign cs).2.filterMap digitValue?).length = (splitSign cs).2.length := by
    rw [filterMap_digitValue? hall, List.length_map]
  unfold readInteger
  rw [dropWhile_isMargin_of_isSignedDigits h]
  simp only [htake, hdrop, wellGrouped_of_isDigits hall hne, hlen, valueOf_digits hall,
    List.all_nil, Bool.not_true, Bool.false_eq_true, if_false]
  constructor
  · intro hlong
    rw [if_pos hlong]
  · intro hshort
    rw [if_neg (Nat.not_lt.2 hshort)]

/-- Digits without a sign are read, unless they are too many. -/
theorem readInteger_of_isDigits {ds : List Char} (h : Spelling.isDigits ds = true) :
    (digitLimit < ds.length → readInteger ds = .error (.tooManyDigits ds.length)) ∧
    (ds.length ≤ digitLimit → readInteger ds = .ok (Nat.ofDigitChars 10 ds 0)) := by
  have hsigned : Spelling.isSignedDigits ds = true := by
    rw [Spelling.isSignedDigits, Spelling.splitSign_of_isDigits h]
    exact h
  have key := readInteger_of_isSignedDigits hsigned
  rw [Spelling.splitSign_of_isDigits h] at key
  exact key

end Text

/-! ## Decimals -/

namespace Decimal

open Text

/-- The signs in front of a decimal are dropped. -/
theorem dropWhile_isSign {cs rest : List Char} (h : Spelling.isSignedDigits cs = true) :
    (cs ++ rest).dropWhile isSign = (splitSign cs).2 ++ rest := by
  have hdigits : ∀ ds : List Char, Spelling.isDigits ds = true →
      (ds ++ rest).dropWhile isSign = ds ++ rest := by
    intro ds hds
    cases ds with
    | nil => cases hds
    | cons d ds =>
        simp only [Spelling.isDigits, Bool.and_eq_true, List.all_cons] at hds
        refine List.dropWhile_cons_of_neg ?_
        simp [isSign, ne_of_isDigit hds.2.1 (show '+'.isDigit = false from rfl),
          ne_of_isDigit hds.2.1 (show '-'.isDigit = false from rfl)]
  unfold Spelling.isSignedDigits splitSign at h
  unfold splitSign
  split at h
  · exact hdigits _ h
  · exact hdigits _ h
  · exact hdigits _ h

/-- A decimal is read unless one of its parts has too many digits. -/
theorem ofText_of_isDigits {whole part : List Char}
    (hwhole : Spelling.isSignedDigits whole = true) (hpart : Spelling.isDigits part = true) :
    ofText (whole ++ '.' :: part) = (do
      let w ← readInteger (splitSign whole).2
      let p ← readInteger part
      let size := w * Nat.pow 10 part.length + p
      let negative := (whole ++ '.' :: part).head? == some '-'
      return ⟨if negative then -size else size, part.length, negative⟩) := by
  have hne : part.isEmpty = false := by
    simp only [Spelling.isDigits, Bool.and_eq_true, Bool.not_eq_true'] at hpart
    exact hpart.1
  have hpoint : ∀ c ∈ (splitSign whole).2, (c != '.') = true := by
    intro c hc
    simp only [Spelling.isSignedDigits, Spelling.isDigits, Bool.and_eq_true] at hwhole
    have := ne_of_isDigit (List.all_eq_true.1 hwhole.2 c hc) (show '.'.isDigit = false from rfl)
    simpa using this
  have htake : ((splitSign whole).2 ++ '.' :: part).takeWhile (· != '.')
      = (splitSign whole).2 := by
    rw [List.takeWhile_append_of_pos hpoint]
    simp
  have hdrop : ((splitSign whole).2 ++ '.' :: part).dropWhile (· != '.') = '.' :: part := by
    rw [List.dropWhile_append_of_pos hpoint]
    simp
  rw [ofText, dropWhile_isSign hwhole, htake, hdrop]
  simp only [List.tail_cons, hne, Bool.false_eq_true, if_false]

/-- A decimal whose parts are short enough has the value that its digits spell. -/
theorem ofText_eq_ok {whole part : List Char}
    (hwhole : Spelling.isSignedDigits whole = true) (hpart : Spelling.isDigits part = true)
    (hwlen : (splitSign whole).2.length ≤ digitLimit) (hplen : part.length ≤ digitLimit)
    {negative : Bool} (hneg : ((whole ++ '.' :: part).head? == some '-') = negative) :
    ofText (whole ++ '.' :: part) =
      .ok ⟨if negative then -((Nat.ofDigitChars 10 (splitSign whole).2 0 : Int)
          * Nat.pow 10 part.length + Nat.ofDigitChars 10 part 0)
        else Nat.ofDigitChars 10 (splitSign whole).2 0 * Nat.pow 10 part.length
          + Nat.ofDigitChars 10 part 0, part.length, negative⟩ := by
  rw [ofText_of_isDigits hwhole hpart, (readInteger_of_isDigits hwhole).2 hwlen,
    (readInteger_of_isDigits hpart).2 hplen, hneg]
  rfl

/-- The digits before the point and those behind it can be told apart in the numerator. -/
theorem parts_of_lt {w p k : Nat} (negative : Bool) (hp : p < Nat.pow 10 k) :
    (if negative then -((w : Int) * Nat.pow 10 k + p) else w * Nat.pow 10 k + p).natAbs
        / Nat.pow 10 k = w ∧
      (if negative then -((w : Int) * Nat.pow 10 k + p) else w * Nat.pow 10 k + p).natAbs
        % Nat.pow 10 k = p := by
  have hsize : (if negative then -((w : Int) * Nat.pow 10 k + p)
      else w * Nat.pow 10 k + p).natAbs = w * Nat.pow 10 k + p := by
    split
    · rw [Int.natAbs_neg]
      exact_mod_cast rfl
    · exact_mod_cast rfl
  have hpos : 0 < Nat.pow 10 k := Nat.pow_pos (by decide)
  rw [hsize]
  constructor
  · calc (w * Nat.pow 10 k + p) / Nat.pow 10 k
        = p / Nat.pow 10 k + w := by rw [Nat.add_comm, Nat.add_mul_div_right _ _ hpos]
      _ = w := by rw [Nat.div_eq_of_lt hp, Nat.zero_add]
  · calc (w * Nat.pow 10 k + p) % Nat.pow 10 k
        = p % Nat.pow 10 k := by rw [Nat.add_comm, Nat.add_mul_mod_self_right]
      _ = p := Nat.mod_eq_of_lt hp

/-- What is read from not too many digits can be written. -/
theorem isWritable_of_lt {w p k l : Nat} (negative : Bool) (hw : w < Nat.pow 10 l)
    (hl : l ≤ digitLimit) (hp : p < Nat.pow 10 k) (hk : k ≤ digitLimit) :
    (Decimal.mk (if negative then -((w : Int) * Nat.pow 10 k + p) else w * Nat.pow 10 k + p) k
      negative).isWritable = true := by
  obtain ⟨hdiv, hmod⟩ := parts_of_lt (w := w) negative hp
  have hwhole : w < Nat.pow 10 digitLimit := Nat.lt_of_lt_of_le hw (pow_ten_le hl)
  have hpart : p < Nat.pow 10 digitLimit := Nat.lt_of_lt_of_le hp (pow_ten_le hk)
  simp only [isWritable, denominator, hdiv, hmod, Bool.and_eq_true, decide_eq_true_eq]
  exact ⟨hwhole, hpart⟩

end Decimal

/-! ## Spellings -/

namespace Spelling

open Text

/-- A number with too many digits cannot be read. -/
theorem exists_lexeme_eq_error {s : Spelling} (hnum : s.IsNumeric) (h : s.isOverlong = true) :
    ∃ n, digitLimit < n ∧ s.lexeme = .error (.tooManyDigits n) := by
  obtain ⟨ds, hds, hlong⟩ := List.any_eq_true.1 h
  rw [decide_eq_true_eq] at hlong
  cases s with
  | integer cs =>
      obtain rfl := List.mem_singleton.1 hds
      refine ⟨_, hlong, ?_⟩
      rw [lexeme, (readInteger_of_isSignedDigits hnum).1 hlong]
      rfl
  | real whole part =>
      obtain ⟨hwhole, hpart⟩ : isDigits (splitSign whole).2 = true ∧ isDigits part = true := hnum
      -- The whole part is read first, so it stops the reading if both parts are too long.
      rw [lexeme, Decimal.ofText_of_isDigits hwhole hpart]
      have hw := readInteger_of_isDigits hwhole
      have hp := readInteger_of_isDigits hpart
      by_cases hlarge : digitLimit < (splitSign whole).2.length
      · refine ⟨_, hlarge, ?_⟩
        rw [hw.1 hlarge]
        rfl
      · have hread := hw.2 (Nat.not_lt.1 hlarge)
        have hlong : digitLimit < part.length := by
          simp only [numerals, List.mem_cons, List.not_mem_nil, or_false] at hds
          rcases hds with rfl | rfl
          · exact absurd hlong hlarge
          · exact hlong
        refine ⟨_, hlong, ?_⟩
        rw [hread, hp.1 hlong]
        rfl
  | _ => cases hds

/-- Everything else can be read, and what was read can be written. -/
theorem exists_lexeme_eq_ok {s : Spelling} (hnum : s.IsNumeric) (h : s.isOverlong = false) :
    ∃ l, s.lexeme = .ok l ∧ l.isWritable = true := by
  have hshort : ∀ ds ∈ s.numerals, ds.length ≤ digitLimit := by
    intro ds hds
    have := List.any_eq_false.1 h ds hds
    simpa using this
  cases s with
  | integer cs =>
      have hlen := hshort _ (List.mem_singleton.2 rfl)
      have hdigits : isDigits (splitSign cs).2 = true := hnum
      refine ⟨_, by rw [lexeme, (readInteger_of_isSignedDigits hnum).2 hlen]; rfl, ?_⟩
      have hlt := ofDigitChars_lt (all_isDigit_of_isDigits hdigits)
      simp only [Lexeme.isWritable, Atom.isWritable, decide_eq_true_eq]
      refine Nat.lt_of_lt_of_le ?_ (pow_ten_le hlen)
      split
      · rwa [Int.natAbs_neg, Int.natAbs_natCast]
      · rwa [Int.natAbs_natCast]
  | real whole part =>
      obtain ⟨hwhole, hpart⟩ : isDigits (splitSign whole).2 = true ∧ isDigits part = true := hnum
      have hwlen := hshort (splitSign whole).2 (by simp [numerals])
      have hplen := hshort part (by simp [numerals])
      have hwrite := Decimal.isWritable_of_lt ((whole ++ '.' :: part).head? == some '-')
        (ofDigitChars_lt (all_isDigit_of_isDigits hwhole)) hwlen
        (ofDigitChars_lt (all_isDigit_of_isDigits hpart)) hplen
      obtain ⟨d, hd, hdwrite⟩ :
          ∃ d, Decimal.ofText (whole ++ '.' :: part) = .ok d ∧ d.isWritable = true :=
        ⟨_, Decimal.ofText_eq_ok hwhole hpart hwlen hplen rfl, hwrite⟩
      exact ⟨.atom (.real d), by rw [lexeme, hd]; rfl, hdwrite⟩
  | _ => exact ⟨_, rfl, rfl⟩

end Spelling

/-! ## Sources -/

/-- Some number in the source has too many digits. -/
def Source.IsOverlong (src : Source) : Prop :=
  ∃ i ∈ Scanned.ofText src.text, i.isOverlong = true

instance (src : Source) : Decidable src.IsOverlong :=
  inferInstanceAs (Decidable (∃ i ∈ Scanned.ofText src.text, i.isOverlong = true))

/-- Some character of the source belongs to no token. -/
def Source.HasStray (src : Source) : Prop := ∃ i ∈ Scanned.ofText src.text, i.isStray = true

instance (src : Source) : Decidable src.HasStray :=
  inferInstanceAs (Decidable (∃ i ∈ Scanned.ofText src.text, i.isStray = true))

namespace Lexed

variable {path : String} {items : List Scanned} {src : Source}

/-- The first number with too many digits ends the reading of a scan. -/
theorem exists_ofScanned_eq_error (hnum : ∀ i ∈ items, i.IsNumeric)
    (h : ∃ i ∈ items, i.isOverlong = true) :
    ∃ n, digitLimit < n ∧ ofScanned path items = .error (.tooManyDigits n) := by
  induction items with
  | nil =>
      obtain ⟨i, hi, -⟩ := h
      cases hi
  | cons i items ih =>
      have hnum' : ∀ j ∈ items, j.IsNumeric := fun j hj => hnum j (List.mem_cons_of_mem _ hj)
      simp only [List.mem_cons, exists_eq_or_imp] at h
      cases i with
      | token start s =>
          have hs : s.IsNumeric := hnum _ (List.mem_cons_self ..)
          rw [ofScanned]
          -- Either this number stops the reading, or else one behind it does.
          by_cases hlong : s.isOverlong = true
          · obtain ⟨n, hn, hread⟩ := Spelling.exists_lexeme_eq_error hs hlong
            refine ⟨n, hn, ?_⟩
            rw [hread]
            rfl
          · obtain ⟨n, hn, hrest⟩ := ih hnum' (h.resolve_left hlong)
            obtain ⟨lexeme, hread, -⟩ :=
              Spelling.exists_lexeme_eq_ok hs (by simpa using hlong)
            refine ⟨n, hn, ?_⟩
            rw [hread, hrest]
            rfl
      | stray start c =>
          obtain ⟨n, hn, hrest⟩ := ih hnum' (h.resolve_left (by simp [Scanned.isOverlong]))
          refine ⟨n, hn, ?_⟩
          rw [ofScanned, hrest]
          rfl

/-- Without such a number a scan is read, and what was read can be written. -/
theorem exists_ofScanned_eq_ok (hnum : ∀ i ∈ items, i.IsNumeric)
    (h : ¬ ∃ i ∈ items, i.isOverlong = true) :
    ∃ l, ofScanned path items = .ok l ∧ (∀ t ∈ l.tokens, t.lexeme.isWritable = true) ∧
      ∀ d ∈ l.diagnostics, d.isWritable = true := by
  induction items with
  | nil => exact ⟨{}, rfl, by simp, by simp⟩
  | cons i items ih =>
      simp only [List.mem_cons, exists_eq_or_imp, not_or] at h
      obtain ⟨l, hl, htokens, hdiagnostics⟩ :=
        ih (fun j hj => hnum j (List.mem_cons_of_mem _ hj)) h.2
      cases i with
      | token start s =>
          obtain ⟨lexeme, hread, hwrite⟩ := Spelling.exists_lexeme_eq_ok (s := s)
            (hnum _ (List.mem_cons_self ..)) (by simpa [Scanned.isOverlong] using h.1)
          refine ⟨⟨⟨lexeme, Span.ofLength path start s.length⟩ :: l.tokens, l.diagnostics⟩,
            ?_, ?_, hdiagnostics⟩
          · rw [ofScanned, hread, hl]
            rfl
          · intro t ht
            rcases List.mem_cons.1 ht with rfl | ht
            · exact hwrite
            · exact htokens t ht
      | stray start c =>
          refine ⟨⟨l.tokens, strayChar path start c :: l.diagnostics⟩, ?_, htokens, ?_⟩
          · rw [ofScanned, hl]
            rfl
          · intro d hd
            rcases List.mem_cons.1 hd with rfl | hd
            · rfl
            · exact hdiagnostics d hd

theorem isNumeric_of_mem_ofText {text : List Char} {i : Scanned} (h : i ∈ Scanned.ofText text) :
    i.IsNumeric := by
  obtain ⟨-, -, -, -, -, hnum⟩ := (Scanned.laid_ofText text).exists_of_mem h
  exact hnum

/-- A source with a number of too many digits is not read. -/
theorem exists_ofSource_eq_error (h : src.IsOverlong) :
    ∃ n, digitLimit < n ∧ ofSource src = .error (.tooManyDigits n) :=
  exists_ofScanned_eq_error (fun _ hi => isNumeric_of_mem_ofText hi) h

/-- Any other source is read, and its tokens and findings can be written. -/
theorem exists_ofSource_eq_ok (h : ¬ src.IsOverlong) :
    ∃ l, ofSource src = .ok l ∧ (∀ t ∈ l.tokens, t.lexeme.isWritable = true) ∧
      ∀ d ∈ l.diagnostics, d.isWritable = true :=
  exists_ofScanned_eq_ok (fun _ hi => isNumeric_of_mem_ofText hi) h

end Lexed

end SchemeFront
