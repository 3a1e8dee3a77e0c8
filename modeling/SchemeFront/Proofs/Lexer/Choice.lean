import SchemeFront.Proofs.Lexer.Pattern
import SchemeFront.Proofs.Lexer.Pieces

set_option autoImplicit false

/-! # The ordered choice takes pieces

The scan tries the alternatives of the lexical grammar one after the other, at each place that it
comes to. It comes to the beginnings of pieces only, and so never into a run of identifier
characters: what is chosen there ends where a piece does (`Scanned.choose?_comment`,
`Scanned.choose?_run`, `Scanned.choose?_real`, `Scanned.choose?_boolean`, `Scanned.choose?_mark`).
So the scan recognises what the pieces of the text are (`Scanned.ofText_eq_ofPieces`).
-/

namespace SchemeFront

open Text

/-! ## The patterns of the grammar -/

namespace Pattern

variable {text run behind : List Char}

@[simp] theorem matches_wordEnd :
    Matches wordEnd text behind ↔ text = [] ∧ startsInWord behind = false := matches_boundary

@[simp] theorem matches_digits : Matches digits text behind ↔ Spelling.isDigits text = true := by
  simp only [digits, matches_seq, matches_one, matches_many, Spelling.isDigits_iff]
  constructor
  · rintro ⟨_, rear, rfl, ⟨c, hc, rfl⟩, hrear⟩
    simpa [hc] using hrear
  · rintro ⟨hne, hall⟩
    obtain ⟨c, cs, rfl⟩ := List.exists_cons_of_ne_nil hne
    exact ⟨[c], cs, rfl, ⟨c, hall c (by simp), rfl⟩, fun d hd => hall d (by simp [hd])⟩

@[simp] theorem matches_signedDigits :
    Matches signedDigits text behind ↔ Spelling.isSignedDigits text = true := by
  simp only [signedDigits, matches_seq, matches_optional, matches_one, matches_digits,
    Spelling.isSignedDigits_iff_exists, Bool.or_eq_true, beq_iff_eq, List.mem_cons,
    List.not_mem_nil, or_false]
  constructor
  · rintro ⟨sign, ds, rfl, rfl | ⟨c, rfl | rfl, rfl⟩, hds⟩
    · exact ⟨[], ds, rfl, .inl rfl, hds⟩
    · exact ⟨['+'], ds, rfl, .inr (.inl rfl), hds⟩
    · exact ⟨['-'], ds, rfl, .inr (.inr rfl), hds⟩
  · rintro ⟨sign, ds, rfl, rfl | rfl | rfl, hds⟩
    · exact ⟨[], ds, rfl, .inl rfl, hds⟩
    · exact ⟨['+'], ds, rfl, .inr ⟨'+', .inl rfl, rfl⟩, hds⟩
    · exact ⟨['-'], ds, rfl, .inr ⟨'-', .inr rfl, rfl⟩, hds⟩

theorem matches_integer : Matches integer text behind ↔
    Spelling.isSignedDigits text = true ∧ startsInWord behind = false := by
  simp only [integer, matches_seq, matches_signedDigits, matches_wordEnd]
  constructor
  · rintro ⟨whole, _, rfl, hwhole, rfl, hbehind⟩
    rw [List.append_nil]
    exact ⟨hwhole, hbehind⟩
  · rintro ⟨htext, hbehind⟩
    exact ⟨text, [], (List.append_nil text).symm, htext, rfl, hbehind⟩

theorem matches_real : Matches real text behind ↔ ∃ whole part, text = whole ++ '.' :: part ∧
    Spelling.isSignedDigits whole = true ∧ Spelling.isDigits part = true ∧
      startsInWord behind = false := by
  simp only [real, matches_seq, matches_signedDigits, matches_one, matches_digits,
    matches_wordEnd, beq_iff_eq]
  constructor
  · rintro ⟨whole, _, rfl, hwhole, _, _, rfl, ⟨_, rfl, rfl⟩, part, _, rfl, hpart, rfl, hbehind⟩
    exact ⟨whole, part, by simp, hwhole, hpart, hbehind⟩
  · rintro ⟨whole, part, rfl, hwhole, hpart, hbehind⟩
    exact ⟨whole, _, rfl, hwhole, ['.'], part, rfl, ⟨'.', rfl, rfl⟩, part, [], by simp, hpart, rfl,
      hbehind⟩

theorem matches_boolean : Matches boolean text behind ↔
    ∃ b, text = (Spelling.boolean b).text ∧ startsInWord behind = false := by
  simp only [boolean, matches_seq, matches_one, matches_wordEnd, Bool.or_eq_true, beq_iff_eq]
  constructor
  · rintro ⟨_, _, rfl, ⟨_, rfl, rfl⟩, _, _, rfl, ⟨_, rfl | rfl, rfl⟩, rfl, hbehind⟩
    · exact ⟨true, rfl, hbehind⟩
    · exact ⟨false, rfl, hbehind⟩
  · rintro ⟨b, rfl, hbehind⟩
    refine ⟨['#'], [if b then 't' else 'f'], rfl, ⟨_, rfl, rfl⟩, [if b then 't' else 'f'], [], rfl,
      ⟨_, ?_, rfl⟩, rfl, hbehind⟩
    cases b
    · exact .inr rfl
    · exact .inl rfl

/-- An integer is a whole run. -/
theorem length?_integer (hrun : ∀ c ∈ run, isIdentifier c = true)
    (hbehind : startsInWord behind = false) : integer.length? (run ++ behind) =
      if Spelling.isSignedDigits run then some run.length else none := by
  have only : ∀ text' behind', run ++ behind = text' ++ behind' →
      Matches integer text' behind' → run = text' := by
    intro text' behind' heq h
    obtain ⟨hdigits, hbehind'⟩ := matches_integer.1 h
    exact (eq_of_append_eq hrun (Spelling.isIdentifier_of_isSignedDigits hdigits) hbehind hbehind'
      heq).1
  split
  · rename_i hdigits
    refine length?_eq_some (matches_integer.2 ⟨hdigits, hbehind⟩) fun text' behind' heq h => ?_
    rw [only text' behind' heq h]
  · rename_i hdigits
    refine length?_eq_none fun text' behind' heq h => hdigits ?_
    rw [only text' behind' heq h]
    exact (matches_integer.1 h).1

/-- A run that takes in no point begins no number with a point. -/
theorem length?_real_eq_none (hrun : ∀ c ∈ run, isIdentifier c = true)
    (hbehind : startsInWord behind = false) (hpoint : ¬ Spelling.TakesPoint run behind) :
    real.length? (run ++ behind) = none := by
  refine length?_eq_none fun text' behind' heq h => hpoint ?_
  obtain ⟨whole, part, rfl, hwhole, hpart, hbehind'⟩ := matches_real.1 h
  rw [List.append_assoc] at heq
  obtain ⟨rfl, rfl⟩ := eq_of_append_eq hrun (Spelling.isIdentifier_of_isSignedDigits hwhole)
    hbehind (by rfl) heq
  exact ⟨hwhole, part, behind', rfl, hpart, hbehind'⟩

/-- A number with a point is matched as a whole. -/
theorem length?_real {whole part : List Char} (hwhole : Spelling.isSignedDigits whole = true)
    (hpart : Spelling.isDigits part = true) (hbehind : startsInWord behind = false) :
    real.length? (whole ++ '.' :: part ++ behind) = some (whole ++ '.' :: part).length := by
  refine length?_eq_some (matches_real.2 ⟨whole, part, rfl, hwhole, hpart, hbehind⟩) ?_
  intro text' behind' heq h
  obtain ⟨whole', part', rfl, hwhole', hpart', hbehind'⟩ := matches_real.1 h
  rw [List.append_assoc, List.append_assoc] at heq
  obtain ⟨rfl, hrest⟩ := eq_of_append_eq (Spelling.isIdentifier_of_isSignedDigits hwhole)
    (Spelling.isIdentifier_of_isSignedDigits hwhole') (by rfl) (by rfl) heq
  obtain ⟨rfl, -⟩ := eq_of_append_eq (Spelling.isIdentifier_of_isDigits hpart)
    (Spelling.isIdentifier_of_isDigits hpart') hbehind hbehind' (List.cons.inj hrest).2
  rfl

theorem length?_boolean (b : Bool) (hbehind : startsInWord behind = false) :
    boolean.length? ((Spelling.boolean b).text ++ behind) = some 2 := by
  refine length?_eq_some (matches_boolean.2 ⟨b, rfl, hbehind⟩) ?_
  intro text' behind' _ h
  obtain ⟨b', rfl, -⟩ := matches_boolean.1 h
  rfl

theorem length?_boolean_eq_none {c : Char} (h : c = '#' → ¬ Spelling.StartsBoolean behind) :
    boolean.length? (c :: behind) = none := by
  refine length?_eq_none fun text' behind' heq hmatch => ?_
  obtain ⟨b, rfl, hbehind⟩ := matches_boolean.1 hmatch
  obtain ⟨rfl, rfl⟩ := List.cons.inj heq
  exact h rfl ⟨[if b then 't' else 'f'], behind', rfl, by cases b <;> rfl, hbehind⟩

/-- An identifier goes as far as the identifier characters do. -/
theorem length?_ident (hne : run ≠ []) (hrun : ∀ c ∈ run, isIdentifier c = true)
    (hbehind : startsInWord behind = false) :
    ident.length? (run ++ behind) = some run.length := by
  obtain ⟨c, cs, rfl⟩ := List.exists_cons_of_ne_nil hne
  have hcs : ∀ d ∈ cs, isIdentifier d = true := fun d hd => hrun d (by simp [hd])
  have hmany : takeMany isIdentifier (fun _ => some 0) (cs ++ behind) = some (cs.length + 0) :=
    takeMany_eq_some hcs hbehind rfl
  rw [length?, ident, take, List.cons_append, take, if_pos (hrun c (by simp)), take, hmany]
  rfl

/-- A comment goes to the end of its line. -/
theorem length?_comment (hbody : '\n' ∉ text) (hbehind : ∀ c ∈ behind.head?, c = '\n') :
    comment.length? (';' :: text ++ behind) = some (';' :: text).length := by
  have hline : ∀ c ∈ text, (c != '\n') = true := by
    intro c hc
    simpa using ne_of_mem_of_not_mem hc hbody
  have hstop : behind.head?.any (· != '\n') = false := by
    rw [Option.any_eq_false]
    intro c hc
    simpa using hbehind c hc
  have hmany : takeMany (· != '\n') (fun _ => some 0) (text ++ behind) = some (text.length + 0) :=
    takeMany_eq_some hline hstop rfl
  rw [length?, comment, take, List.cons_append, take, if_pos (by rfl), take, hmany]
  rfl

/-- What begins with an identifier character is not matched where there is none. -/
theorem length?_eq_none_of_not_isIdentifier {p : Pattern} {c : Char} {cs : List Char}
    (hc : isIdentifier c = false)
    (h : ∀ text behind, Matches p text behind → ∃ d ds, text = d :: ds ∧ isIdentifier d = true) :
    p.length? (c :: cs) = none := by
  refine length?_eq_none fun text behind heq hmatch => ?_
  obtain ⟨d, ds, rfl, hd⟩ := h text behind hmatch
  obtain ⟨rfl, -⟩ := List.cons.inj heq
  rw [hd] at hc
  cases hc

end Pattern

/-! ## The alternatives -/

namespace Choice

variable {before? : Option Char} {run cs behind : List Char} {c : Char}

/-- A bracket or point is matched by itself. -/
theorem match?_mark {k : Keyword} (hk : k ∈ [Keyword.opening, .closing, .point]) :
    (mark k).match? before? (c :: cs) =
      if Spelling.ofMark? c = some k then some (1, some (.keyword k)) else none := by
  have single : ∀ d : Char, (Element.literal [d]).length? before? (c :: cs) =
      if d = c then some 1 else none := by
    intro d
    simp [Element.length?, List.isPrefixOf]
  obtain ⟨d, hd⟩ := Spelling.exists_ofMark?_of_mem hk
  have htext := Spelling.text_of_ofMark? hd
  rw [match?, mark, htext, single]
  by_cases hc : d = c
  · rw [if_pos hc, if_pos (hc ▸ hd)]
    rfl
  · rw [if_neg hc, if_neg]
    · rfl
    · intro hk'
      have heq := htext.symm.trans (Spelling.text_of_ofMark? hk')
      exact hc (List.cons.inj heq).1

theorem match?_pattern_eq_none {p : Pattern} {f : List Char → Option Spelling}
    (h : p.length? cs = none) : (Choice.mk (.pattern p) f).match? before? cs = none := by
  rw [match?, Element.length?, h, Option.map_none]

/-- The alternative of a pattern, where it matches. -/
theorem match?_pattern {p : Pattern} {f : List Char → Option Spelling}
    (h : p.length? (run ++ behind) = some run.length) :
    (Choice.mk (.pattern p) f).match? before? (run ++ behind) =
      some (run.length, f run) := by
  rw [match?, Element.length?, h, Option.map_some, List.take_left]

/-- A reserved word is matched where it is the whole run. -/
theorem match?_word {k : Keyword} (hk : ∀ c ∈ k.text.toList, isIdentifier c = true)
    (hbefore : before?.any isIdentifier = false) (hrun : ∀ c ∈ run, isIdentifier c = true)
    (hbehind : startsInWord behind = false) : (word k).match? before? (run ++ behind) =
      if k.text.toList = run then some (run.length, some (.keyword k)) else none := by
  by_cases heq : k.text.toList = run
  · have hprefix : run.isPrefixOf (run ++ behind) = true := by
      rw [List.isPrefixOf_iff_prefix]
      exact List.prefix_append run behind
    have hend : behind.head?.any isIdentifier = false := hbehind
    rw [if_pos heq, match?, word, heq, Element.length?, hbefore, hprefix, List.drop_left, hend]
    rfl
  · rw [if_neg heq, match?, word, Element.length?, if_neg, Option.map_none]
    -- A word that ends in front of no identifier character is the whole run.
    intro hcond
    simp only [Bool.and_eq_true, Bool.not_eq_true', List.isPrefixOf_iff_prefix] at hcond
    obtain ⟨⟨⟨rest, hrest⟩, -⟩, hend⟩ := hcond
    rw [← hrest, List.drop_left] at hend
    exact heq (eq_of_append_eq hk hrun hend hbehind hrest).1

theorem isIdentifier_of_mem_words {k : Keyword} (hk : k ∈ Keyword.words) :
    ∀ c ∈ k.text.toList, isIdentifier c = true := by
  simp only [Keyword.words, List.mem_cons, List.not_mem_nil, or_false] at hk
  rcases hk with rfl | rfl | rfl | rfl <;> exact List.all_eq_true.1 (by decide)

/-- Of the reserved words, the one that the run spells is matched. -/
theorem findSome?_words (hbefore : before?.any isIdentifier = false)
    (hrun : ∀ c ∈ run, isIdentifier c = true) (hbehind : startsInWord behind = false) :
    (Keyword.words.map word).findSome? (·.match? before? (run ++ behind)) =
      (Keyword.ofWord? run).map fun k => (run.length, some (.keyword k)) := by
  have key : ∀ ks : List Keyword, (∀ k ∈ ks, k ∈ Keyword.words) →
      (ks.map word).findSome? (·.match? before? (run ++ behind)) =
        (ks.find? fun k => k.text.toList == run).map fun k => (run.length, some (.keyword k)) := by
    intro ks hks
    induction ks with
    | nil => rfl
    | cons k ks ih =>
        rw [List.map_cons, List.findSome?_cons, List.find?_cons,
          match?_word (isIdentifier_of_mem_words (hks k (by simp))) hbefore hrun hbehind]
        by_cases heq : k.text.toList = run
        · rw [if_pos heq, beq_iff_eq.2 heq]
          rfl
        · rw [if_neg heq, beq_eq_false_iff_ne.2 heq]
          exact ih fun l hl => hks l (by simp [hl])
  exact key Keyword.words fun _ hk => hk

/-- No reserved word begins with another character. -/
theorem findSome?_words_eq_none (hc : isIdentifier c = false) :
    (Keyword.words.map word).findSome? (·.match? before? (c :: cs)) = none := by
  rw [List.findSome?_eq_none_iff]
  intro a ha
  obtain ⟨k, hk, rfl⟩ := List.mem_map.1 ha
  rw [match?, word, Element.length?, if_neg, Option.map_none]
  intro hcond
  simp only [Bool.and_eq_true, List.isPrefixOf_iff_prefix] at hcond
  obtain ⟨⟨⟨rest, hrest⟩, -⟩, -⟩ := hcond
  cases htext : k.text.toList with
  | nil => cases k <;> cases htext
  | cons d ds =>
      rw [htext] at hrest
      obtain ⟨rfl, -⟩ := List.cons.inj hrest
      rw [isIdentifier_of_mem_words hk d (by simp [htext])] at hc
      cases hc

/-- A comment begins with a semicolon. -/
theorem match?_comment_eq_none (hc : c ≠ ';') : comment.match? before? (c :: cs) = none := by
  refine match?_pattern_eq_none (Pattern.length?_eq_none fun text behind heq h => ?_)
  simp only [Pattern.comment, Pattern.matches_seq, Pattern.matches_one, beq_iff_eq] at h
  obtain ⟨_, rest, rfl, ⟨_, rfl, rfl⟩, -⟩ := h
  exact hc (List.cons.inj heq).1

end Choice

/-! ## What is chosen at a piece -/

namespace Scanned

open Choice

variable {before? : Option Char} {run body cs behind : List Char} {c : Char}

/-- An identifier character begins a word or a number. -/
theorem choose?_of_isIdentifier (hc : isIdentifier c = true) : choose? before? (c :: cs) =
    ((Keyword.words.map word).findSome? (·.match? before? (c :: cs))).or
      ((real.match? before? (c :: cs)).or
        ((integer.match? before? (c :: cs)).or (ident.match? before? (c :: cs)))) := by
  have hne : ∀ d : Char, isIdentifier d = false → c ≠ d := by
    rintro d hd rfl
    rw [hc] at hd
    cases hd
  have hcomment : comment.match? before? (c :: cs) = none :=
    match?_comment_eq_none (hne ';' (by decide))
  have hmark : ∀ k ∈ [Keyword.opening, .closing, .point],
      (mark k).match? before? (c :: cs) = none := by
    intro k hk
    rw [match?_mark hk, if_neg]
    intro h
    rw [(Spelling.classes_of_ofMark? h).1] at hc
    cases hc
  have hboolean : boolean.match? before? (c :: cs) = none :=
    match?_pattern_eq_none
      (Pattern.length?_boolean_eq_none fun h => absurd h (hne '#' (by decide)))
  simp only [choose?, all, List.findSome?_append, List.findSome?_cons, List.findSome?_nil,
    hcomment, hmark .opening (by simp), hmark .closing (by simp), hmark .point (by simp),
    hboolean, Option.none_or]
  cases real.match? before? (c :: cs) with
  | some r => rfl
  | none => cases integer.match? before? (c :: cs) <;> cases ident.match? before? (c :: cs) <;> rfl

/-- A comment is passed as a whole. -/
theorem choose?_comment (hbody : '\n' ∉ body) (hbehind : ∀ c ∈ behind.head?, c = '\n') :
    choose? before? (';' :: body ++ behind) = some ((';' :: body).length, none) := by
  have hmatch : comment.match? before? (';' :: body ++ behind) = _ :=
    match?_pattern (Pattern.length?_comment hbody hbehind)
  simp only [choose?, all, List.findSome?_append, List.findSome?_cons, hmatch, Option.some_or]

/-- A run that takes in no point is chosen as a whole. -/
theorem choose?_run (hbefore : before?.any isIdentifier = false) (hne : run ≠ [])
    (hrun : ∀ c ∈ run, isIdentifier c = true) (hbehind : startsInWord behind = false)
    (hpoint : ¬ Spelling.TakesPoint run behind) :
    choose? before? (run ++ behind) = some (run.length, some (.ofRun run)) := by
  have hwords := findSome?_words hbefore hrun hbehind
  have hreal : real.match? before? (run ++ behind) = none :=
    match?_pattern_eq_none (Pattern.length?_real_eq_none hrun hbehind hpoint)
  have hident : ident.match? before? (run ++ behind) = some (run.length, some (.ident run)) :=
    match?_pattern (Pattern.length?_ident hne hrun hbehind)
  have hinteger : integer.match? before? (run ++ behind) =
      if Spelling.isSignedDigits run then some (run.length, some (.integer run)) else none := by
    have hlength := Pattern.length?_integer hrun hbehind
    by_cases hdigits : Spelling.isSignedDigits run = true
    · rw [if_pos hdigits] at hlength ⊢
      exact match?_pattern hlength
    · rw [if_neg hdigits] at hlength ⊢
      exact match?_pattern_eq_none hlength
  obtain ⟨c, cs, rfl⟩ := List.exists_cons_of_ne_nil hne
  rw [List.cons_append, choose?_of_isIdentifier (hrun c (by simp)), ← List.cons_append, hwords,
    hreal, hinteger, hident, Spelling.ofRun]
  cases Keyword.ofWord? (c :: cs) with
  | some k => rfl
  | none => by_cases hdigits : Spelling.isSignedDigits (c :: cs) = true <;> simp [hdigits]

/-- Digits, a point and digits are chosen as a whole. -/
theorem choose?_real {whole part : List Char} (hbefore : before?.any isIdentifier = false)
    (hwhole : Spelling.isSignedDigits whole = true) (hpart : Spelling.isDigits part = true)
    (hbehind : startsInWord behind = false) :
    choose? before? (whole ++ '.' :: part ++ behind) =
      some ((whole ++ '.' :: part).length, some (.real whole part)) := by
  have hrun := Spelling.isIdentifier_of_isSignedDigits hwhole
  have hsplit : Spelling.ofReal (whole ++ '.' :: part) = .real whole part := by
    have hpoint : ∀ c ∈ whole, (c != '.') = true := by
      intro c hc
      rw [bne_iff_ne]
      rintro rfl
      cases hrun '.' hc
    rw [Spelling.ofReal, List.takeWhile_append_of_pos hpoint, List.dropWhile_append_of_pos hpoint]
    simp
  have hreal : real.match? before? (whole ++ '.' :: part ++ behind) = _ :=
    match?_pattern (Pattern.length?_real hwhole hpart hbehind)
  have hpoint : startsInWord ('.' :: (part ++ behind)) = false := rfl
  have hwords := findSome?_words hbefore hrun hpoint
  rw [Spelling.ofWord?_of_isSignedDigits hwhole, Option.map_none] at hwords
  have hne : whole ≠ [] := by
    rintro rfl
    cases hwhole
  obtain ⟨c, cs, rfl⟩ := List.exists_cons_of_ne_nil hne
  rw [List.append_assoc, List.cons_append, List.cons_append,
    choose?_of_isIdentifier (hrun c (by simp)), ← List.cons_append, hwords, ← List.cons_append,
    ← List.append_assoc, hreal, hsplit]
  rfl

/-- What another character than an identifier character begins. -/
theorem choose?_of_not_isIdentifier (hc : isIdentifier c = false) (hsemi : c ≠ ';') :
    choose? before? (c :: cs) = ((mark .opening).match? before? (c :: cs)).or
      (((mark .closing).match? before? (c :: cs)).or
        ((boolean.match? before? (c :: cs)).or ((mark .point).match? before? (c :: cs)))) := by
  have hnumber : ∀ {text : List Char}, Spelling.isSignedDigits text = true →
      ∃ d ds, text = d :: ds ∧ isIdentifier d = true := by
    intro text h
    have hne : text ≠ [] := by
      rintro rfl
      cases h
    obtain ⟨d, ds, rfl⟩ := List.exists_cons_of_ne_nil hne
    exact ⟨d, ds, rfl, Spelling.isIdentifier_of_isSignedDigits h d (by simp)⟩
  have hreal : real.match? before? (c :: cs) = none := by
    refine match?_pattern_eq_none (Pattern.length?_eq_none_of_not_isIdentifier hc ?_)
    intro text behind h
    obtain ⟨whole, part, rfl, hwhole, -⟩ := Pattern.matches_real.1 h
    obtain ⟨d, ds, rfl, hd⟩ := hnumber hwhole
    exact ⟨d, _, rfl, hd⟩
  have hinteger : integer.match? before? (c :: cs) = none := by
    refine match?_pattern_eq_none (Pattern.length?_eq_none_of_not_isIdentifier hc ?_)
    exact fun text behind h => hnumber (Pattern.matches_integer.1 h).1
  have hident : ident.match? before? (c :: cs) = none := by
    refine match?_pattern_eq_none (Pattern.length?_eq_none_of_not_isIdentifier hc ?_)
    intro text behind h
    simp only [Pattern.ident, Pattern.matches_seq, Pattern.matches_one] at h
    obtain ⟨_, rest, rfl, ⟨d, hd, rfl⟩, -⟩ := h
    exact ⟨d, rest, rfl, hd⟩
  simp only [choose?, all, List.findSome?_append, List.findSome?_cons, List.findSome?_nil,
    match?_comment_eq_none hsemi, findSome?_words_eq_none hc, hreal, hinteger, hident,
    Option.or_none]
  cases (mark .opening).match? before? (c :: cs) with
  | some r => rfl
  | none =>
      cases (mark .closing).match? before? (c :: cs) with
      | some r => rfl
      | none =>
          cases boolean.match? before? (c :: cs) <;>
            cases (mark .point).match? before? (c :: cs) <;> rfl

/-- A number sign and its letter are chosen as a boolean. -/
theorem choose?_boolean (b : Bool) (hbehind : startsInWord behind = false) :
    choose? before? ((Spelling.boolean b).text ++ behind) =
      some ((Spelling.boolean b).text.length, some (.boolean b)) := by
  have hboolean : boolean.match? before? ((Spelling.boolean b).text ++ behind) = _ :=
    match?_pattern (Pattern.length?_boolean b hbehind)
  have hletter : ((Spelling.boolean b).text == ['#', 't']) = b := by cases b <;> rfl
  rw [hletter] at hboolean
  have hstart : ∀ cs, choose? before? ('#' :: cs) = _ := fun cs =>
    choose?_of_not_isIdentifier (by decide) (by decide)
  rw [Spelling.text, List.cons_append] at hboolean ⊢
  rw [hstart, hboolean, match?_mark (by simp), match?_mark (by simp)]
  rfl

/-- Any other character is chosen if it is a bracket or a point. -/
theorem choose?_mark (hc : isIdentifier c = false) (hsemi : c ≠ ';')
    (hsign : c = '#' → ¬ Spelling.StartsBoolean behind) : choose? before? (c :: behind) =
      (Spelling.ofMark? c).map fun k => (1, some (.keyword k)) := by
  have hboolean : boolean.match? before? (c :: behind) = none :=
    match?_pattern_eq_none (Pattern.length?_boolean_eq_none hsign)
  rw [choose?_of_not_isIdentifier hc hsemi, hboolean, match?_mark (by simp), match?_mark (by simp),
    match?_mark (by simp)]
  cases hk : Spelling.ofMark? c with
  | none => rfl
  | some k =>
      have hmem := Spelling.mem_marks_of_ofMark? hk
      simp only [List.mem_cons, List.not_mem_nil, or_false] at hmem
      rcases hmem with rfl | rfl | rfl <;> rfl

/-! ## The scan of pieces -/

/-- What belongs to a match already is passed. -/
theorem scan_taken (before? : Option Char) (start : Nat) (word rest : List Char) :
    scan before? start word.length (word ++ rest) =
      scan (word.getLast?.or before?) (start + word.length) 0 rest := by
  induction word generalizing before? start with
  | nil => rfl
  | cons c cs ih =>
      rw [List.cons_append, List.length_cons, scan, ih, Nat.add_right_comm, Nat.add_assoc,
        List.getLast?_cons]
      cases cs.getLast? <;> rfl

/-- A match is passed as a whole. -/
theorem scan_of_choose? {start : Nat} {word rest : List Char} {spelling? : Option Spelling}
    (hne : word ≠ []) (h : choose? before? (word ++ rest) = some (word.length, spelling?)) :
    scan before? start 0 (word ++ rest) = (spelling?.map (token start)).toList ++
      scan word.getLast? (start + word.length) 0 rest := by
  obtain ⟨c, cs, rfl⟩ := List.exists_cons_of_ne_nil hne
  rw [List.cons_append] at h
  rw [List.cons_append, scan, h, List.length_cons]
  dsimp only
  rw [scan_taken, List.getLast?_cons, Nat.add_right_comm, Nat.add_assoc]
  cases cs.getLast? <;> rfl

/-- A bracket or a point is a token, and any other mark stands for itself. -/
theorem scan_mark {start : Nat} (hc : isIdentifier c = false) (hsemi : c ≠ ';')
    (hsign : c = '#' → ¬ Spelling.StartsBoolean behind) : scan before? start 0 (c :: behind) =
      consMark start c (scan (some c) (start + 1) 0 behind) := by
  rw [scan, choose?_mark hc hsemi hsign, consMark]
  cases Spelling.ofMark? c with
  | some k => rfl
  | none =>
      dsimp only [Option.map_none, gap]
      split <;> rfl

/-- **The ordered choice takes pieces as a whole.** Where the scan begins with a piece and not
inside of a run, it recognises what the pieces are. -/
theorem scan_eq_ofPieces {start : Nat} {ps : List Piece} (h : Piece.Proper ps)
    (hbefore : ∀ run qs, ps = .run run :: qs → before?.any isIdentifier = false) :
    scan before? start 0 (ps.flatMap Piece.text) = ofPieces start ps := by
  fun_induction ofPieces start ps generalizing before? with
  | case1 start => rfl
  | case2 start text ps ih =>
      obtain ⟨⟨body, rfl, hbody⟩, hmeets, hps⟩ := h
      have hchoose : choose? before? (';' :: body ++ ps.flatMap Piece.text) = _ :=
        choose?_comment hbody (Piece.Proper.head?_flatMap ⟨⟨body, rfl, hbody⟩, hmeets, hps⟩)
      rw [List.flatMap_cons, Piece.text, scan_of_choose? (by simp) hchoose]
      refine ih hps fun run qs heq => ?_
      rcases hmeets with rfl | ⟨qs', rfl⟩ <;> cases heq
  | case3 start whole part ps hdigits ih =>
      rw [Bool.and_eq_true] at hdigits
      have hpart := h.2.2.2.2
      have hchoose := choose?_real (hbefore _ _ rfl) hdigits.1 hdigits.2 hpart.startsInWord_eq_false
      have htext : ((Piece.run whole :: .mark '.' :: .run part :: ps).flatMap Piece.text) =
          whole ++ '.' :: part ++ ps.flatMap Piece.text := by
        simp [Piece.text]
      rw [htext, scan_of_choose? (by simp) hchoose, List.length_append, List.length_cons,
        ih hpart.2.2 fun run qs heq => absurd heq (hpart.2.1 run qs)]
      rfl
  | case4 start whole part ps hdigits ih =>
      have hchoose := choose?_run (hbefore _ _ rfl) h.1.1 h.1.2 h.startsInWord_eq_false
        (Spelling.not_takesPoint_of_run h.2.2.2.2 hdigits)
      rw [List.flatMap_cons, Piece.text, scan_of_choose? h.1.1 hchoose,
        ih h.2.2 fun run qs heq => absurd heq (h.2.1 run qs)]
      rfl
  | case5 start run ps hshape ih =>
      have hchoose := choose?_run (hbefore _ _ rfl) h.1.1 h.1.2 h.startsInWord_eq_false
        (Spelling.not_takesPoint_of_shape h.2.2 hshape)
      rw [List.flatMap_cons, Piece.text, scan_of_choose? h.1.1 hchoose,
        ih h.2.2 fun run qs heq => absurd heq (h.2.1 run qs)]
      rfl
  | case6 start run ps b hb ih =>
      have hrun := h.2.2
      have hchoose : choose? before? ((Spelling.boolean b).text ++ ps.flatMap Piece.text) = _ :=
        choose?_boolean b hrun.startsInWord_eq_false
      have htext : ((Piece.mark '#' :: .run run :: ps).flatMap Piece.text) =
          (Spelling.boolean b).text ++ ps.flatMap Piece.text := by
        simp [Spelling.text_boolean hb, Piece.text]
      rw [htext, scan_of_choose? (by simp [Spelling.text]) hchoose]
      exact congrArg (token start (.boolean b) :: ·)
        (ih hrun.2.2 fun run qs heq => absurd heq (hrun.2.1 run qs))
  | case7 start run ps hb ih =>
      rw [List.flatMap_cons, Piece.text, List.singleton_append,
        scan_mark h.1.1 h.1.2 fun _ => Spelling.not_startsBoolean_of_run h.2.2 hb]
      exact congrArg (consMark start '#') (ih h.2.2 fun _ _ _ => h.1.1)
  | case8 start c ps hshape ih =>
      have hsign : c = '#' → ¬ Spelling.StartsBoolean (ps.flatMap Piece.text) := fun hc =>
        Spelling.not_startsBoolean_of_shape h.2.2 fun run qs heq => hshape run qs heq hc
      rw [List.flatMap_cons, Piece.text, List.singleton_append, scan_mark h.1.1 h.1.2 hsign]
      exact congrArg (consMark start c) (ih h.2.2 fun _ _ _ => h.1.1)

/-- The scan of a text recognises what its pieces are. -/
theorem ofText_eq_ofPieces (text : List Char) :
    ofText text = ofPieces 0 (Piece.pieces false text) := by
  have h : scan none 0 0 ((Piece.pieces false text).flatMap Piece.text) = _ :=
    scan_eq_ofPieces (Piece.proper_pieces text) fun _ _ _ => rfl
  rwa [Piece.flatMap_text_pieces] at h

end Scanned

end SchemeFront
