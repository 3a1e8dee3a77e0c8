import SchemeFront.Diagnostic.Layout
import SchemeFront.Proofs.Text.Lines

set_option autoImplicit false

/-! # Places and what is underlined there

An offset is cut into the lines that are ended before it and the characters in front of it on its
own line (`Source.exists_around`), and these are its line and column. So a location says exactly
which offset it is of (`Location.IsOf`), and locations are in the order of their offsets. The carets
of a label begin below the first character of its span, and there are as many as there are
characters of the span on that line. All this is `Source.places_underlined`.
-/

namespace SchemeFront

/-! ## Locations -/

/-- The place is that of an offset of the text, and `line` is the line in which it lies: the lines
before it, each with its newline, and the characters in front of it make up the offset. -/
structure Location.IsOf (place : Location) (text : List Char) (offset : Nat) (line : List Char) :
    Prop where
  line_pos : 1 ≤ place.line
  line_le : place.line ≤ (Source.lines text).length
  getElem_eq : (Source.lines text)[place.line - 1]? = some line
  column_pos : 1 ≤ place.column
  column_le : place.column ≤ line.length + 1
  offset_eq : (((Source.lines text).take (place.line - 1)).map fun l => l.length + 1).sum
    + (place.column - 1) = offset

/-- The place comes first in the text: on an earlier line, or on the same line further left. -/
def Location.Precedes (p q : Location) : Prop :=
  p.line < q.line ∨ p.line = q.line ∧ p.column < q.column

namespace Source

variable {above : List (List Char)} {last after : List Char} {src : Source} {offset : Int}

theorem count_ended (h : ∀ l ∈ above, '\n' ∉ l) : (Text.ended above).count '\n' = above.length := by
  have hnone : '\n' ∉ above.flatten := by
    intro hmem
    obtain ⟨l, hl, hc⟩ := List.mem_flatten.1 hmem
    exact h l hl hc
  rw [Text.count_ended, List.count_eq_zero_of_not_mem hnone, Nat.add_zero]

/-- Behind lines that are ended, the line is the next one, and the column is behind what is on
it. -/
theorem locationAfter_ended_append (habove : ∀ l ∈ above, '\n' ∉ l) (hlast : '\n' ∉ last) :
    locationAfter (Text.ended above ++ last) = ⟨above.length + 1, last.length + 1⟩ := by
  have hcount : (Text.ended above ++ last).count '\n' = above.length := by
    rw [List.count_append, count_ended habove, List.count_eq_zero_of_not_mem hlast, Nat.add_zero]
  have hline : ∀ c ∈ last.reverse, (c != '\n') = true := by
    intro c hc
    simpa using fun h : c = '\n' => hlast (h ▸ List.mem_reverse.1 hc)
  -- What is in front of the line ends with a newline, if there is anything.
  have hfront : (Text.ended above).reverse.takeWhile (· != '\n') = [] := by
    rcases List.eq_nil_or_concat above with rfl | ⟨above, l, rfl⟩
    · rfl
    · simp [Text.ended]
  have hcolumn : (Text.ended above ++ last).reverse.takeWhile (· != '\n') = last.reverse := by
    rw [List.reverse_append, List.takeWhile_append_of_pos hline, hfront, List.append_nil]
  rw [locationAfter, hcount, hcolumn, List.length_reverse]

/-- A text around an offset: the lines that are ended before it, the characters in front of it on
its line, and all that follows. -/
theorem exists_around (h0 : 0 ≤ offset) (h1 : offset ≤ src.text.length) :
    ∃ above last after, src.text = Text.ended above ++ last ++ after ∧
      (∀ l ∈ above, '\n' ∉ l) ∧ '\n' ∉ last ∧
      offset = (Text.ended above ++ last).length ∧
      src.location offset = ⟨above.length + 1, last.length + 1⟩ ∧
      lines src.text = above ++ lines (last ++ after) := by
  obtain ⟨above, last, htake, habove, hlast⟩ := exists_eq_ended_append (src.text.take offset.toNat)
  have htext : src.text = Text.ended above ++ last ++ src.text.drop offset.toNat := by
    rw [← htake, List.take_append_drop]
  refine ⟨above, last, src.text.drop offset.toNat, htext, habove, hlast, ?_, ?_, ?_⟩
  · rw [← htake, List.length_take]
    omega
  · rw [location, htake, locationAfter_ended_append habove hlast]
  · have hlines := lines_ended_append habove (last ++ src.text.drop offset.toNat)
    rwa [← List.append_assoc, ← htext] at hlines

/-- The line in which an offset lies goes on up to the next newline. -/
theorem exists_lines_around (hlast : '\n' ∉ last) (after : List Char) :
    ∃ below, lines (last ++ after) = (last ++ after.takeWhile (· != '\n')) :: below := by
  obtain ⟨below, hlines⟩ := exists_lines_eq_cons (last ++ after)
  have hline : ∀ c ∈ last, (c != '\n') = true := by
    intro c hc
    simpa using fun h : c = '\n' => hlast (h ▸ hc)
  rw [List.takeWhile_append_of_pos hline] at hlines
  exact ⟨below, hlines⟩

/-- Each offset of a text has a place that says which offset it is. -/
theorem exists_isOf (h0 : 0 ≤ offset) (h1 : offset ≤ src.text.length) :
    ∃ line, (src.location offset).IsOf src.text offset.toNat line := by
  obtain ⟨above, last, after, -, -, hlast, hoffset, hplace, hlines⟩ := exists_around h0 h1
  obtain ⟨below, hbelow⟩ := exists_lines_around hlast after
  rw [hbelow] at hlines
  refine ⟨last ++ after.takeWhile (· != '\n'), ?_⟩
  rw [hplace]
  constructor
  · exact Nat.le_add_left _ _
  · simp [hlines]
  · simp [hlines]
  · exact Nat.le_add_left _ _
  · simp
  · rw [hoffset, Int.toNat_natCast, List.length_append, Text.length_ended]
    simp [hlines]

end Source

namespace Location.IsOf

variable {text line line' : List Char} {p q : Location} {i j : Nat}

/-- The lines before a place are among those before a place on a later line, and so is its own. -/
theorem sum_lt (hp : p.IsOf text i line) (h : p.line < q.line) :
    (((Source.lines text).take (p.line - 1)).map fun l => l.length + 1).sum + line.length
      < (((Source.lines text).take (q.line - 1)).map fun l => l.length + 1).sum := by
  have hpos := hp.line_pos
  have hsplit := List.take_append_drop p.line ((Source.lines text).take (q.line - 1))
  have htake :
      (Source.lines text).take p.line = (Source.lines text).take (p.line - 1) ++ [line] := by
    rw [show p.line = p.line - 1 + 1 by omega, List.take_add_one, Nat.add_sub_cancel, hp.getElem_eq]
    rfl
  rw [List.take_take, Nat.min_eq_left (by omega), htake] at hsplit
  rw [← hsplit, List.map_append, List.map_append, List.sum_append, List.sum_append]
  simp only [List.map_cons, List.map_nil, List.sum_cons, List.sum_nil]
  omega

/-- Places are in the order of their offsets. -/
theorem precedes (hp : p.IsOf text i line) (hq : q.IsOf text j line') (h : i < j) :
    p.Precedes q := by
  have hi := hp.offset_eq
  have hj := hq.offset_eq
  rcases Nat.lt_trichotomy p.line q.line with hlt | heq | hgt
  · exact .inl hlt
  · rw [heq] at hi
    exact .inr ⟨heq, by omega⟩
  · -- A place on an earlier line has a smaller offset, as its column is on the line.
    have hlines := hq.sum_lt hgt
    have hcolumn := hq.column_le
    omega

end Location.IsOf

/-! ## Underlining -/

namespace Diagnostic.Label

/-- Without colour, the label is shown by two lines: the line of the source in which its span
begins, behind a gutter, and below it a row of carets and the message. The carets begin below the
first character of the span, and `marked`, what the span has of that line, stands above them; there
is one caret at least. -/
structure Underlines (label : Label) (src : Source) (line marked : List Char) : Prop where
  isOf : (src.location label.span.start).IsOf src.text label.span.start.toNat line
  marked_eq : marked = (src.excerpt label.span).takeWhile (· != '\n')
  take_eq : (line.drop ((src.location label.span.start).column - 1)).take marked.length = marked
  layout_eq : ∃ margin below : String,
    label.layout src false = [margin ++ String.ofList line,
      below ++ String.ofList (List.replicate (max 1 marked.length) '^') ++ " " ++ label.message] ∧
    margin = gutter (src.location label.span.start).line ∧ '^' ∉ below.toList ∧
    below.length = margin.length + ((src.location label.span.start).column - 1)

variable {label : Label} {src : Source}

theorem length_gutter (number : Nat) :
    (gutter number).length = max 4 (Nat.toDigits 10 number).length + 3 := by
  have hbar : " | ".length = 3 := rfl
  rw [gutter, String.length_append, hbar, String.length_ofList, List.length_leftpad]

theorem length_below {margin : String} (h : 2 ≤ margin.length) (column : Nat) :
    (Text.blanks (margin.length - 2) ++ "| " ++ Text.blanks column).length
      = margin.length + column := by
  have hbar : "| ".length = 2 := rfl
  simp only [String.length_append, Text.blanks, String.length_ofList, List.length_replicate, hbar]
  omega

/-- The characters of a span whose start is in the text are those that follow the start. -/
theorem excerpt_eq {before after : List Char} (htext : src.text = before ++ after)
    (hstart : label.span.start = before.length) :
    src.excerpt label.span = after.take (label.span.stop - label.span.start).toNat := by
  have hle := label.span.start_le_stop
  have hfirst : Source.clampIndex src.text.length label.span.start = before.length := by
    rw [Source.clampIndex, if_neg (by omega), htext, List.length_append]
    omega
  have hlast : Source.clampIndex src.text.length label.span.stop
      = min label.span.stop.toNat (before.length + after.length) := by
    rw [Source.clampIndex, if_neg (by omega), htext, List.length_append]
  rw [Source.excerpt, Source.slice, hfirst, hlast, htext, List.drop_left]
  -- Beyond the end of the text there is nothing to take.
  rcases Nat.le_total label.span.stop.toNat (before.length + after.length) with h | h
  · rw [Nat.min_eq_left h]
    congr 1
    omega
  · rw [Nat.min_eq_right h, List.take_of_length_le (by omega), List.take_of_length_le (by omega)]

/-- A label whose span begins in the text underlines what the span has of its first line. -/
theorem exists_underlines (h0 : 0 ≤ label.span.start) (h1 : label.span.start ≤ src.text.length) :
    ∃ line marked, label.Underlines src line marked := by
  obtain ⟨above, last, after, htext, -, hlast, hoffset, hplace, hlines⟩ :=
    Source.exists_around h0 h1
  obtain ⟨below, hbelow⟩ := Source.exists_lines_around hlast after
  obtain ⟨line, hline⟩ := Source.exists_isOf h0 h1
  have hget := hline.getElem_eq
  obtain rfl : last ++ after.takeWhile (· != '\n') = line := by
    rw [hlines, hbelow, hplace] at hget
    simpa using hget
  have hmarked : (src.excerpt label.span).takeWhile (· != '\n')
      = (after.takeWhile (· != '\n')).take (label.span.stop - label.span.start).toNat := by
    rw [excerpt_eq htext hoffset, List.take_takeWhile]
  have hwidth : underlineWidth (last ++ after.takeWhile (· != '\n')) (last.length + 1) label.span
      = max 1 ((src.excerpt label.span).takeWhile (· != '\n')).length := by
    have hle := label.span.start_le_stop
    simp only [underlineWidth, hmarked, List.length_append, List.length_take]
    omega
  refine ⟨_, _, hline, rfl, ?_, gutter (above.length + 1), _, ?_, by rw [hplace], ?_,
    length_below ?_ _⟩
  · rw [hplace, Nat.add_sub_cancel, List.drop_left, hmarked, List.length_take,
      List.take_eq_take_iff]
    omega
  · have hnumber : src.line (above.length + 1) = last ++ after.takeWhile (· != '\n') := by
      rw [hplace] at hget
      rw [Source.line, List.getD_eq_getElem?_getD, hget]
      rfl
    simp only [layout, hplace, hnumber, hwidth, styled, Bool.false_eq_true, if_false]
  · simp [Text.blanks]
  · rw [length_gutter]
    omega

end Diagnostic.Label

/-- **Places are exact, and labels underline what they are about.** Each offset of a text is on the
line and in the column that its location says, and locations are in the order of their offsets. A
label whose span begins in the text shows the line of its first character, with a caret below each
character of the span on that line, or one caret if there is none, however wide the gutter is. -/
theorem Source.places_underlined (src : Source) :
    (∀ offset : Int, 0 ≤ offset → offset ≤ src.text.length →
      ∃ line, (src.location offset).IsOf src.text offset.toNat line) ∧
    (∀ i j : Int, 0 ≤ i → i < j → j ≤ src.text.length →
      (src.location i).Precedes (src.location j)) ∧
    ∀ label : Diagnostic.Label, 0 ≤ label.span.start → label.span.start ≤ src.text.length →
      ∃ line marked, label.Underlines src line marked := by
  refine ⟨fun offset => exists_isOf, ?_, fun label => Diagnostic.Label.exists_underlines⟩
  intro i j hi hlt hj
  have hplaced : ∀ offset : Int, 0 ≤ offset → offset ≤ src.text.length →
      ∃ line, (src.location offset).IsOf src.text offset.toNat line := fun offset => exists_isOf
  obtain ⟨line, hfirst⟩ := hplaced i hi (by omega)
  obtain ⟨line', hsecond⟩ := hplaced j (by omega) hj
  exact hfirst.precedes hsecond (by omega)

/-- A bracket on the second line that is never closed, with a span that goes on over the end of the
line and of the text. -/
theorem Source.places_underlined_bracket :
    (∃ line, ((Source.mk "a.scm" "x\n (y\n\nz".toList).location 3).IsOf
      "x\n (y\n\nz".toList 3 line) ∧
    ((Source.mk "a.scm" "x\n (y\n\nz".toList).location 5).Precedes
      ((Source.mk "a.scm" "x\n (y\n\nz".toList).location 6) ∧
    ∃ line marked, Diagnostic.Label.Underlines ⟨⟨"a.scm", 3, 99, by decide⟩, "here", .red⟩
      ⟨"a.scm", "x\n (y\n\nz".toList⟩ line marked :=
  have h := Source.places_underlined ⟨"a.scm", "x\n (y\n\nz".toList⟩
  ⟨h.1 3 (by decide) (by decide), h.2.1 5 6 (by decide) (by decide) (by decide),
    h.2.2 ⟨⟨"a.scm", 3, 99, by decide⟩, "here", .red⟩ (by decide) (by decide)⟩

example : Diagnostic.Label.layout ⟨⟨"a.scm", 3, 99, by decide⟩, "here", .red⟩
    ⟨"a.scm", "x\n (y\n\nz".toList⟩ = ["   2 |  (y", "     |  ^^ here"] := by
  decide +kernel

end SchemeFront
