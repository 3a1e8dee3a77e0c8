import Mathlib.Data.List.Forall2
import SchemeFront.Proofs.Text.Lines
import SchemeFront.Report

set_option autoImplicit false

/-! # Colour is presentation only

Colour puts sequences that switch styles around parts of a report. `Text.unstyled` deletes these
sequences. A coloured text goes with the plain one (`Text.Colours`) if this gives the plain text,
whatever follows, and texts that go together can be put one behind the other. Each part of the
layout keeps them together, up to whole reports (`Report.colour_is_presentation`).
-/

namespace SchemeFront

/-! ## Texts without styles -/

namespace Text

/-- The character with which a sequence begins. -/
def escape : Char := '\x1b'

/-- The sequences that switch styles on and off. -/
def styleCodes : List (List Char) :=
  [Colour.red.code.toList, Colour.yellow.code.toList, boldCode.toList, resetCode.toList]

/-- The text without such sequences, once the next `skip` characters are passed over. -/
def unstyledFrom : (skip : Nat) → List Char → List Char
  | _, [] => []
  | skip + 1, _ :: cs => unstyledFrom skip cs
  | 0, c :: cs =>
      match styleCodes.find? fun code => code.isPrefixOf (c :: cs) with
      | some code => unstyledFrom (code.length - 1) cs
      | none => c :: unstyledFrom 0 cs

/-- The text without the sequences that switch styles. -/
def unstyled (text : String) : String := String.ofList (unstyledFrom 0 text.toList)

/-- The text has no escape character in it. -/
def IsPlain (text : String) : Prop := escape ∉ text.toList

instance (text : String) : Decidable (IsPlain text) :=
  inferInstanceAs (Decidable (escape ∉ text.toList))

theorem unstyledFrom_cons_of_ne {c : Char} (h : c ≠ escape) (cs : List Char) :
    unstyledFrom 0 (c :: cs) = c :: unstyledFrom 0 cs := by
  -- All sequences begin with the escape character.
  have hnone : (styleCodes.find? fun code => code.isPrefixOf (c :: cs)) = none := by
    have hne : '\x1b' ≠ c := Ne.symm h
    rw [List.find?_eq_none]
    intro code hcode
    simp only [styleCodes, List.mem_cons, List.not_mem_nil, or_false] at hcode
    rcases hcode with rfl | rfl | rfl | rfl
    all_goals simp [Colour.code, boldCode, resetCode, hne]
  rw [unstyledFrom, hnone]

/-- Plain text stays. -/
theorem unstyledFrom_append {cs : List Char} (h : escape ∉ cs) (rest : List Char) :
    unstyledFrom 0 (cs ++ rest) = cs ++ unstyledFrom 0 rest := by
  induction cs with
  | nil => rfl
  | cons c cs ih =>
      rw [List.mem_cons, not_or] at h
      rw [List.cons_append, unstyledFrom_cons_of_ne (Ne.symm h.1), ih h.2, List.cons_append]

/-- A text that consists of sequences only, so that nothing is left of it. -/
def IsStyling (code : String) : Prop :=
  ∀ rest, unstyledFrom 0 (code.toList ++ rest) = unstyledFrom 0 rest

theorem isStyling_colour (colour : Colour) : IsStyling colour.code := by
  intro rest
  cases colour <;> rfl

theorem isStyling_bold : IsStyling boldCode := fun _ => rfl

theorem isStyling_reset : IsStyling resetCode := fun _ => rfl

theorem IsStyling.append {code code' : String} (h : IsStyling code) (h' : IsStyling code') :
    IsStyling (code ++ code') := by
  intro rest
  rw [String.toList_append, List.append_assoc, h, h']

/-! ## Texts with and without colour -/

/-- The text `coloured` is `plain` with sequences that switch styles, whatever follows. -/
structure Colours (coloured plain : String) : Prop where
  unstyled_eq : ∀ rest,
    unstyledFrom 0 (coloured.toList ++ rest) = plain.toList ++ unstyledFrom 0 rest
  isPlain : IsPlain plain

variable {s t s' t' : String}

theorem isPlain_append : IsPlain (s ++ t) ↔ IsPlain s ∧ IsPlain t := by
  simp [IsPlain, not_or]

theorem isPlain_ofList {cs : List Char} : IsPlain (String.ofList cs) ↔ escape ∉ cs := by
  rw [IsPlain, String.toList_ofList]

theorem escape_not_mem_toDigits (n : Nat) : escape ∉ Nat.toDigits 10 n := by
  intro h
  cases Nat.isDigit_of_mem_toDigits (by decide) (by decide) h

theorem escape_not_mem_replicate {c : Char} (h : c ≠ escape) (n : Nat) :
    escape ∉ List.replicate n c :=
  fun hmem => h (List.eq_of_mem_replicate hmem).symm

theorem isPlain_toString (n : Nat) : IsPlain (toString n) := by
  rw [IsPlain, Nat.toString_eq_repr, Nat.toList_repr]
  exact escape_not_mem_toDigits n

namespace Colours

/-- Plain text goes with itself. -/
theorem of_isPlain (h : IsPlain s) : Colours s s := ⟨unstyledFrom_append h, h⟩

theorem append (h : Colours s t) (h' : Colours s' t') : Colours (s ++ s') (t ++ t') where
  unstyled_eq rest := by
    rw [String.toList_append, String.toList_append, List.append_assoc, h.unstyled_eq,
      h'.unstyled_eq, List.append_assoc]
  isPlain := isPlain_append.2 ⟨h.isPlain, h'.isPlain⟩

/-- Styles are switched on in front of a text and off behind it. -/
theorem of_styled {code : String} (hcode : IsStyling code) (h : IsPlain s) :
    Colours (styled s code true) (styled s code false) where
  unstyled_eq rest := by
    simp only [styled, if_true, Bool.false_eq_true, if_false, String.toList_append,
      List.append_assoc]
    rw [hcode, unstyledFrom_append h, isStyling_reset]
  isPlain := h

/-- Nothing else is left when the sequences are deleted. -/
theorem eq_unstyled (h : Colours s t) : unstyled s = t := by
  have hnil := h.unstyled_eq []
  rw [List.append_nil] at hnil
  rw [unstyled, hnil]
  simp [unstyledFrom]

/-- Lines that go together make up texts that do. -/
theorem unlines {ls ms : List String} (h : List.Forall₂ Colours ls ms) :
    Colours (Text.unlines ls) (Text.unlines ms) := by
  induction h with
  | nil => exact .of_isPlain (by simp [IsPlain, Text.unlines])
  | @cons l m ls ms hline more ih =>
      have hcons : ∀ (l : String) (ls : List String),
          Text.unlines (l :: ls) = l ++ "\n" ++ Text.unlines ls := by
        intro l ls
        apply String.toList_inj.1
        simp [Text.unlines]
      rw [hcons, hcons]
      exact (hline.append (.of_isPlain (by decide))).append ih

end Colours

end Text

open Text

namespace Diagnostic

/-! ## Diagnostics -/

/-- The texts that a diagnostic gives of what it is about. -/
def texts (d : Diagnostic) : List String :=
  d.construct.toList ++
    match d.cause with
    | .unexpected found expected => (found.map Found.display).toList ++ expected
    | .unclosed delimiter _ found => delimiter.toList ++ (found.map Found.display).toList
    | .remark message => message.toList

variable {d : Diagnostic} {src : Source}

theorem isPlain_shown {o : Option String} (h : ∀ t ∈ o, IsPlain t) : IsPlain (shown o) := by
  cases o with
  | none => decide
  | some t => exact h t rfl

theorem isPlain_joined {ts : List String} (h : ∀ t ∈ ts, IsPlain t) :
    IsPlain (joined ", " ts) := by
  fun_induction joined ", " ts with
  | case1 => decide
  | case2 t => exact h t (by simp)
  | case3 s t ts ih =>
      rw [isPlain_append, isPlain_append]
      exact ⟨⟨h s (by simp), by decide⟩, ih fun u hu => h u (by simp [hu])⟩

/-- The construct that is named behind a summary. -/
theorem isPlain_parsing (construct : Option String) : (∀ t ∈ construct, IsPlain t) →
    IsPlain (match construct with
      | none | some "" => ""
      | some construct => ", parsing " ++ construct) := by
  intro h
  split
  · decide
  · decide
  · exact isPlain_append.2 ⟨by decide, h _ rfl⟩

theorem colours_summary (h : ∀ t ∈ d.texts, IsPlain t) (item : Item) :
    Colours (d.summary item true) (d.summary item false) := by
  obtain ⟨span, cause, construct⟩ := d
  simp only [texts, List.forall_mem_append, Option.mem_toList] at h
  have hparsing := isPlain_parsing construct h.1
  cases cause with
  | unexpected found expected =>
      have hexpected : ∀ t ∈ expected, IsPlain t :=
        fun t ht => h.2 t (List.mem_append_right _ ht)
      refine .of_isPlain (isPlain_append.2 ⟨isPlain_append.2 ⟨?_, ?_⟩, hparsing⟩)
      · cases item <;> split <;> decide
      · split
        · exact isPlain_append.2 ⟨by decide, isPlain_joined hexpected⟩
        · split <;> decide
  | unclosed delimiter opened found =>
      have hdelimiter : ∀ t ∈ delimiter, IsPlain t :=
        fun t ht => h.2 t (List.mem_append_left _ (Option.mem_toList.2 ht))
      exact (Colours.append (.of_isPlain (by decide))
        (.of_styled (isStyling_colour .yellow) (isPlain_shown hdelimiter))).append
        (.of_isPlain hparsing)
  | remark message =>
      exact .of_isPlain (isPlain_append.2
        ⟨isPlain_shown fun t ht => h.2 t (Option.mem_toList.2 ht), hparsing⟩)

/-! ## Labels -/

/-- Two labels for the same span, the message of one of which is coloured. -/
structure Label.Colours (l m : Label) : Prop where
  span_eq : l.span = m.span
  colour_eq : l.colour = m.colour
  message : Text.Colours l.message m.message

theorem colours_labels (h : ∀ t ∈ d.texts, IsPlain t) (item : Item) :
    List.Forall₂ Label.Colours (d.labels item true) (d.labels item false) := by
  obtain ⟨span, cause, construct⟩ := d
  simp only [texts, List.forall_mem_append, Option.mem_toList] at h
  cases cause with
  | unexpected found expected =>
      refine .cons ⟨rfl, rfl, .append (.of_isPlain (by decide))
        (.of_styled (isStyling_colour .red) ?_)⟩ .nil
      cases found with
      | none =>
          show IsPlain "end of file"
          decide
      | some f =>
          refine isPlain_append.2 ⟨isPlain_append.2 ⟨by cases item <;> decide, by decide⟩, ?_⟩
          exact h.2 _ (by simp)
  | unclosed delimiter opened found =>
      have hdelimiter : ∀ t ∈ delimiter, IsPlain t :=
        fun t ht => h.2 t (List.mem_append_left _ (Option.mem_toList.2 ht))
      refine .cons ⟨rfl, rfl, .append (.of_isPlain (by decide))
        (.of_styled (isStyling_colour .yellow) (isPlain_shown hdelimiter))⟩ (.cons ⟨rfl, rfl,
          .append (.of_isPlain (by decide)) (.of_styled (isStyling_colour .red) ?_)⟩ .nil)
      cases found with
      | none => decide
      | some f => exact h.2 _ (by simp)
  | remark message =>
      exact .cons ⟨rfl, rfl, .of_styled (isStyling_colour .red)
        (isPlain_shown fun t ht => h.2 t (Option.mem_toList.2 ht))⟩ .nil

variable {ls ms : List Label} {l m : Label}

/-- The order of labels depends on their spans only. -/
theorem colours_insertLabel (hl : l.Colours m) (h : List.Forall₂ Label.Colours ls ms) :
    List.Forall₂ Label.Colours (insertLabel l ls) (insertLabel m ms) := by
  induction h with
  | nil => exact .cons hl .nil
  | @cons l' m' ls ms hl' more ih =>
      rw [insertLabel, insertLabel, hl.span_eq, hl'.span_eq]
      split
      · exact .cons hl (.cons hl' more)
      · exact .cons hl' ih

theorem colours_sortLabels (h : List.Forall₂ Label.Colours ls ms) :
    List.Forall₂ Label.Colours (sortLabels ls) (sortLabels ms) := by
  induction h with
  | nil => exact .nil
  | cons hl more ih => exact colours_insertLabel hl ih

theorem isPlain_blanks (count : Nat) : IsPlain (blanks count) :=
  isPlain_ofList.2 (escape_not_mem_replicate (by decide) count)

theorem isPlain_gutter (number : Nat) : IsPlain (gutter number) := by
  refine isPlain_append.2 ⟨isPlain_ofList.2 fun h => ?_, by decide⟩
  rcases List.mem_append.1 h with h | h
  · exact escape_not_mem_replicate (by decide) _ h
  · exact escape_not_mem_toDigits _ h

theorem escape_not_mem_line (h : escape ∉ src.text) (number : Nat) :
    escape ∉ src.line number := by
  intro hmem
  rw [Source.line, List.getD_eq_getElem?_getD] at hmem
  cases hline : (Source.lines src.text)[number - 1]? with
  | none => simp [hline] at hmem
  | some line =>
      rw [hline] at hmem
      exact h (Source.mem_of_mem_lines (List.mem_of_getElem? hline) hmem)

/-- The lines that show a label differ in the colour of the carets and of the message. -/
theorem colours_layoutLabel (hl : l.Colours m) (h : escape ∉ src.text) :
    List.Forall₂ Text.Colours (l.layout src true) (m.layout src false) := by
  obtain ⟨span, message, colour⟩ := l
  obtain ⟨span', message', colour'⟩ := m
  obtain ⟨rfl, rfl, hmessage⟩ := hl
  refine .cons (.of_isPlain ?_) (.cons ?_ .nil)
  · exact isPlain_append.2
      ⟨isPlain_gutter _, isPlain_ofList.2 (escape_not_mem_line h _)⟩
  · have hcarets (width : Nat) : IsPlain (String.ofList (List.replicate width '^')) :=
      isPlain_ofList.2 (escape_not_mem_replicate (by decide) width)
    refine .append (.append (.append (.of_isPlain ?_) (.of_styled ?_ (hcarets _)))
      (.of_isPlain (by decide))) hmessage
    · exact isPlain_append.2
        ⟨isPlain_append.2 ⟨isPlain_blanks _, by decide⟩, isPlain_blanks _⟩
    · exact isStyling_colour _

/-! ## The whole -/

theorem colours_layout (h : ∀ t ∈ d.texts, IsPlain t) (hpath : IsPlain src.path)
    (htext : escape ∉ src.text) (item : Item) :
    List.Forall₂ Text.Colours (d.layout src item true) (d.layout src item false) := by
  refine .cons ?_ (.cons (.of_isPlain ?_) ?_)
  · have htitle := (isStyling_colour .red).append isStyling_bold
    exact ((Colours.of_styled htitle (by decide)).append (.of_isPlain (by decide))).append
      (colours_summary h item)
  · generalize src.location d.span.start = place
    show IsPlain ("  --> " ++ src.path ++ ":" ++ toString place.line ++ ":" ++
      toString place.column)
    simp only [isPlain_append]
    exact ⟨⟨⟨⟨⟨by decide, hpath⟩, by decide⟩, isPlain_toString _⟩, by decide⟩, isPlain_toString _⟩
  · exact List.rel_flatMap (colours_sortLabels (colours_labels h item))
      fun l m hl => colours_layoutLabel hl htext

end Diagnostic

namespace Report

variable {r : Report}

/-- Neither the source nor what the findings say of it has an escape character in it. -/
structure IsPlain (r : Report) : Prop where
  path : Text.IsPlain r.source.path
  text : escape ∉ r.source.text
  diagnostics : ∀ d ∈ r.diagnostics, ∀ t ∈ d.texts, Text.IsPlain t

/-- The text of a coloured report is that of the plain one, with sequences that switch styles. -/
theorem colours_text (h : r.IsPlain) :
    Text.Colours (r.coloured true).text (r.coloured false).text := by
  refine .unlines ?_
  -- The findings are the same on both sides, and each is laid out by itself.
  have hsame : List.Forall₂ (fun d e => d = e ∧ d ∈ r.diagnostics) r.diagnostics r.diagnostics :=
    List.forall₂_same.2 fun d hd => ⟨rfl, hd⟩
  refine List.rel_flatMap hsame ?_
  rintro d _ ⟨rfl, hd⟩
  exact Diagnostic.colours_layout (h.diagnostics d hd) h.path h.text _

/-- Changes of colour change nothing but the colour. -/
theorem exists_foldl_coloured (r : Report) (flags : List Bool) :
    ∃ colourful, flags.foldl coloured r = r.coloured colourful := by
  induction flags generalizing r with
  | nil => exact ⟨r.colourful, rfl⟩
  | cons flag flags ih => exact ih (r.coloured flag)

/-- The coloured text without the sequences is the plain text. -/
theorem write_unstyled (h : r.IsPlain) :
    (r.coloured true).write.map unstyled = (r.coloured false).write := by
  unfold write writeIf
  show (if r.diagnostics.all Diagnostic.isWritable then _ else _ : Except Fault String).map _ =
    if r.diagnostics.all Diagnostic.isWritable then _ else _
  split
  · exact congrArg Except.ok (colours_text h).eq_unstyled
  · rfl

theorem isPlain_of_write (h : r.IsPlain) {text : String}
    (htext : (r.coloured false).write = .ok text) : Text.IsPlain text := by
  unfold write writeIf at htext
  split at htext
  · cases htext
    exact (colours_text h).isPlain
  · cases htext

/-- **Colour is presentation only.** Whatever changes of colour a report has gone through, it is on
the same source, of the same stage, with the same findings and the same summary, and it is written
as the last change says. If there is no escape character in what it says, the coloured text is the
plain one with sequences that switch styles: these deleted, it is the plain text, in which there
is no escape character. -/
theorem colour_is_presentation (r : Report) :
    (∀ flags : List Bool, (flags.foldl coloured r).stage = r.stage ∧
      (flags.foldl coloured r).stage.item = r.stage.item ∧
      (flags.foldl coloured r).diagnostics = r.diagnostics ∧
      (flags.foldl coloured r).source = r.source ∧
      (flags.foldl coloured r).summary = r.summary) ∧
    (∀ (flags : List Bool) (last : Bool),
      ((flags ++ [last]).foldl coloured r).write = (r.coloured last).write) ∧
    (r.IsPlain → (r.coloured true).write.map unstyled = (r.coloured false).write ∧
      ∀ text, (r.coloured false).write = .ok text → Text.IsPlain text) := by
  refine ⟨?_, ?_, fun h => ⟨write_unstyled h, fun text => isPlain_of_write h⟩⟩
  · intro flags
    obtain ⟨colourful, hflags⟩ := exists_foldl_coloured r flags
    rw [hflags]
    exact ⟨rfl, rfl, rfl, rfl, rfl⟩
  · intro flags last
    obtain ⟨colourful, hflags⟩ := exists_foldl_coloured r flags
    rw [List.foldl_append, hflags]
    rfl

/-- A bracket that is never closed, with a second label, and a stray character. -/
theorem colour_is_presentation_unclosed :
    let r : Report :=
      { stage := .syntactic
        source := ⟨"a.scm", "(f\n  x".toList⟩
        diagnostics := [.unclosed (.point "a.scm" 6) (some "(") ⟨"a.scm", 0, 1, by decide⟩ none
            (some "procedure call"),
          .unexpected (.point "a.scm" 6) (some (.text "x")) [")"]] }
    r.IsPlain ∧ (r.coloured true).write.map unstyled = (r.coloured false).write ∧
      ∀ text, (r.coloured false).write = .ok text → Text.IsPlain text := by
  intro r
  have hplain : r.IsPlain := ⟨by decide, by decide, by simp only [r]; decide⟩
  exact ⟨hplain, (colour_is_presentation r).2.2 hplain⟩

end Report

end SchemeFront
