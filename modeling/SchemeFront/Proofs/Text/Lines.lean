import Mathlib.Algebra.GroupWithZero.Nat
import SchemeFront.Source
import SchemeFront.Text.Lines

set_option autoImplicit false

/-! # Lines of texts

Texts without newlines, each ended by a newline (`Text.ended`), are the lines of the text that they
make up, in front of the lines of what follows (`Source.lines_ended_append`). Every text is made up
in this way, with a part behind its last newline (`Source.exists_eq_ended_append`). Indentation can
be read off a line again (`Text.indentation_indented`), and so can what is indented
(`Text.unindented_indented`).
-/

namespace SchemeFront

/-! ## Texts that are made up of lines -/

/-- The lines, each ended by a newline, as one text. -/
def Text.ended (ls : List (List Char)) : List Char := ls.flatMap (· ++ ['\n'])

theorem Text.toList_unlines (ls : List String) :
    (unlines ls).toList = ended (ls.map String.toList) := by
  rw [unlines, String.toList_ofList, ended, List.flatMap_map]

theorem Text.length_ended (ls : List (List Char)) :
    (ended ls).length = (ls.map fun l => l.length + 1).sum := by
  simp [ended, List.length_flatMap]

/-- There is a newline behind each line, besides those in the lines. -/
theorem Text.count_ended (ls : List (List Char)) :
    (ended ls).count '\n' = ls.length + ls.flatten.count '\n' := by
  induction ls with
  | nil => rfl
  | cons l ls ih =>
      have hcons : ended (l :: ls) = l ++ '\n' :: ended ls := by simp [ended]
      rw [hcons, List.count_append, List.count_cons_self, ih, List.flatten_cons, List.count_append,
        List.length_cons]
      omega

namespace Source

variable {cs line : List Char} {ls : List (List Char)}

/-- A newline ends a line. -/
theorem lines_append_newline (h : '\n' ∉ line) (cs : List Char) :
    lines (line ++ '\n' :: cs) = line :: lines cs := by
  induction line with
  | nil =>
      obtain ⟨first, below, hcs⟩ := List.exists_cons_of_ne_nil (lines_ne_nil cs)
      rw [List.nil_append, lines_cons hcs, if_pos rfl, hcs]
  | cons c line ih =>
      rw [List.mem_cons, not_or] at h
      rw [List.cons_append, lines_cons (ih h.2), if_neg (Ne.symm h.1)]

theorem lines_ended_append (h : ∀ l ∈ ls, '\n' ∉ l) (cs : List Char) :
    lines (Text.ended ls ++ cs) = ls ++ lines cs := by
  induction ls with
  | nil => rfl
  | cons l ls ih =>
      have hcons : Text.ended (l :: ls) ++ cs = l ++ '\n' :: (Text.ended ls ++ cs) := by
        simp [Text.ended]
      rw [hcons, lines_append_newline (h l (by simp)), ih fun l hl => h l (by simp [hl]),
        List.cons_append]

/-- The lines that are ended are those of the text, with nothing behind them. -/
theorem lines_ended (h : ∀ l ∈ ls, '\n' ∉ l) : lines (Text.ended ls) = ls ++ [[]] := by
  simpa [lines] using lines_ended_append h []

/-- Every text is made up of lines that are ended, and a part behind them. -/
theorem exists_eq_ended_append (cs : List Char) :
    ∃ above last, cs = Text.ended above ++ last ∧ (∀ l ∈ above, '\n' ∉ l) ∧ '\n' ∉ last := by
  induction cs with
  | nil => exact ⟨[], [], rfl, by simp, by simp⟩
  | cons c cs ih =>
      obtain ⟨above, last, rfl, habove, hlast⟩ := ih
      by_cases hc : c = '\n'
      · subst hc
        exact ⟨[] :: above, last, rfl, by simpa using habove, hlast⟩
      -- The character goes in front of the first line, or of the last part if there is no line.
      · cases above with
        | nil => exact ⟨[], c :: last, rfl, by simp, by simp [Ne.symm hc, hlast]⟩
        | cons l above =>
            rw [List.forall_mem_cons] at habove
            refine ⟨(c :: l) :: above, last, by simp [Text.ended], ?_, hlast⟩
            simpa [Ne.symm hc] using habove

/-- The first line goes up to the first newline. -/
theorem exists_lines_eq_cons (cs : List Char) :
    ∃ below, lines cs = cs.takeWhile (· != '\n') :: below := by
  induction cs with
  | nil => exact ⟨[], rfl⟩
  | cons c cs ih =>
      obtain ⟨below, h⟩ := ih
      rw [lines_cons h, List.takeWhile_cons]
      by_cases hc : c = '\n'
      · exact ⟨lines cs, by simp [hc, h]⟩
      · exact ⟨below, by simp [hc]⟩

/-- What is on a line is in the text. -/
theorem mem_of_mem_lines {c : Char} (hline : line ∈ lines cs) (hc : c ∈ line) : c ∈ cs := by
  induction cs generalizing line with
  | nil =>
      cases List.mem_singleton.1 hline
      cases hc
  | cons d cs ih =>
      obtain ⟨first, below, hcs⟩ := List.exists_cons_of_ne_nil (lines_ne_nil cs)
      rw [lines_cons hcs] at hline
      rw [hcs] at ih
      split at hline
      · rcases List.mem_cons.1 hline with rfl | hline
        · cases hc
        · exact List.mem_cons_of_mem d (ih hline hc)
      · rcases List.mem_cons.1 hline with rfl | hline
        · rcases List.mem_cons.1 hc with rfl | hc
          · exact List.mem_cons_self
          · exact List.mem_cons_of_mem d (ih List.mem_cons_self hc)
        · exact List.mem_cons_of_mem d (ih (List.mem_cons_of_mem _ hline) hc)

/-- Texts that are made up of the same lines have the same lines. -/
theorem ended_inj {ls' : List (List Char)} (h : ∀ l ∈ ls, '\n' ∉ l) (h' : ∀ l ∈ ls', '\n' ∉ l)
    (heq : Text.ended ls = Text.ended ls') : ls = ls' := by
  have hlines := congrArg lines heq
  rw [lines_ended h, lines_ended h'] at hlines
  exact List.append_cancel_right hlines

end Source

/-! ## Indented lines -/

namespace Text

/-- How many blanks a line begins with. -/
def indentation (line : List Char) : Nat := (line.takeWhile (· == ' ')).length

/-- A line without the blanks it begins with. -/
def unindented (line : List Char) : List Char := line.dropWhile (· == ' ')

variable {line : String} (level : Nat)

theorem toList_indented : (indented level line).toList =
    List.replicate (2 * level) ' ' ++ line.toList := by
  rw [indented, blanks, String.toList_append, String.toList_ofList]

theorem unindented_indented (h : line.toList.head? ≠ some ' ') :
    unindented (indented level line).toList = line.toList := by
  rw [toList_indented, unindented, List.dropWhile_append_of_pos (by simp)]
  cases hline : line.toList with
  | nil => rfl
  | cons c cs =>
      rw [hline] at h
      exact List.dropWhile_cons_of_neg (by simpa using h)

theorem indentation_indented (h : line.toList.head? ≠ some ' ') :
    indentation (indented level line).toList = 2 * level := by
  rw [toList_indented, indentation, List.takeWhile_append_of_pos (by simp)]
  cases hline : line.toList with
  | nil => simp
  | cons c cs =>
      rw [hline] at h
      rw [List.takeWhile_cons_of_neg (by simpa using h), List.append_nil, List.length_replicate]

end Text

end SchemeFront
