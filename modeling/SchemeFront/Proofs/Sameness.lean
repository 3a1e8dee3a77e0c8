import SchemeFront.Parse.Body
import SchemeFront.Report

set_option autoImplicit false

/-! # The same wherever it stands

Tokens say the same if they are the same without spans (`Token.bare`), and so do findings
(`Diagnostic.bare`). What a token is taken for depends on nothing else: which bracket or word it
is, which name it has, and where the form that it begins ends.
-/

namespace SchemeFront

/-! ## Findings without spans -/

/-- The span that is put in the place of all others. -/
def Span.nowhere : Span := .point "" 0

/-- What was met, without where it stands. -/
def Found.bare : Found → Found
  | text shown => text shown
  | token t => token ⟨t.bare, .nowhere⟩

/-- What is wrong, without where. -/
def Cause.bare : Cause → Cause
  | unexpected found expected => unexpected (found.map Found.bare) expected
  | unclosed delimiter _ found => unclosed delimiter .nowhere (found.map Found.bare)
  | remark message => remark message

/-- A finding without the spans in it. -/
def Diagnostic.bare (d : Diagnostic) : Diagnostic := ⟨.nowhere, d.cause.bare, d.construct⟩

/-- The findings of a report without the spans in them. -/
def Report.bare (r : Report) : Stage × List Diagnostic :=
  (r.stage, r.diagnostics.map Diagnostic.bare)

namespace Diagnostic

variable {d e : Diagnostic}

theorem atEnd_bare (d : Diagnostic) : d.bare.atEnd = d.atEnd := by
  obtain ⟨s, cause, construct⟩ := d
  rcases cause with ⟨found, expected⟩ | ⟨delimiter, opened, found⟩ | message
  · cases found <;> rfl
  · rfl
  · rfl

theorem atEnd_eq_of_bare (h : d.bare = e.bare) : d.atEnd = e.atEnd := by
  rw [← atEnd_bare, h, atEnd_bare]

theorem within_bare (construct : String) (h : d.bare = e.bare) :
    (d.within construct).bare = (e.within construct).bare := by
  obtain ⟨-, hcause, hconstruct⟩ := Diagnostic.mk.inj h
  simp only [bare, within, hcause, hconstruct]

theorem unexpected_bare {s s' : Span} {t u : Token} (h : t.bare = u.bare)
    (expected : List String) :
    (unexpected s (some (.token t)) expected).bare =
      (unexpected s' (some (.token u)) expected).bare := by
  simp only [bare, unexpected, Cause.bare, Option.map_some, Found.bare, h]

end Diagnostic

/-- The reports of two lists of findings that say the same do so too. -/
theorem Report.bare_of? {ds es : List Diagnostic} (stage : Stage) (src src' : Source)
    (h : ds.map Diagnostic.bare = es.map Diagnostic.bare) :
    (of? stage ds src).map bare = (of? stage es src').map bare := by
  have hempty : ds.isEmpty = es.isEmpty := by
    rw [← List.isEmpty_map (f := Diagnostic.bare), h, List.isEmpty_map]
  unfold of?
  rw [hempty]
  split
  · rfl
  · simp only [Option.map_some, bare, h]

/-! ## Tokens without spans -/

namespace Token

variable {t u : Token} {ts us : List Token}

theorem sameAll_iff : sameAll ts us = true ↔ ts.map bare = us.map bare := by
  rw [sameAll, beq_iff_eq]

theorem lexeme_eq_keyword_iff {k : Keyword} :
    t.lexeme = .keyword k ↔ t.bare = .keyword k := by
  rw [bare]
  cases t.lexeme <;> simp [Lexeme.bare]

/-- Where there is a keyword, there is the same one. -/
theorem map_lexeme_eq_keyword_iff {o o' : Option Token} (h : o.map bare = o'.map bare)
    (k : Keyword) :
    o.map lexeme = some (.keyword k) ↔ o'.map lexeme = some (.keyword k) := by
  have hbare : ∀ o : Option Token,
      o.map lexeme = some (.keyword k) ↔ o.map bare = some (.keyword k) := by
    intro o
    cases o with
    | none => simp
    | some t => simp [lexeme_eq_keyword_iff]
  rw [hbare, hbare, h]

theorem isKeyword_eq_of_bare (h : t.bare = u.bare) (k : Keyword) :
    t.isKeyword k = u.isKeyword k := by
  rw [Bool.eq_iff_iff, isKeyword, isKeyword, beq_iff_eq, beq_iff_eq, lexeme_eq_keyword_iff,
    lexeme_eq_keyword_iff, h]

theorem opens_eq_of_bare (h : t.bare = u.bare) : t.opens = u.opens := isKeyword_eq_of_bare h _

theorem closes_eq_of_bare (h : t.bare = u.bare) : t.closes = u.closes := isKeyword_eq_of_bare h _

theorem name?_bare (t : Token) : t.bare.name? = t.name? := by
  obtain ⟨l, s⟩ := t
  rcases l with k | a
  · rfl
  · cases a <;> rfl

theorem name?_eq_of_bare (h : t.bare = u.bare) : t.name? = u.name? := by
  rw [← name?_bare, h, name?_bare]

/-- An atom stays an atom. -/
theorem exists_atom_of_bare {a : Atom} (h : t.bare = u.bare) (ht : t.lexeme = .atom a) :
    ∃ b, u.lexeme = .atom b ∧ a.bare = b.bare := by
  rw [bare, bare, ht] at h
  cases hu : u.lexeme with
  | keyword k =>
      rw [hu] at h
      cases h
  | atom b =>
      rw [hu] at h
      exact ⟨b, rfl, Lexeme.atom.inj h⟩

theorem untilClosed_eq_of_bare (d : Nat) (h : ts.map bare = us.map bare) :
    untilClosed d ts = untilClosed d us := by
  induction ts generalizing us d with
  | nil =>
      rw [List.map_nil, eq_comm, List.map_eq_nil_iff] at h
      rw [h]
  | cons t ts ih =>
      obtain ⟨u, us, rfl, hu, hus⟩ := List.map_eq_cons_iff.1 h.symm
      cases d with
      | zero => rfl
      | succ d =>
          rw [untilClosed, untilClosed, opens_eq_of_bare hu, closes_eq_of_bare hu, ih _ hus.symm]

/-- Forms that say the same are of the same length. -/
theorem extent_eq_of_bare (h : ts.map bare = us.map bare) : extent ts = extent us := by
  cases ts with
  | nil =>
      rw [List.map_nil, eq_comm, List.map_eq_nil_iff] at h
      rw [h]
  | cons t ts =>
      obtain ⟨u, us, rfl, hu, hus⟩ := List.map_eq_cons_iff.1 h.symm
      rw [extent, extent, opens_eq_of_bare hu, untilClosed_eq_of_bare _ hus.symm]

end Token

/-! ## Programs -/

theorem Expr.isError_eq_of_same {e f : Expr} (h : e.same f = true) : e.isError = f.isError := by
  cases e <;> cases f <;> first | rfl | simp [same] at h

namespace Parse

/-- Expressions that say the same end with expressions that do. -/
theorem sameAll_dropLast {es fs : List Expr} (h : Expr.sameAll es fs = true) :
    Expr.sameAll es.dropLast fs.dropLast = true ∧
      Option.Rel (fun e f => e.same f) es.getLast? fs.getLast? := by
  induction es generalizing fs with
  | nil =>
      cases fs with
      | nil => exact ⟨rfl, .none⟩
      | cons f fs => simp [Expr.sameAll] at h
  | cons e es ih =>
      cases fs with
      | nil => simp [Expr.sameAll] at h
      | cons f fs =>
          simp only [Expr.sameAll, Bool.and_eq_true] at h
          obtain ⟨hef, hes⟩ := h
          have hmore := ih hes
          cases es with
          | nil =>
              cases fs with
              | nil => exact ⟨rfl, .some hef⟩
              | cons f' fs => simp [Expr.sameAll] at hes
          | cons e' es =>
              cases fs with
              | nil => simp [Expr.sameAll] at hes
              | cons f' fs =>
                  rw [List.dropLast_cons_cons, List.dropLast_cons_cons, List.getLast?_cons_cons,
                    List.getLast?_cons_cons]
                  exact ⟨by simp [Expr.sameAll, hef, hmore.1], hmore.2⟩

theorem same_body? {ds ds' : List Definition} {es es' : List Expr}
    (hds : Definition.sameAll ds ds' = true) (hes : Expr.sameAll es es' = true) :
    Option.Rel (fun b c => b.same c) (body? ds es) (body? ds' es') := by
  obtain ⟨hinit, hlast⟩ := sameAll_dropLast hes
  unfold body?
  generalize es.getLast? = last, es'.getLast? = last' at hlast
  cases hlast with
  | none => exact .none
  | some hef => exact .some (by simp [Body.same, hds, hinit, hef])

end Parse

end SchemeFront
