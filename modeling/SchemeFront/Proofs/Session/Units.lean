import Mathlib.Data.List.Forall2
import SchemeFront.Proofs.Parse.Outcome
import SchemeFront.Proofs.Parse.Units
import SchemeFront.Proofs.Session.OneForm

set_option autoImplicit false

/-! # Programs unit by unit

Errors do not leave the form at top level that they are in. The tokens of a source are cut behind
each form (`Token.Cut`), and each unit comes to what it comes to as a program of its own
(`Outcome.OfUnit`). What the whole program is follows from the outcomes alone
(`Body.ofTokens_of_units`): the definitions before the first expression that is no error, all
expressions, and the findings in the order of the units.
-/

namespace SchemeFront

open Token

variable {limit : Int} {src : Source} {tokens : List Token} {i : Nat}

/-- The tokens from the index `i` on, cut behind each form. -/
inductive Token.Cut (tokens : List Token) : Nat → List (List Token) → Prop
  | nil : Cut tokens tokens.length []
  | cons {i j : Nat} {units : List (List Token)} (hi : i < tokens.length)
      (hj : afterForm tokens i = .ok j) (more : Cut tokens j units) :
      Cut tokens i ((tokens.take j).drop i :: units)

/-- What a unit comes to if it is parsed as a program of its own, the error that stands for a
missing expression left out. -/
inductive Outcome.OfUnit (limit : Int) (src : Source) (unit : List Token) : Outcome → Prop
  | definition {d : Definition} {notes : List Diagnostic}
      (h : Body.ofTokens limit src unit
        = .ok (⟨[d], [], .error src.endOfInput⟩, notes ++ [missing src.endOfInput])) :
      OfUnit limit src unit ⟨.definition d, notes⟩
  | expression {e : Expr} {notes : List Diagnostic} (hne : ¬ IsStrayClose unit)
      (h : Body.ofTokens limit src unit = .ok (⟨[], [], e⟩, notes)) :
      OfUnit limit src unit ⟨.expression e, notes⟩
  | nothing {notes : List Diagnostic} (hstray : IsStrayClose unit)
      (h : Body.ofTokens limit src unit
        = .ok (⟨[], [], .error src.endOfInput⟩, notes ++ [missing src.endOfInput])) :
      OfUnit limit src unit ⟨.nothing, notes⟩

/-! ## Units and outcomes are unique -/

/-- The first unit is the first form. -/
theorem Token.cut_cons_iff {t : Token} {front us : List Token} (h : IsFirstForm t front us)
    (hi : tokens.drop i = t :: (front ++ us)) {units : List (List Token)} :
    Cut tokens i units ↔ ∃ more, units = (t :: front) :: more ∧
      Cut tokens (i + (front.length + 1)) more := by
  have hj := afterForm_of_drop_eq_cons hi
  rw [h.extent_append] at hj
  have hlen := length_eq_of_drop_eq_cons hi
  rw [List.length_cons, List.length_append] at hlen
  have hunit : (tokens.take (i + (front.length + 1))).drop i = t :: front := by
    rw [List.drop_take, hi, Nat.add_sub_cancel_left, ← List.cons_append]
    exact List.take_left' rfl
  constructor
  · intro hcut
    cases hcut with
    | nil => omega
    | @cons _ j more hlt hj' hmore =>
        obtain rfl : j = i + (front.length + 1) := by
          have := Except.ok.inj (hj'.symm.trans hj)
          omega
        exact ⟨more, by rw [hunit], hmore⟩
  · rintro ⟨more, rfl, hmore⟩
    rw [← hunit]
    exact .cons (by omega) hj hmore

/-- From the end on there are no units. -/
theorem Token.cut_length_iff {units : List (List Token)} :
    Cut tokens tokens.length units ↔ units = [] := by
  constructor
  · intro hcut
    cases hcut with
    | nil => rfl
    | cons hi => exact absurd hi (Nat.lt_irrefl _)
  · rintro rfl
    exact .nil

/-- A unit comes to one thing only. -/
theorem Outcome.OfUnit.unique {unit : List Token} {o o' : Outcome} (h : OfUnit limit src unit o)
    (h' : OfUnit limit src unit o') : o = o' := by
  cases h with
  | definition h =>
      cases h' with
      | definition h' => simpa using h.symm.trans h'
      | expression _ h' => simp [h] at h'
      | nothing _ h' => simp [h] at h'
  | expression hne h =>
      cases h' with
      | definition h' => simp [h] at h'
      | expression _ h' => simpa using h.symm.trans h'
      | nothing hstray => exact absurd hstray hne
  | nothing hstray h =>
      cases h' with
      | definition h' => simp [h] at h'
      | expression hne => exact absurd hstray hne
      | nothing _ h' => simpa using h.symm.trans h'

/-! ## From units to programs -/

/-- A program with one expression. -/
theorem Body.eq_of_exprs {p : Program} {e : Expr} (h : p.exprs = [e]) : p = ⟨p.defs, [], e⟩ := by
  obtain ⟨defs, init, last⟩ := p
  cases init with
  | nil =>
      cases h
      rfl
  | cons first init => simp [exprs] at h

/-- The outcome of a program of one form is what the form comes to. -/
theorem Outcome.ofUnit_of_makes {unit : List Token} {o : Outcome} {p : Program}
    {notes : List Diagnostic} (h : Makes src.endOfInput [o] p notes)
    (hp : Body.ofTokens limit src unit = .ok (p, notes))
    (hstray : o.item = .nothing ↔ IsStrayClose unit) : OfUnit limit src unit o := by
  obtain ⟨hdefs, hexprs, rfl⟩ := h
  rw [defs_singleton] at hdefs
  rw [exprs_singleton] at hexprs
  rw [findings_singleton] at hp
  obtain ⟨item, notes⟩ := o
  cases item with
  | definition d =>
      rw [Body.eq_of_exprs hexprs, hdefs] at hp
      exact .definition hp
  | expression e =>
      have hne : ¬ IsStrayClose unit := fun h => by cases hstray.2 h
      rw [Body.eq_of_exprs hexprs, hdefs] at hp
      refine .expression hne (hp.trans ?_)
      simp [hasExpression, BodyItem.expression?, BodyItem.definition?]
  | nothing =>
      rw [Body.eq_of_exprs hexprs, hdefs] at hp
      exact .nothing (hstray.1 rfl) hp

/-- A first form comes to an outcome as a program of its own, and what follows it keeps the
outcomes that it has from its end on. -/
theorem Parse.exists_feeds_of_isFirstForm {t : Token} {front us : List Token}
    (h : IsFirstForm t front us) (hasc : Ascending (t :: front)) (limit : Int) (src : Source) :
    ∃ o, Outcome.OfUnit limit src (t :: front) o ∧
      ∀ n os, (t :: front).length ≤ n →
        Feeds (outerItem (nested n)) (Context.ofSource limit src) { rest := us } os →
        Feeds (outerItem (nested n)) (Context.ofSource limit src)
          { rest := t :: (front ++ us) } (o :: os) := by
  obtain ⟨item, trace, hshort, hlong, hnothing⟩ :=
    exists_outerItem_of_isFirstForm h hasc (Context.ofSource limit src)
  -- Alone, the form is a program with one item.
  have halone : Feeds (outerItem (nested (t :: front).length)) (Context.ofSource limit src)
      { rest := t :: front } [⟨item, trace.notes⟩] :=
    .cons hshort (.nil fun _ => rfl)
  obtain ⟨p, notes, hp, hmakes⟩ := Body.ofTokens_of_feeds halone (by simp)
  refine ⟨⟨item, trace.notes⟩,
    Outcome.ofUnit_of_makes hmakes hp (hnothing.trans h.closes_iff), ?_⟩
  intro n os hle hfeeds
  have hcons := Feeds.cons (fun started => hlong n started hle) hfeeds
  exact hcons

/-- Tokens that are left can be cut in one way, and give items with the outcomes of the units. -/
theorem Parse.exists_feeds_of_drop (hasc : Ascending tokens) (limit : Int) (src : Source)
    (hi : i ≤ tokens.length) :
    ∃ units os, (∀ units', Cut tokens i units' ↔ units' = units) ∧
      List.Forall₂ (Outcome.OfUnit limit src) units os ∧ os.length ≤ (tokens.drop i).length ∧
      Parse.Feeds (Parse.outerItem (Parse.nested tokens.length)) (Context.ofSource limit src)
        { rest := tokens.drop i } os := by
  generalize hn : tokens.length - i = n
  induction n using Nat.strongRecOn generalizing i with
  | ind n ih =>
      cases hdrop : tokens.drop i with
      | nil =>
          have hle := List.drop_eq_nil_iff.1 hdrop
          obtain rfl : i = tokens.length := Nat.le_antisymm hi hle
          exact ⟨[], [], fun _ => cut_length_iff, .nil, Nat.zero_le _, .nil fun _ => rfl⟩
      | cons t ts =>
          obtain ⟨front, us, rfl, hfirst⟩ := exists_isFirstForm t ts
          have hlen := length_eq_of_drop_eq_cons hdrop
          rw [List.length_cons, List.length_append] at hlen
          have hus : tokens.drop (i + (front.length + 1)) = us := by
            rw [← List.drop_drop, hdrop, ← List.cons_append]
            exact List.drop_left' rfl
          obtain ⟨units, os, hunits, hos, hle, hfeeds⟩ :=
            ih (tokens.length - (i + (front.length + 1))) (by omega) (by omega) rfl
          rw [hus] at hle hfeeds
          have hasc' : Ascending (t :: front) := by
            have hasc := hasc.of_suffix (List.drop_suffix i tokens)
            rw [hdrop, ← List.cons_append] at hasc
            exact hasc.sublist (List.sublist_append_left _ us)
          obtain ⟨o, ho, hcons⟩ := Parse.exists_feeds_of_isFirstForm hfirst hasc' limit src
          refine ⟨(t :: front) :: units, o :: os, ?_, .cons ho hos, ?_, hcons _ _ ?_ hfeeds⟩
          · intro units'
            simp [cut_cons_iff hfirst hdrop, hunits]
          · simp only [List.length_cons, List.length_append]
            omega
          · rw [List.length_cons]
            omega

/-- **Errors are isolated between forms.** The tokens of a source can be cut in one way, and each
unit comes to one thing as a program of its own. These outcomes determine the program of the
source and its findings. -/
theorem Body.ofTokens_of_units (limit : Int) (src : Source) (l : Lexed)
    (hl : Lexed.ofSource src = .ok l) :
    ∃ units os, (∀ units', Cut l.tokens 0 units' ↔ units' = units) ∧
      (∀ os', List.Forall₂ (Outcome.OfUnit limit src) units os' ↔ os' = os) ∧
      ∃ p notes, ofTokens limit src l.tokens = .ok (p, notes) ∧
        Outcome.Makes src.endOfInput os p notes := by
  obtain ⟨units, os, hunits, hos, hlen, hfeeds⟩ :=
    Parse.exists_feeds_of_drop (Lexed.separate hl).ascending limit src (Nat.zero_le _)
  have hunique : Relator.RightUnique (Outcome.OfUnit limit src) := fun _ _ _ h h' => h.unique h'
  exact ⟨units, os, hunits, fun os' => ⟨fun h => hunique.forall₂ h hos, fun h => h ▸ hos⟩,
    ofTokens_of_feeds hfeeds hlen⟩

/-- A definition, a bracket that closes nothing, an expression that is nested too deeply, a sound
one, a definition behind it, and a form that is never closed. -/
theorem Body.ofTokens_of_units_brackets :
    ∃ src l, src = ⟨"a.scm", "(define x 1) ) (f (y)) 2 (define z 3) (g".toList⟩ ∧
      Lexed.ofSource src = .ok l ∧ l.tokens.length = 20 ∧
      ∃ units os, (∀ units', Cut l.tokens 0 units' ↔ units' = units) ∧
        (∀ os', List.Forall₂ (Outcome.OfUnit 1 src) units os' ↔ os' = os) ∧
        ∃ p notes, ofTokens 1 src l.tokens = .ok (p, notes) ∧
          Outcome.Makes src.endOfInput os p notes :=
  ⟨_, _, rfl, rfl, rfl, ofTokens_of_units 1 _ _ rfl⟩

end SchemeFront
