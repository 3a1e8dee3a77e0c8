import SchemeFront.Proofs.Parse.Nested

set_option autoImplicit false

/-! # Programs from any tokens

At top level no failure is passed on. Every list of tokens in order gives a program, and all of
them are read (`Parse.exists_program_eq_done`).
-/

namespace SchemeFront

open Token

variable {α β : Type} {P : Lexeme → Prop} {ctx : Context} {pos : Position} {n : Nat}

/-- The answer outside all forms: there is a value, some tokens were read, and no form is open
that was not. -/
def Reply.Onward (P : Lexeme → Prop) (pos : Position) (Q : α → Position → Prop) :
    Reply α → Prop :=
  Ensures
    (fun a trace after => (∀ m ∈ trace.notes, m.Mentions P) ∧
      (∃ rest, after = pos.moveTo rest ∧ rest <:+ pos.rest) ∧ Q a after)
    (fun _ _ _ => False)

namespace Parse

variable {inner : Inner}

theorem onward_map {p : Parse α} {f : α → β} {Q : β → Position → Prop}
    (h : (p ctx pos).Onward P pos fun a after => Q (f a) after) :
    ((f <$> p) ctx pos).Onward P pos Q := by
  rw [← bind_pure_comp, bind_apply]
  cases hr : p ctx pos with
  | done a trace after =>
      rw [hr] at h
      obtain ⟨hnotes, hafter, ha⟩ := h
      exact ⟨by simpa using hnotes, hafter, ha⟩
  | failed why trace after =>
      rw [hr] at h
      exact h.elim
  | fault fault =>
      rw [hr] at h
      exact h.elim

/-- A form outside all others is read. -/
theorem onward_form {r : Reply (Parsed α)} {Q : α → Prop} (hforms : pos.forms = [])
    (hne : pos.rest ≠ []) (h : r.Lands P pos Q) :
    r.Onward P pos fun a after => after.rest.length < pos.rest.length ∧ a.Holds Q := by
  cases r with
  | done a trace after =>
      obtain ⟨rfl, htrace, ha⟩ := h
      -- The extent of a form is not empty, so a token was taken.
      refine ⟨(htrace 0).mentions, ⟨_, rfl, List.drop_suffix _ _⟩, ?_, ha⟩
      have hpos := extent_pos hne
      have hlen := List.length_pos_iff.2 hne
      rw [Position.moveTo_rest, List.length_drop]
      omega
  | failed why trace after =>
      -- Only a form inside another one passes its failure on.
      obtain ⟨-, -, hinside, -⟩ := h
      exact absurd hforms hinside
  | fault fault => exact h

/-- An expression outside all forms is read, or what stands in its place is skipped. -/
theorem onward_recovered {expr : Parse Expr} (hs : Supply P n pos.rest) (hne : pos.rest ≠ [])
    (h : (expr ctx pos).Tidy P 0 0 pos
      fun e rest => rest.length < pos.rest.length ∧ e.Mentions P) :
    (recovered expr ctx pos).Onward P pos
      fun e after => after.rest.length < pos.rest.length ∧ e.Mentions P := by
  unfold recovered
  cases hr : expr ctx pos with
  | done e trace after =>
      rw [hr] at h
      obtain ⟨rest, rfl, hpass, htrace, he⟩ := h
      exact ⟨htrace.mentions, ⟨rest, rfl, hpass.suffix⟩, he⟩
  | failed why trace after =>
      rw [hr] at h
      obtain ⟨rest, rfl, hreach, htrace, hwhy, -⟩ := h
      obtain ⟨span, hspan⟩ := recover_eq Expr ctx (pos.moveTo rest)
        (hs.ascending.of_suffix hreach.suffix).spanned (by simp) why
      -- At the end of the input nothing is left to skip, but then tokens were read before.
      have hlt : (rest.drop (extent rest)).length < pos.rest.length := by
        have hle := hreach.suffix.length_le
        have hlen := List.length_pos_iff.2 hne
        rw [List.length_drop]
        by_cases hrest : rest = []
        · simp [hrest, hlen]
        · have hpos := extent_pos hrest
          omega
      dsimp only
      rw [← bind_pure_comp, bind_apply, Position.moveTo_rest, hspan]
      refine ⟨?_, ⟨_, rfl, (List.drop_suffix _ _).trans hreach.suffix⟩, hlt,
        Expr.mentions_error span⟩
      intro m hm
      simp only [Trace.notes_append, Trace.notes_ofNote, Trace.notes_ofPosition,
        Trace.notes_empty, List.append_nil, List.mem_append, List.mem_singleton] at hm
      rcases hm with hm | rfl
      · exact htrace.mentions m hm
      · exact hwhy
  | fault fault =>
      rw [hr] at h
      exact h.elim

/-- An item outside all forms is read, whatever its tokens are. -/
theorem onward_outerItem (pos : Position) (h : inner.Tidy P ctx n) (hs : Supply P (n + 1) pos.rest)
    (hforms : pos.forms = []) (started : Bool) :
    (outerItem inner started ctx pos).Onward P pos fun i after =>
      (i = none → after.rest = []) ∧
        ∀ i' ∈ i, after.rest.length < pos.rest.length ∧ i'.Mentions P := by
  rw [outerItem, peek_bind_apply]
  cases hrest : pos.rest with
  | nil => exact ⟨by simp, ⟨[], by simp [← hrest], by simp⟩, fun _ => hrest, by simp⟩
  | cons t rest =>
      have hne : pos.rest ≠ [] := by simp [hrest]
      have ht : P t.lexeme := hs.holds t (by simp [hrest])
      simp only [List.getElem?_cons_zero]
      split
      · -- A closing bracket that closes nothing is recorded and passed.
        simp only [bind_apply, note, advance, hrest, pure_apply, Reply.behind]
        refine ⟨?_, ⟨rest, rfl, by simp [hrest]⟩, by simp, ?_⟩
        · intro m hm
          obtain rfl : m = strayClose t := by simpa using hm
          intro u hu
          cases hu
          exact ht
        · rintro i ⟨⟩
          exact ⟨by simp, trivial⟩
      · refine onward_map ?_
        have onItem : (item inner (recovered (expression inner [])) ctx pos).Onward P pos
            fun i after => after.rest.length < pos.rest.length ∧ i.Mentions P := by
          rw [item, atDefinition_bind_apply]
          split
          · rename_i hhead
            obtain ⟨opened, tail, hcons, ho, hdef⟩ := begins_of_atDefinition hhead
            refine onward_map ?_
            have hform := onward_form hforms hne (form_definition_lands h hs hcons ho hdef)
            refine Reply.Ensures.mono hform ?_ (fun _ _ _ hF => hF)
            rintro p trace after ⟨hnotes, hafter, hlt, hp⟩
            exact ⟨hnotes, hafter, hlt, mentions_itemOfParsed hp⟩
          · exact onward_map (onward_recovered hs hne (tidy_expression h hs []))
        refine Reply.Ensures.mono onItem ?_ (fun _ _ _ hF => hF)
        rintro i trace after ⟨hnotes, hafter, hlt, hi⟩
        rw [hrest] at hlt
        refine ⟨hnotes, hafter, by simp, ?_⟩
        rintro i' ⟨⟩
        exact ⟨hlt, hi⟩

/-- Outside all forms there is a program, whatever the tokens are. All of them are read, and no
form is left open. -/
theorem program_ensures (ctx : Context) (pos : Position) (hs : Supply P n pos.rest)
    (hforms : pos.forms = []) :
    (program ctx pos).Ensures
      (fun p trace after => (∀ m ∈ trace.notes, m.Mentions P) ∧ after = pos.moveTo [] ∧
        p.Mentions P)
      (fun _ _ _ => False) := by
  have hs' : Supply P (pos.rest.length + 1) pos.rest := hs.of_length_lt (Nat.lt_succ_self _)
  have sorted := items_ensures (P := P) ctx (outerItem (nested pos.rest.length))
    (I := fun q => ∃ rest, q = pos.moveTo rest ∧ rest <:+ pos.rest)
    (E := fun q => q = pos.moveTo [])
    (T := fun trace => ∀ m ∈ trace.notes, m.Mentions P) (F := fun _ _ => False)
    false false (by simp)
    (fun s t hs ht m hm => (List.mem_append.1 hm).elim (hs m) (ht m))
    (fun s => by simpa using Diagnostic.mentions_of_found?_eq_none rfl) (by
      rintro started q ⟨rest, rfl, hrest⟩
      refine Reply.Ensures.mono (onward_outerItem (pos.moveTo rest) (nested_tidy ctx _)
        (hs'.of_suffix hrest) hforms started) ?_ (fun _ _ _ hF => hF.elim)
      rintro i trace after ⟨hnotes, ⟨us, rfl, hus⟩, hnone, hi⟩
      refine ⟨hnotes, ⟨us, rfl, hus.trans hrest⟩, ?_, hi⟩
      intro hi
      rw [Position.moveTo_moveTo, show us = [] from hnone hi])
    ⟨pos.rest, rfl, List.suffix_refl _⟩ (Nat.lt_succ_self _)
  refine Reply.Ensures.mono (ensures_bind (E := fun (p : Program) after =>
    after = pos.moveTo [] ∧ p.Mentions P) (F := fun _ _ => False)
    (fun s t hs ht m hm => (List.mem_append.1 hm).elim (hs m) (ht m)) sorted ?_) ?_ ?_
  · rintro ⟨defs, exprs⟩ after ⟨hafter, hdefs, hexprs⟩
    dsimp only [programOf]
    cases hbody : body? defs exprs with
    | some body => exact ⟨by simp, hafter, mentions_body? hbody hdefs hexprs⟩
    | none =>
        -- A program without an expression gets an error in its place.
        refine ⟨?_, hafter, Body.mentions_mk hdefs (by simp) (Expr.mentions_error _)⟩
        simpa using Diagnostic.mentions_of_found?_eq_none rfl
  · rintro p trace after ⟨hnotes, hafter, hp⟩
    exact ⟨hnotes, hafter, hp⟩
  · rintro why trace after ⟨-, h⟩
    exact h

/-- So there is an answer for any tokens in order. -/
theorem exists_program_eq_done (ctx : Context) (pos : Position) (hs : Supply P n pos.rest)
    (hforms : pos.forms = []) :
    ∃ p trace, program ctx pos = .done p trace (pos.moveTo []) ∧
      (∀ m ∈ trace.notes, m.Mentions P) ∧ p.Mentions P := by
  have key := program_ensures ctx pos hs hforms
  cases hr : program ctx pos with
  | done p trace after =>
      rw [hr] at key
      obtain ⟨hnotes, rfl, hp⟩ := key
      exact ⟨p, trace, rfl, hnotes, hp⟩
  | failed why trace after =>
      rw [hr] at key
      exact key.elim
  | fault fault =>
      rw [hr] at key
      exact key.elim

end Parse

end SchemeFront
