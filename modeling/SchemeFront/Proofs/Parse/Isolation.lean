import SchemeFront.Proofs.Parse.Nested
import SchemeFront.Proofs.Token.Hiding

set_option autoImplicit false

/-! # Tokens behind a form

What is parsed inside a form does not depend on the tokens behind the form. A parser is run twice:
on tokens in which the brackets around them are closed, and on these with more tokens behind
(`Position.onto`). Unless the first run gives a fault, the second one is the same run, and the more
tokens are left with the others (`Reply.Carries`). The rounds and levels that a run may take are
counted from the tokens there are, so the second run may take more of them
(`Parse.carries_nested`).
-/

namespace SchemeFront

open Token

variable {α β : Type} {us ts : List Token} {d e : Nat} {ctx : Context} {pos : Position}

/-! ## Two runs -/

/-- The position with the tokens `us` behind all others. -/
def Position.onto (us : List Token) (pos : Position) : Position := pos.moveTo (pos.rest ++ us)

/-- The same events, each with the tokens `us` behind all others. -/
def Trace.onto (us : List Token) (t : Trace) : Trace :=
  { t with positions := t.positions.map (Position.onto us) }

@[simp] theorem Position.onto_rest (us : List Token) (pos : Position) :
    (pos.onto us).rest = pos.rest ++ us := rfl

theorem Position.onto_nil (pos : Position) : pos.onto [] = pos := by
  rw [onto, List.append_nil, moveTo_self]

@[simp] theorem Trace.onto_append (us : List Token) (s t : Trace) :
    (s ++ t).onto us = s.onto us ++ t.onto us := by
  show Trace.mk _ _ = Trace.mk _ _
  simp [Trace.onto]

/-- Reading on from where `ts` is left, the answer `long` is `short` with the tokens `us` behind.
What is then left of `ts` hides them inside `d` brackets. A run that gives a fault says nothing. -/
def Reply.Carries (us : List Token) (d : Nat) (ts : List Token) (long : Reply α) :
    (short : Reply α) → Prop
  | done a trace after =>
      long = done a (trace.onto us) (after.onto us) ∧ after.rest <:+ ts ∧ Hides us d after.rest
  | failed why trace after =>
      long = failed why (trace.onto us) (after.onto us) ∧ after.rest <:+ ts ∧
        Hides us d after.rest
  | fault _ _ _ => True

namespace Reply.Carries

variable {long short : Reply α}

theorem mono {vs : List Token} (h : long.Carries us d ts short) (hs : ts <:+ vs)
    (hed : e ≤ d) : long.Carries us e vs short := by
  cases short with
  | done a trace after => exact ⟨h.1, h.2.1.trans hs, h.2.2.mono hed⟩
  | failed why trace after => exact ⟨h.1, h.2.1.trans hs, h.2.2.mono hed⟩
  | fault fault => trivial

theorem behind (h : long.Carries us d ts short) (earlier : Trace) :
    (long.behind (earlier.onto us)).Carries us d ts (short.behind earlier) := by
  cases short with
  | done a trace after =>
      obtain ⟨rfl, hafter⟩ := h
      exact ⟨by simp [Reply.behind], hafter⟩
  | failed why trace after =>
      obtain ⟨rfl, hafter⟩ := h
      exact ⟨by simp [Reply.behind], hafter⟩
  | fault fault => trivial

theorem leaving (h : long.Carries us d ts short) (counted : Bool) :
    (long.leaving counted).Carries us d ts (short.leaving counted) := by
  cases short with
  | done a trace after =>
      obtain ⟨rfl, hafter⟩ := h
      exact ⟨by simp only [Reply.leaving, Trace.onto_append]; rfl, hafter⟩
  | failed why trace after =>
      obtain ⟨rfl, hafter⟩ := h
      exact ⟨by simp only [Reply.leaving, Trace.onto_append]; rfl, hafter⟩
  | fault fault => trivial

end Reply.Carries

namespace Parse

variable {p q : Parse α} {f g : α → Parse β}

/-- One parser after the other. -/
theorem carries_bind (hed : d ≤ e) (hp : (p ctx (pos.onto us)).Carries us e pos.rest (q ctx pos))
    (hfg : ∀ a after, Hides us e after.rest →
      (f a ctx (after.onto us)).Carries us d after.rest (g a ctx after)) :
    ((p >>= f) ctx (pos.onto us)).Carries us d pos.rest ((q >>= g) ctx pos) := by
  rw [bind_apply, bind_apply]
  cases hr : q ctx pos with
  | done a trace after =>
      rw [hr] at hp
      obtain ⟨hlong, hsuffix, hafter⟩ := hp
      rw [hlong]
      exact ((hfg a after hafter).mono hsuffix (Nat.le_refl d)).behind trace
  | failed why trace after =>
      rw [hr] at hp
      obtain ⟨hlong, hsuffix, hafter⟩ := hp
      rw [hlong]
      exact ⟨rfl, hsuffix, hafter.mono hed⟩
  | fault fault => trivial

theorem carries_pure {a : α} (h : Hides us d pos.rest) :
    ((pure a : Parse α) ctx (pos.onto us)).Carries us d pos.rest ((pure a : Parse α) ctx pos) :=
  ⟨rfl, List.suffix_refl _, h⟩

theorem carries_map {f : α → β} (hp : (p ctx (pos.onto us)).Carries us d pos.rest (q ctx pos)) :
    ((f <$> p) ctx (pos.onto us)).Carries us d pos.rest ((f <$> q) ctx pos) := by
  rw [← bind_pure_comp, ← bind_pure_comp]
  exact carries_bind (Nat.le_refl d) hp fun a after h => carries_pure h

theorem carries_note {n : Diagnostic} (h : Hides us d pos.rest) :
    (note n ctx (pos.onto us)).Carries us d pos.rest (note n ctx pos) :=
  ⟨rfl, List.suffix_refl _, h⟩

theorem carries_reject {n : Diagnostic} (h : Hides us d pos.rest) :
    ((reject n : Parse α) ctx (pos.onto us)).Carries us d pos.rest
      ((reject n : Parse α) ctx pos) :=
  ⟨rfl, List.suffix_refl _, h⟩

/-- The next token is the same in both runs. -/
theorem carries_fail_of_ne {expected : List String} (hne : pos.rest ≠ [])
    (h : Hides us d pos.rest) :
    ((fail expected : Parse α) ctx (pos.onto us)).Carries us d pos.rest
      ((fail expected : Parse α) ctx pos) := by
  refine ⟨?_, List.suffix_refl _, h⟩
  unfold fail surprise
  rw [Position.onto_rest]
  cases hrest : pos.rest with
  | nil => exact absurd hrest hne
  | cons t ts => rfl

theorem carries_fail {expected : List String} (h : Hides us (d + 1) pos.rest) :
    ((fail expected : Parse α) ctx (pos.onto us)).Carries us (d + 1) pos.rest
      ((fail expected : Parse α) ctx pos) := by
  by_cases hne : pos.rest = []
  · obtain rfl := Hides.eq_nil (hne ▸ h)
    refine ⟨?_, List.suffix_refl _, h⟩
    rw [Position.onto_nil]
    rfl
  · exact carries_fail_of_ne hne h

theorem carries_advance (h : ∀ t ts, pos.rest = t :: ts → Hides us d ts) :
    (advance ctx (pos.onto us)).Carries us d pos.rest (advance ctx pos) := by
  unfold advance
  rw [Position.onto_rest]
  cases hrest : pos.rest with
  | nil => trivial
  | cons t ts => exact ⟨rfl, List.suffix_cons t ts, h t ts hrest⟩

theorem carries_advance_opens (h : Hides us (d + 1) pos.rest) {t : Token}
    (hnext : pos.rest[0]? = some t) (ht : t.opens = true) :
    (advance ctx (pos.onto us)).Carries us (d + 2) pos.rest (advance ctx pos) := by
  refine carries_advance ?_
  intro u ts hrest
  rw [hrest] at h hnext
  cases hnext
  exact h.of_cons_opens ht

theorem carries_advance_closes (h : Hides us (d + 1) pos.rest)
    (hcloses : pos.rest[0]?.any Token.closes = true) :
    (advance ctx (pos.onto us)).Carries us d pos.rest (advance ctx pos) := by
  refine carries_advance ?_
  intro t ts hrest
  rw [hrest] at h hcloses
  exact h.of_cons_closes hcloses

theorem carries_close (h : Hides us (d + 1) pos.rest) :
    (close ctx (pos.onto us)).Carries us d pos.rest (close ctx pos) := by
  rw [close, nextCloses_bind_apply, nextCloses_bind_apply, Position.onto_rest, h.getElem?_zero]
  split
  · rename_i hcloses
    exact carries_advance_closes h hcloses
  · exact (carries_fail h).mono (List.suffix_refl _) (Nat.le_succ d)

/-! ## Names -/

theorem carries_identifier (h : Hides us (d + 1) pos.rest) (also : List String) :
    (identifier also ctx (pos.onto us)).Carries us (d + 1) pos.rest (identifier also ctx pos) := by
  rw [identifier, peek_bind_apply, peek_bind_apply, Position.onto_rest, h.getElem?_zero]
  cases hname : pos.rest[0]?.bind Token.name? with
  | none => exact carries_fail h
  | some name =>
      refine carries_bind (Nat.le_refl _) (carries_advance ?_) fun _ _ h => carries_pure h
      intro t ts hrest
      rw [hrest] at h hname
      obtain ⟨ho, hc⟩ := name?_eq_some hname
      exact h.of_cons_plain ho hc

/-- More rounds than are needed change nothing. -/
theorem carries_withRounds {p q : Nat → Parse α}
    (hpq : ∀ m n, m ≤ n → (p n ctx (pos.onto us)).Carries us d pos.rest (q m ctx pos)) :
    (withRounds p ctx (pos.onto us)).Carries us d pos.rest (withRounds q ctx pos) :=
  hpq _ _ (by simp)

theorem carries_identifiers {m n : Nat} (hmn : m ≤ n) (h : Hides us (d + 1) pos.rest) :
    (identifiers n ctx (pos.onto us)).Carries us d pos.rest (identifiers m ctx pos) := by
  induction m generalizing n pos with
  | zero => trivial
  | succ m ih =>
      obtain ⟨n, rfl⟩ := Nat.exists_eq_add_of_le' (Nat.zero_lt_of_lt hmn)
      rw [identifiers, identifiers, nextCloses_bind_apply, nextCloses_bind_apply,
        Position.onto_rest, h.getElem?_zero]
      split
      · rename_i hcloses
        exact carries_bind (Nat.le_refl d) (carries_advance_closes h hcloses)
          fun _ _ h => carries_pure h
      · refine carries_bind (Nat.le_succ d) (carries_identifier h _) ?_
        intro first after h
        exact carries_bind (Nat.le_refl d) (ih (Nat.le_of_succ_le_succ hmn) h)
          fun _ _ h => carries_pure h

theorem carries_parameters (h : Hides us (d + 1) pos.rest) :
    (parameters ctx (pos.onto us)).Carries us d pos.rest (parameters ctx pos) := by
  refine carries_bind (Nat.le_refl d) (carries_withRounds fun _ _ hmn =>
    carries_identifiers hmn h) ?_
  intro params after h
  rw [distinct]
  cases repeated? [] params with
  | some i => exact carries_reject h
  | none => exact carries_pure h

theorem carries_formals (h : Hides us (d + 1) pos.rest) :
    (formals ctx (pos.onto us)).Carries us (d + 1) pos.rest (formals ctx pos) := by
  rw [formals, peek_bind_apply, peek_bind_apply, Position.onto_rest, h.getElem?_zero]
  cases hnext : pos.rest[0]? with
  | none => exact carries_fail h
  | some t =>
      dsimp only
      split
      · exact carries_bind (Nat.le_refl _) (carries_identifier h _) fun _ _ h => carries_pure h
      · split
        · rename_i hopens
          refine carries_bind (Nat.le_succ _) (carries_advance_opens h hnext hopens) ?_
          intro _ after h
          exact carries_bind (Nat.le_refl _) (carries_parameters h) fun _ _ h => carries_pure h
        · exact carries_fail h

/-! ## Forms -/

theorem carries_skip {start : List Token} (hextent : extent (start ++ us) = extent start)
    (hsuffix : pos.rest <:+ start) (hstart : Hides us d (start.drop (extent start)))
    (hrest : Hides us d pos.rest) :
    (skip (start ++ us) ctx (pos.onto us)).Carries us d start (skip start ctx pos) := by
  unfold skip
  rw [hextent, Position.onto_rest, List.length_append, List.length_append,
    Nat.add_sub_add_right]
  generalize hcount : max (extent start) (start.length - pos.rest.length) = count
  have hle : count ≤ start.length := by
    have := extent_le_length start
    omega
  dsimp only
  rw [List.take_append_of_le_length hle, List.drop_append_of_le_length hle]
  cases cover (start.take count) ctx.endOfInput with
  | error fault => trivial
  | ok span =>
      refine ⟨rfl, List.drop_suffix _ _, ?_⟩
      -- One comes behind the form, or stays where one is if that is behind it already.
      rw [Position.moveTo_rest]
      rcases Nat.le_total (start.length - pos.rest.length) (extent start) with hmax | hmax
      · rwa [← hcount, Nat.max_eq_left hmax]
      · obtain ⟨xs, rfl⟩ := hsuffix
        rw [← hcount, Nat.max_eq_right hmax, List.length_append, Nat.add_sub_cancel,
          List.drop_left]
        exact hrest

theorem carries_recover {start : List Token} {m : Diagnostic}
    (hextent : extent (start ++ us) = extent start) (hsuffix : pos.rest <:+ start)
    (hstart : Hides us d (start.drop (extent start))) (hrest : Hides us d pos.rest) :
    ((recover (start ++ us) m : Parse (Parsed α)) ctx (pos.onto us)).Carries us d start
      ((recover start m : Parse (Parsed α)) ctx pos) := by
  have hskip : (skip (start ++ us) ctx (pos.onto us)).Carries us d start (skip start ctx pos) :=
    carries_skip hextent hsuffix hstart hrest
  simp only [recover, bind_apply, note]
  refine Reply.Carries.behind ?_ (.ofNote m)
  cases hr : skip start ctx pos with
  | done span trace after =>
      rw [hr] at hskip
      obtain ⟨hlong, hafter⟩ := hskip
      rw [hlong]
      exact ⟨by simp [Reply.behind], hafter⟩
  | failed why trace after =>
      rw [hr] at hskip
      obtain ⟨hlong, hafter⟩ := hskip
      rw [hlong]
      exact ⟨rfl, hafter⟩
  | fault fault => trivial

section Boundary

variable {opened : Token} {tail : List Token}

/-- What happens when the form that begins with `opened` is skipped. -/
theorem carries_recover_form {m : Diagnostic} (ho : opened.opens = true)
    (h : Hides us (d + 1) tail) (hsuffix : pos.rest <:+ opened :: tail)
    (hrest : Hides us d pos.rest) :
    ((recover (opened :: tail ++ us) m : Parse (Parsed α)) ctx (pos.onto us)).Carries us d
      (opened :: tail) ((recover (opened :: tail) m : Parse (Parsed α)) ctx pos) := by
  have hone : Hides us 1 tail := h.mono (by omega)
  exact carries_recover (hone.extent_append ho) hsuffix (h.drop_extent ho) hrest

/-- A failure inside a form passes its boundary in both runs, or is recorded in both. -/
theorem carries_guarded (construct : String) {p q : Parse α} {inside : Position}
    (hrest : pos.rest = opened :: tail) (ho : opened.opens = true) (h : Hides us (d + 1) tail)
    (hinner : (p ctx (inside.onto us)).Carries us d tail (q ctx inside)) :
    (guarded construct (pos.onto us) opened p ctx (inside.onto us)).Carries us d (opened :: tail)
      (guarded construct pos opened q ctx inside) := by
  have hsuffix : tail <:+ opened :: tail := List.suffix_cons opened tail
  unfold guarded
  cases hr : q ctx inside with
  | done a trace after =>
      rw [hr] at hinner
      obtain ⟨hlong, hafter, hhides⟩ := hinner
      rw [hlong]
      exact ⟨rfl, hafter.trans hsuffix, hhides⟩
  | failed why trace after =>
      rw [hr] at hinner
      obtain ⟨hlong, hafter, hhides⟩ := hinner
      rw [hlong, Position.onto_rest, hrest]
      dsimp only
      show Reply.Carries us d _ (if why.atEnd && !pos.forms.isEmpty then _ else _) _
      split
      · exact ⟨rfl, hafter.trans hsuffix, hhides⟩
      · exact (carries_recover_form ho h (hafter.trans hsuffix) hhides).behind trace
  | fault fault => trivial

/-- A form is parsed in the same way if what is inside is, with its closing bracket. -/
theorem carries_form (construct : String) {p q : Token → Parse α}
    (hrest : pos.rest = opened :: tail) (ho : opened.opens = true) (h : Hides us (d + 1) tail)
    (hpq : ∀ counted, (p opened ctx ((pos.enter counted tail).onto us)).Carries us d tail
      (q opened ctx (pos.enter counted tail))) :
    (form construct p ctx (pos.onto us)).Carries us d pos.rest (form construct q ctx pos) := by
  unfold form
  rw [Position.onto_rest, hrest]
  dsimp only
  show Reply.Carries us d (opened :: tail)
    (if ctx.counts pos opened && decide (ctx.limit ≤ pos.depth) then _ else _) _
  split
  · have hsuffix : pos.rest <:+ opened :: tail := hrest ▸ List.suffix_refl pos.rest
    refine carries_recover_form ho h hsuffix ?_
    rw [hrest]
    exact h.cons_opens ho
  · exact ((carries_guarded construct hrest ho h (hpq _)).behind (.ofPosition _)).leaving _

end Boundary

end Parse

/-- Inside brackets, the parsers `short` can be given fewer tokens than the parsers `long`. -/
structure Inner.Carries (us : List Token) (ctx : Context) (long short : Inner) : Prop where
  expr : ∀ also pos d, Hides us (d + 1) pos.rest →
    (long.expr also ctx (pos.onto us)).Carries us (d + 1) pos.rest (short.expr also ctx pos)
  body : ∀ pos d, Hides us (d + 1) pos.rest →
    (long.body ctx (pos.onto us)).Carries us (d + 1) pos.rest (short.body ctx pos)

namespace Parse

variable {long short : Inner} {opened : Token}

theorem carries_advance_keyword {k : Keyword} (h : Hides us (d + 1) pos.rest)
    (hhead : pos.rest[0]?.map Token.lexeme = some (.keyword k)) (ho : k ≠ .opening)
    (hc : k ≠ .closing) :
    (advance ctx (pos.onto us)).Carries us (d + 1) pos.rest (advance ctx pos) := by
  refine carries_advance ?_
  intro t ts hrest
  simp only [hrest, List.getElem?_cons_zero, Option.map_some, Option.some.injEq] at hhead
  rw [hrest] at h
  refine h.of_cons_plain ?_ ?_
  · simp [Token.opens, Token.isKeyword, hhead, ho]
  · simp [Token.closes, Token.isKeyword, hhead, hc]

theorem carries_alternative (hin : long.Carries us ctx short) (h : Hides us (d + 1) pos.rest) :
    (alternative long ctx (pos.onto us)).Carries us (d + 1) pos.rest
      (alternative short ctx pos) := by
  rw [alternative, alternative, nextCloses_bind_apply, nextCloses_bind_apply,
    Position.onto_rest, h.getElem?_zero]
  split
  · exact carries_pure h
  · exact carries_map (hin.expr _ pos d h)

/-- The last step inside a form: its closing bracket. -/
theorem carries_closed {f : Token → α} (h : Hides us (d + 1) pos.rest) :
    ((do let closed ← close; return f closed : Parse α) ctx (pos.onto us)).Carries us d pos.rest
      ((do let closed ← close; return f closed : Parse α) ctx pos) :=
  carries_bind (Nat.le_refl d) (carries_close h) fun _ _ h => carries_pure h

theorem carries_conditional (hin : long.Carries us ctx short) (h : Hides us (d + 1) pos.rest)
    (hhead : pos.rest[0]?.map Token.lexeme = some (.keyword .conditional)) :
    (conditional long opened ctx (pos.onto us)).Carries us d pos.rest
      (conditional short opened ctx pos) := by
  rw [conditional, conditional]
  refine carries_bind (Nat.le_succ d) (carries_advance_keyword h hhead (by decide) (by decide)) ?_
  intro _ _ h
  refine carries_bind (Nat.le_succ d) (hin.expr _ _ d h) ?_
  intro test _ h
  refine carries_bind (Nat.le_succ d) (hin.expr _ _ d h) ?_
  intro conseq _ h
  refine carries_bind (Nat.le_succ d) (carries_alternative hin h) ?_
  intro alter _ h
  exact carries_closed h

theorem carries_procedure (hin : long.Carries us ctx short) (h : Hides us (d + 1) pos.rest)
    (hhead : pos.rest[0]?.map Token.lexeme = some (.keyword .lambda)) :
    (procedure long opened ctx (pos.onto us)).Carries us d pos.rest
      (procedure short opened ctx pos) := by
  rw [procedure, procedure]
  refine carries_bind (Nat.le_succ d) (carries_advance_keyword h hhead (by decide) (by decide)) ?_
  intro _ _ h
  refine carries_bind (Nat.le_succ d) (carries_formals h) ?_
  intro found _ h
  refine carries_bind (Nat.le_succ d) (hin.body _ d h) ?_
  intro body _ h
  exact carries_closed h

theorem carries_assignment (hin : long.Carries us ctx short) (h : Hides us (d + 1) pos.rest)
    (hhead : pos.rest[0]?.map Token.lexeme = some (.keyword .assign)) :
    (assignment long opened ctx (pos.onto us)).Carries us d pos.rest
      (assignment short opened ctx pos) := by
  rw [assignment, assignment]
  refine carries_bind (Nat.le_succ d) (carries_advance_keyword h hhead (by decide) (by decide)) ?_
  intro _ _ h
  refine carries_bind (Nat.le_succ d) (carries_identifier h _) ?_
  intro target _ h
  refine carries_bind (Nat.le_succ d) (hin.expr _ _ d h) ?_
  intro value _ h
  exact carries_closed h

theorem carries_arguments (hin : long.Carries us ctx short) {m n : Nat} (hmn : m ≤ n)
    (h : Hides us (d + 1) pos.rest) :
    (arguments long n ctx (pos.onto us)).Carries us (d + 1) pos.rest
      (arguments short m ctx pos) := by
  induction m generalizing n pos with
  | zero => trivial
  | succ m ih =>
      obtain ⟨n, rfl⟩ := Nat.exists_eq_add_of_le' (Nat.zero_lt_of_lt hmn)
      rw [arguments, arguments, nextCloses_bind_apply, nextCloses_bind_apply,
        Position.onto_rest, h.getElem?_zero]
      split
      · exact carries_pure h
      · refine carries_bind (Nat.le_refl _) (hin.expr _ pos d h) ?_
        intro first after h
        exact carries_bind (Nat.le_refl _) (ih (Nat.le_of_succ_le_succ hmn) h)
          fun _ _ h => carries_pure h

theorem carries_call (hin : long.Carries us ctx short) (h : Hides us (d + 1) pos.rest) :
    (call long opened ctx (pos.onto us)).Carries us d pos.rest (call short opened ctx pos) := by
  rw [call, call]
  refine carries_bind (Nat.le_succ d) (hin.expr _ _ d h) ?_
  intro operator _ h
  refine carries_bind (Nat.le_succ d) (carries_withRounds fun _ _ hmn =>
    carries_arguments hin hmn h) ?_
  intro args _ h
  exact carries_closed h

theorem carries_strayDefinition (opened : Token) (h : Hides us (d + 1) pos.rest) :
    (strayDefinition opened ctx (pos.onto us)).Carries us d pos.rest
      (strayDefinition opened ctx pos) := by
  rw [strayDefinition, peek_bind_apply, peek_bind_apply, Position.onto_rest, h.getElem?_zero]
  cases pos.rest[0]? with
  | none => trivial
  | some word => exact carries_reject (h.mono (Nat.le_succ d))

theorem carries_formOf (hin : long.Carries us ctx short) (pos : Position)
    (h : Hides us (d + 1) pos.rest) :
    ((formOf long pos.rest[0]?).2 opened ctx (pos.onto us)).Carries us d pos.rest
      ((formOf short pos.rest[0]?).2 opened ctx pos) := by
  unfold formOf
  split
  · rename_i hhead
    exact carries_conditional hin h hhead
  · rename_i hhead
    exact carries_procedure hin h hhead
  · rename_i hhead
    exact carries_assignment hin h hhead
  · exact carries_strayDefinition opened h
  · exact carries_call hin h

/-! ## Expressions and definitions -/

theorem formOf_fst (inner inner' : Inner) (head : Option Token) :
    (formOf inner head).1 = (formOf inner' head).1 := by
  unfold formOf
  split <;> rfl

/-- A form that begins with a bracket, around which `us` need not be hidden. -/
theorem carries_compound (hin : long.Carries us ctx short) {tail : List Token}
    (hrest : pos.rest = opened :: tail) (ho : opened.opens = true) (h : Hides us (d + 1) tail) :
    (compound long ctx (pos.onto us)).Carries us d pos.rest (compound short ctx pos) := by
  have hhead : (pos.rest ++ us)[1]? = tail[0]? := by
    rw [hrest, List.cons_append, List.getElem?_cons_succ, h.getElem?_zero]
  have hhead' : pos.rest[1]? = tail[0]? := by simp [hrest]
  rw [compound, compound, peek_bind_apply, peek_bind_apply, Position.onto_rest, hhead, hhead',
    formOf_fst long short]
  refine carries_map (carries_form _ hrest ho h ?_)
  intro counted
  exact carries_formOf hin (pos.enter counted tail) h

/-- An expression, around which `us` need not be hidden if it begins with a bracket. -/
theorem carries_expression_cons (hin : long.Carries us ctx short) {t : Token}
    (hrest : pos.rest = t :: ts) (h : Hides us d (t :: ts))
    (hopens : t.opens = true → Hides us (d + 1) ts)
    (hplain : t.opens = false → t.closes = false → Hides us d ts) (also : List String) :
    (expression long also ctx (pos.onto us)).Carries us d pos.rest
      (expression short also ctx pos) := by
  rw [expression, expression, peek_bind_apply, peek_bind_apply, Position.onto_rest]
  have hnext : (pos.rest ++ us)[0]? = some t := by simp [hrest]
  have hnext' : pos.rest[0]? = some t := by simp [hrest]
  have hfail : ((fail (expressionName :: also) : Parse Expr) ctx (pos.onto us)).Carries us d
      pos.rest ((fail (expressionName :: also) : Parse Expr) ctx pos) :=
    carries_fail_of_ne (by simp [hrest]) (hrest ▸ h)
  rw [hnext, hnext']
  obtain ⟨l, s⟩ := t
  cases l with
  | atom a =>
      refine carries_bind (Nat.le_refl d) (carries_advance ?_) fun _ _ h => carries_pure h
      intro t ts' hcons
      obtain ⟨-, rfl⟩ := List.cons.inj (hrest.symm.trans hcons)
      exact hplain rfl rfl
  | keyword k =>
      cases k with
      | opening => exact carries_compound hin hrest rfl (hopens rfl)
      | _ => exact hfail

theorem carries_expression (hin : long.Carries us ctx short) (h : Hides us (d + 1) pos.rest)
    (also : List String) :
    (expression long also ctx (pos.onto us)).Carries us (d + 1) pos.rest
      (expression short also ctx pos) := by
  cases hrest : pos.rest with
  | nil =>
      obtain rfl := Hides.eq_nil (hrest ▸ h)
      rw [expression, expression, peek_bind_apply, peek_bind_apply, Position.onto_rest,
        List.append_nil, hrest]
      have hfail : ((fail (expressionName :: also) : Parse Expr) ctx (pos.onto [])).Carries []
          (d + 1) pos.rest ((fail (expressionName :: also) : Parse Expr) ctx pos) := carries_fail h
      rwa [hrest] at hfail
  | cons t ts =>
      rw [hrest] at h
      rw [← hrest]
      exact carries_expression_cons hin hrest h h.of_cons_opens h.of_cons_plain also

theorem carries_namedValue (hin : long.Carries us ctx short) (h : Hides us (d + 1) pos.rest) :
    (namedValue long opened ctx (pos.onto us)).Carries us d pos.rest
      (namedValue short opened ctx pos) := by
  rw [namedValue, namedValue]
  refine carries_bind (Nat.le_succ d) (carries_identifier h _) ?_
  intro name _ h
  refine carries_bind (Nat.le_succ d) (hin.expr _ _ d h) ?_
  intro value _ h
  exact carries_closed h

theorem carries_namedProcedure (hin : long.Carries us ctx short) (h : Hides us (d + 1) pos.rest)
    {t : Token} (hnext : pos.rest[0]? = some t) (ht : t.opens = true) :
    (namedProcedure long opened ctx (pos.onto us)).Carries us d pos.rest
      (namedProcedure short opened ctx pos) := by
  rw [namedProcedure, namedProcedure]
  refine carries_bind (by omega) (carries_advance_opens h hnext ht) ?_
  intro _ _ h
  refine carries_bind (by omega) (carries_identifier h _) ?_
  intro name _ h
  refine carries_bind (Nat.le_succ d) (carries_parameters h) ?_
  intro params _ h
  refine carries_bind (Nat.le_succ d) (hin.body _ d h) ?_
  intro body _ h
  exact carries_closed h

theorem carries_definition (hin : long.Carries us ctx short) (pos : Position)
    (h : Hides us (d + 1) pos.rest)
    (hhead : pos.rest[0]?.map Token.lexeme = some (.keyword .define)) :
    (definition long opened ctx (pos.onto us)).Carries us d pos.rest
      (definition short opened ctx pos) := by
  rw [definition, definition]
  refine carries_bind (Nat.le_succ d)
    (carries_advance_keyword h hhead (by decide) (by decide)) ?_
  intro _ after h
  rw [peek_bind_apply, peek_bind_apply, Position.onto_rest, h.getElem?_zero]
  have hfail : ∀ expected, ((fail expected : Parse Definition) ctx (after.onto us)).Carries us d
      after.rest ((fail expected : Parse Definition) ctx after) := fun expected =>
    (carries_fail h).mono (List.suffix_refl _) (Nat.le_succ d)
  cases hnext : after.rest[0]? with
  | none => exact hfail _
  | some t =>
      dsimp only
      split
      · exact carries_namedValue hin h
      · split
        · rename_i hopens
          exact carries_namedProcedure hin h hnext hopens
        · exact hfail _

/-! ## Bodies -/

/-- A definition that begins with a bracket, around which `us` need not be hidden. -/
theorem carries_form_definition (hin : long.Carries us ctx short) {tail : List Token}
    (hrest : pos.rest = opened :: tail) (ho : opened.opens = true) (h : Hides us (d + 1) tail)
    (hhead : tail[0]?.map Token.lexeme = some (.keyword .define)) :
    (form "definition" (definition long) ctx (pos.onto us)).Carries us d pos.rest
      (form "definition" (definition short) ctx pos) := by
  refine carries_form _ hrest ho h ?_
  intro counted
  exact carries_definition hin (pos.enter counted tail) h hhead

/-- Whether an item is a definition is told by its own tokens. -/
theorem atDefinition_append {t : Token} (h : t.opens = true → Hides us 1 ts) :
    ((t :: ts ++ us)[0]?.any Token.opens && (t :: ts ++ us)[1]?.any (Token.isKeyword .define)) =
      ((t :: ts)[0]?.any Token.opens && (t :: ts)[1]?.any (Token.isKeyword .define)) := by
  cases ho : t.opens with
  | false => simp [ho]
  | true => simp [(h ho).getElem?_zero]

theorem carries_item {p q : Parse Expr} (hin : long.Carries us ctx short) {t : Token}
    (hrest : pos.rest = t :: ts) (h : t.opens = true → Hides us (d + 1) ts)
    (hpq : (p ctx (pos.onto us)).Carries us d pos.rest (q ctx pos)) :
    (item long p ctx (pos.onto us)).Carries us d pos.rest (item short q ctx pos) := by
  have hsame := atDefinition_append fun ho => (h ho).mono (Nat.le_add_left 1 d)
  rw [← hrest] at hsame
  rw [item, item, atDefinition_bind_apply, atDefinition_bind_apply, Position.onto_rest, hsame]
  split
  · rename_i hhead
    obtain ⟨opened, tail, hcons, ho, hdef⟩ := begins_of_atDefinition hhead
    obtain ⟨rfl, rfl⟩ := List.cons.inj (hrest.symm.trans hcons)
    exact carries_map (carries_form_definition hin hrest ho (h ho) hdef)
  · exact carries_map hpq

/-- Items are sorted in the same way, and further rounds change nothing. -/
theorem carries_items {next next' : Bool → Parse (Option BodyItem)}
    (hnext : ∀ started pos, Hides us d pos.rest →
      (next started ctx (pos.onto us)).Carries us d pos.rest (next' started ctx pos))
    {m n : Nat} (hmn : m ≤ n) (h : Hides us d pos.rest) (started seen : Bool) :
    (items next started seen n ctx (pos.onto us)).Carries us d pos.rest
      (items next' started seen m ctx pos) := by
  induction m generalizing n pos started seen with
  | zero => trivial
  | succ m ih =>
      obtain ⟨n, rfl⟩ := Nat.exists_eq_add_of_le' (Nat.zero_lt_of_lt hmn)
      have hmn := Nat.le_of_succ_le_succ hmn
      rw [items, items]
      refine carries_bind (Nat.le_refl d) (hnext started pos h) ?_
      intro i? after h
      cases i? with
      | none => exact carries_pure h
      | some i =>
          cases i with
          | nothing => exact ih hmn h started seen
          | expression e =>
              exact carries_bind (Nat.le_refl d) (ih hmn h _ _) fun _ _ h => carries_pure h
          | definition d =>
              dsimp only
              split
              · refine carries_bind (Nat.le_refl _) (carries_note h) ?_
                intro _ after h
                exact carries_bind (Nat.le_refl _) (ih hmn h _ _) fun _ _ h => carries_pure h
              · exact carries_bind (Nat.le_refl _) (ih hmn h _ _) fun _ _ h => carries_pure h

theorem carries_innerItem (hin : long.Carries us ctx short) (h : Hides us (d + 1) pos.rest)
    (started : Bool) :
    (innerItem long started ctx (pos.onto us)).Carries us (d + 1) pos.rest
      (innerItem short started ctx pos) := by
  rw [innerItem, innerItem, peek_bind_apply, peek_bind_apply, Position.onto_rest,
    h.getElem?_zero]
  cases hnext : pos.rest[0]? with
  | none => exact carries_pure h
  | some t =>
      obtain ⟨ts, hrest⟩ := List.head?_eq_some_iff.1 (by rwa [List.head?_eq_getElem?])
      dsimp only
      split
      · exact carries_pure h
      · refine carries_map (carries_item hin hrest ?_ (carries_expression hin h _))
        intro ho
        rw [hrest] at h
        exact h.of_cons_opens ho

theorem carries_bracketedBody (hin : long.Carries us ctx short) (h : Hides us (d + 1) pos.rest) :
    (bracketedBody long ctx (pos.onto us)).Carries us (d + 1) pos.rest
      (bracketedBody short ctx pos) := by
  rw [bracketedBody, bracketedBody]
  refine carries_bind (Nat.le_refl _) (carries_withRounds fun _ _ hmn => carries_items
    (fun started _ h => carries_innerItem hin h started) hmn h false false) ?_
  rintro ⟨defs, exprs⟩ after h
  dsimp only
  cases body? defs exprs with
  | some body => exact carries_pure h
  | none => exact carries_fail h

/-- **What is inside brackets is parsed in isolation.** More tokens behind the brackets, and
parsers for more levels, change nothing of what is parsed inside. -/
theorem carries_nested {m n : Nat} (hmn : m ≤ n) (us : List Token) (ctx : Context) :
    (nested n).Carries us ctx (nested m) := by
  induction m generalizing n with
  | zero => exact ⟨fun _ _ _ _ => trivial, fun _ _ _ => trivial⟩
  | succ m ih =>
      obtain ⟨n, rfl⟩ := Nat.exists_eq_add_of_le' (Nat.zero_lt_of_lt hmn)
      have hin := ih (Nat.le_of_succ_le_succ hmn)
      exact ⟨fun also _ _ h => carries_expression hin h also,
        fun _ _ h => carries_bracketedBody hin h⟩

end Parse

end SchemeFront
