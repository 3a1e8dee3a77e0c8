import SchemeFront.Parse
import SchemeFront.Proofs.Mentions
import SchemeFront.Proofs.Token.Nesting

set_option autoImplicit false

/-! # Tidy parsers

A parser that is used inside a form is **tidy** (`Reply.Tidy`) if it leaves the open forms as they
are, does not go behind the bracket that closes the form, fails for the end of the input only
there, and gives no fault. Its findings mention only tokens of the input, which is said with a
predicate `P` that holds of them all. Tidiness is preserved by sequencing (`Parse.tidy_bind`). A
parser for all that is inside a form reads the closing bracket too, as its last step
(`Reply.Closing`).
-/

namespace SchemeFront

open Token

variable {α β : Type} {P : Lexeme → Prop} {ctx : Context} {pos : Position} {d e f n : Nat}

/-! ## Answers without a fault -/

/-- The answer is a value or a failure with the given properties. -/
def Reply.Ensures (onDone : α → Trace → Position → Prop)
    (onFailed : Diagnostic → Trace → Position → Prop) : Reply α → Prop
  | done a trace after => onDone a trace after
  | failed why trace after => onFailed why trace after
  | fault _ _ _ => False

theorem Reply.Ensures.mono {r : Reply α} {D D' : α → Trace → Position → Prop}
    {F F' : Diagnostic → Trace → Position → Prop} (h : r.Ensures D F)
    (hD : ∀ a trace after, D a trace after → D' a trace after)
    (hF : ∀ why trace after, F why trace after → F' why trace after) : r.Ensures D' F' := by
  cases r with
  | done a trace after => exact hD a trace after h
  | failed why trace after => exact hF why trace after h
  | fault fault => exact h

/-- Parsers one after the other. What `T` says of their traces holds of the whole trace. -/
theorem Parse.ensures_bind {p : Parse α} {g : α → Parse β} {T : Trace → Prop}
    {D : α → Position → Prop} {E : β → Position → Prop} {F : Diagnostic → Position → Prop}
    (happend : ∀ s t, T s → T t → T (s ++ t))
    (hp : (p ctx pos).Ensures (fun a trace after => T trace ∧ D a after)
      (fun why trace after => T trace ∧ F why after))
    (hg : ∀ a after, D a after → (g a ctx after).Ensures
      (fun b trace last => T trace ∧ E b last) (fun why trace last => T trace ∧ F why last)) :
    ((p >>= g) ctx pos).Ensures (fun b trace last => T trace ∧ E b last)
      (fun why trace last => T trace ∧ F why last) := by
  rw [bind_apply]
  cases hr : p ctx pos with
  | done a trace after =>
      rw [hr] at hp
      have hga := hg a after hp.2
      dsimp only
      cases hb : g a ctx after with
      | done b more last =>
          rw [hb] at hga
          exact ⟨happend trace more hp.1 hga.1, hga.2⟩
      | failed why more last =>
          rw [hb] at hga
          exact ⟨happend trace more hp.1 hga.1, hga.2⟩
      | fault fault =>
          rw [hb] at hga
          exact hga
  | failed why trace after =>
      rw [hr] at hp
      exact hp
  | fault fault =>
      rw [hr] at hp
      exact hp

/-! ## What happens inside a form -/

/-- The tokens that are left to read: there are fewer than `n`, they are in order, and `P` holds of
what they say. -/
structure Supply (P : Lexeme → Prop) (n : Nat) (ts : List Token) : Prop where
  length_lt : ts.length < n
  ascending : Ascending ts
  holds : ∀ t ∈ ts, P t.lexeme

theorem Supply.of_suffix {ts us : List Token} (h : Supply P n ts) (hs : us <:+ ts) :
    Supply P n us where
  length_lt := Nat.lt_of_le_of_lt hs.length_le h.length_lt
  ascending := h.ascending.of_suffix hs
  holds t ht := h.holds t (hs.mem ht)

theorem Supply.of_length_lt {m : Nat} {ts : List Token} (h : Supply P n ts)
    (hm : ts.length < m) : Supply P m ts := { h with length_lt := hm }

/-- What is behind the next token. -/
theorem Supply.tail {t : Token} {ts us : List Token} (h : Supply P (n + 1) ts)
    (hts : ts = t :: us) : Supply P n us := by
  have hlt := h.length_lt
  rw [hts, List.length_cons] at hlt
  exact (h.of_suffix (hts ▸ List.suffix_cons t us)).of_length_lt (Nat.lt_of_succ_lt_succ hlt)

/-- What happened while reading on from `ts`, where `d` brackets are open inside a form. -/
structure Trace.Within (P : Lexeme → Prop) (d : Nat) (ts : List Token) (trace : Trace) : Prop where
  reaches : ∀ q ∈ trace.positions, Reaches d ts q.rest
  mentions : ∀ n ∈ trace.notes, n.Mentions P

namespace Trace.Within

variable {ts us : List Token} {s t : Trace}

theorem empty : Within P d ts ∅ := ⟨by simp, by simp⟩

theorem append (hs : s.Within P d ts) (ht : t.Within P d ts) : (s ++ t).Within P d ts where
  reaches q hq := (List.mem_append.1 hq).elim (hs.reaches q) (ht.reaches q)
  mentions n hn := (List.mem_append.1 hn).elim (hs.mentions n) (ht.mentions n)

theorem of_passes (h : Passes d e ts us) (ht : t.Within P e us) : t.Within P d ts where
  reaches q hq := h.trans_reaches (ht.reaches q hq)
  mentions := ht.mentions

theorem ofPosition {q : Position} (h : Reaches d ts q.rest) : Within P d ts (.ofPosition q) where
  reaches := by simpa using h
  mentions := by simp

theorem ofNote {n : Diagnostic} (h : n.Mentions P) : Within P d ts (.ofNote n) where
  reaches := by simp
  mentions := by simpa using h

end Trace.Within

/-! ## Tidiness -/

/-- The answer to reading on from `pos`, with `d` brackets open inside a form, until `e` are open.
`Q` holds of the value and the tokens that are left. -/
def Reply.Tidy (P : Lexeme → Prop) (d e : Nat) (pos : Position) (Q : α → List Token → Prop) :
    Reply α → Prop :=
  Ensures
    (fun a trace after => ∃ rest, after = pos.moveTo rest ∧ Passes d e pos.rest rest ∧
      trace.Within P d pos.rest ∧ Q a rest)
    (fun why trace after => ∃ rest, after = pos.moveTo rest ∧ Reaches d pos.rest rest ∧
      trace.Within P d pos.rest ∧ why.Mentions P ∧ (why.atEnd = true → rest = []))

namespace Reply.Tidy

variable {Q R : α → List Token → Prop} {r : Reply α}

theorem mono (h : r.Tidy P d e pos Q) (hQ : ∀ a rest, Q a rest → R a rest) :
    r.Tidy P d e pos R := by
  refine Ensures.mono h ?_ (fun _ _ _ hF => hF)
  rintro a trace after ⟨rest, hafter, hpass, htrace, ha⟩
  exact ⟨rest, hafter, hpass, htrace, hQ a rest ha⟩

/-- An answer to reading on from where one had come to. -/
theorem behind {rest : List Token} {trace : Trace} (hpass : Passes d e pos.rest rest)
    (htrace : trace.Within P d pos.rest) (h : r.Tidy P e f (pos.moveTo rest) Q) :
    (r.behind trace).Tidy P d f pos Q := by
  cases r with
  | done a more after =>
      obtain ⟨us, hafter, hus, hmore, ha⟩ := h
      exact ⟨us, hafter, hpass.trans hus, htrace.append (hmore.of_passes hpass), ha⟩
  | failed why more after =>
      obtain ⟨us, hafter, hus, hmore, hwhy⟩ := h
      exact ⟨us, hafter, hpass.trans_reaches hus, htrace.append (hmore.of_passes hpass), hwhy⟩
  | fault fault => exact h

end Reply.Tidy

namespace Parse

variable {p : Parse α} {g : α → Parse β} {Q : α → List Token → Prop}
  {R : β → List Token → Prop}

/-- Tidy parsers one after the other are tidy. -/
theorem tidy_bind (hs : Supply P n pos.rest) (hp : (p ctx pos).Tidy P d e pos Q)
    (hg : ∀ a rest, Supply P n rest → Q a rest →
      (g a ctx (pos.moveTo rest)).Tidy P e f (pos.moveTo rest) R) :
    ((p >>= g) ctx pos).Tidy P d f pos R := by
  cases hr : p ctx pos with
  | done a trace after =>
      rw [hr] at hp
      obtain ⟨rest, rfl, hpass, htrace, ha⟩ := hp
      rw [bind_apply, hr]
      exact (hg a rest (hs.of_suffix hpass.suffix) ha).behind hpass htrace
  | failed why trace after =>
      rw [hr] at hp
      rw [bind_apply, hr]
      exact hp
  | fault fault =>
      rw [hr] at hp
      exact hp.elim

theorem tidy_pure {a : α} (ha : Q a pos.rest) :
    ((pure a : Parse α) ctx pos).Tidy P d d pos Q :=
  ⟨pos.rest, rfl, Passes.refl d pos.rest, .empty, ha⟩

/-- Changing the value keeps a parser tidy. -/
theorem tidy_map {h : α → β} (hp : (p ctx pos).Tidy P d e pos fun a rest => R (h a) rest) :
    ((h <$> p) ctx pos).Tidy P d e pos R := by
  rw [← bind_pure_comp, bind_apply]
  cases hr : p ctx pos with
  | done a trace after =>
      rw [hr] at hp
      obtain ⟨rest, rfl, hpass, htrace, ha⟩ := hp
      exact ⟨rest, rfl, hpass, by simpa using htrace, ha⟩
  | failed why trace after =>
      rw [hr] at hp
      exact hp
  | fault fault =>
      rw [hr] at hp
      exact hp.elim

/-! ## Single steps -/

theorem tidy_advance {Q : Token → List Token → Prop} {t : Token} {rest : List Token}
    (h : pos.rest = t :: rest) (hpass : Passes d e (t :: rest) rest) (hQ : Q t rest) :
    (advance ctx pos).Tidy P d e pos Q := by
  simp only [advance, h]
  rw [← h] at hpass
  exact ⟨rest, rfl, hpass, .ofPosition hpass.reaches, hQ⟩

/-- A finding of another kind than the end of the input can be made anywhere. -/
theorem tidy_reject {why : Diagnostic} (hm : why.Mentions P) (hwhy : why.atEnd = false) :
    ((reject why : Parse α) ctx pos).Tidy P d e pos Q :=
  ⟨pos.rest, rfl, Reaches.refl d pos.rest, .empty, hm, by simp [hwhy]⟩

/-- The next token, or the end of the input, can be refused anywhere. -/
theorem tidy_fail {expected : List String} (hs : Supply P n pos.rest) :
    ((fail expected : Parse α) ctx pos).Tidy P d e pos Q := by
  refine ⟨pos.rest, rfl, Reaches.refl d pos.rest, .empty, ?_⟩
  -- What was found instead is a token of the input, or nothing: only then is it the end.
  rw [surprise]
  cases hrest : pos.rest with
  | nil => exact ⟨Diagnostic.mentions_of_found?_eq_none rfl, fun _ => rfl⟩
  | cons t rest =>
      have ht : P t.lexeme := hs.holds t (by simp [hrest])
      constructor
      · intro u hu
        cases hu
        exact ht
      · intro h
        cases h

theorem tidy_identifier {also : List String} (hs : Supply P n pos.rest) :
    (identifier also ctx pos).Tidy P d d pos fun _ rest => rest.length < pos.rest.length := by
  rw [identifier, peek_bind_apply]
  cases hrest : pos.rest with
  | nil => exact tidy_fail hs
  | cons t rest =>
      simp only [List.getElem?_cons_zero, Option.bind_some]
      cases hname : t.name? with
      | none => exact tidy_fail hs
      | some name =>
          obtain ⟨ho, hc⟩ := name?_eq_some hname
          refine tidy_bind hs (tidy_advance hrest (passes_cons_of_plain ho hc d rest)
            (Q := fun _ us => us = rest) rfl) ?_
          rintro u us - rfl
          exact tidy_pure (by simp)

/-! ## Closing brackets -/

/-- The next token closes a bracket. -/
theorem nextCloses_eq_true {ts : List Token} (h : ts[0]?.any Token.closes = true) :
    ∃ c rest, ts = c :: rest ∧ c.closes = true := by
  cases ts with
  | nil => cases h
  | cons c rest => exact ⟨c, rest, rfl, h⟩

end Parse

/-- The answer to reading all that is inside a form, from behind its bracket to behind the bracket
that closes it. -/
def Reply.Closing (P : Lexeme → Prop) (pos : Position) (Q : α → Prop) : Reply α → Prop :=
  Ensures
    (fun a trace after => ∃ c rest, after = pos.moveTo rest ∧ c.closes = true ∧
      Passes 0 0 pos.rest (c :: rest) ∧
      (∃ earlier, trace.positions = earlier ++ [after] ∧
        ∀ q ∈ earlier, Reaches 0 pos.rest q.rest) ∧
      (∀ n ∈ trace.notes, n.Mentions P) ∧ Q a)
    (fun why trace after => ∃ rest, after = pos.moveTo rest ∧ Reaches 0 pos.rest rest ∧
      trace.Within P 0 pos.rest ∧ why.Mentions P ∧ (why.atEnd = true → rest = []))

namespace Parse

variable {p : Parse α} {g : α → Parse β} {Q : α → List Token → Prop} {R : β → Prop}

theorem closing_bind (hs : Supply P n pos.rest) (hp : (p ctx pos).Tidy P 0 0 pos Q)
    (hg : ∀ a rest, Supply P n rest → Q a rest →
      (g a ctx (pos.moveTo rest)).Closing P (pos.moveTo rest) R) :
    ((p >>= g) ctx pos).Closing P pos R := by
  rw [bind_apply]
  cases hr : p ctx pos with
  | done a trace after =>
      rw [hr] at hp
      obtain ⟨rest, rfl, hpass, htrace, ha⟩ := hp
      have hga := hg a rest (hs.of_suffix hpass.suffix) ha
      -- Only the second parser reads the closing bracket: the position it ends at stays the last.
      dsimp only
      cases hb : g a ctx (pos.moveTo rest) with
      | done b more last =>
          rw [hb] at hga
          obtain ⟨c, us, rfl, hc, hus, ⟨earlier, hpos, hearlier⟩, hnotes, hQ⟩ := hga
          refine ⟨c, us, rfl, hc, hpass.trans hus, ⟨trace.positions ++ earlier, ?_, ?_⟩, ?_, hQ⟩
          · simp [hpos]
          · intro q hq
            rcases List.mem_append.1 hq with hq | hq
            · exact htrace.reaches q hq
            · exact hpass.trans_reaches (hearlier q hq)
          · intro m hm
            exact (List.mem_append.1 hm).elim (htrace.mentions m) (hnotes m)
      | failed why more last =>
          rw [hb] at hga
          obtain ⟨us, rfl, hus, hmore, hwhy⟩ := hga
          exact ⟨us, rfl, hpass.trans_reaches hus, htrace.append (hmore.of_passes hpass), hwhy⟩
      | fault fault =>
          rw [hb] at hga
          exact hga
  | failed why trace after =>
      rw [hr] at hp
      exact hp
  | fault fault =>
      rw [hr] at hp
      exact hp

/-- The last step inside a form: its closing bracket. -/
theorem closing_close {h : Token → β} (hs : Supply P n pos.rest) (hR : ∀ c, R (h c)) :
    ((do let closed ← close; return h closed : Parse β) ctx pos).Closing P pos R := by
  rw [close, bind_assoc, nextCloses_bind_apply]
  -- Without a closing bracket the parser fails, as it would anywhere else inside the form.
  split
  · rename_i hcloses
    obtain ⟨c, rest, hrest, hc⟩ := nextCloses_eq_true hcloses
    simp only [bind_apply, advance, hrest]
    refine ⟨c, rest, rfl, hc, ?_, ⟨[], rfl, by simp⟩, by simp, hR c⟩
    rw [← hrest]
    exact Passes.refl 0 pos.rest
  · exact tidy_fail (d := 0) (e := 0) (Q := fun (_ : β) _ => False) hs

end Parse

end SchemeFront
