import SchemeFront.Token.Extent

set_option autoImplicit false

/-! # Nesting of brackets

`openAfter` counts the brackets that are open behind a list of tokens. Two kinds of lists are
told apart by it: `Balanced` ones, which close all they open and nothing else, and `Confined`
ones, which may leave brackets open. The extent of a form is expressed by both
(`extent_of_balanced`, `extent_of_confined`). `Reaches` says that a reader inside a form has not
gone behind the bracket that closes the form, and `Passes` also how many brackets are then open.
-/

namespace SchemeFront.Token

theorem closes_eq_false_of_opens {t : Token} (h : t.opens = true) : t.closes = false := by
  simp_all [opens, closes, isKeyword]

theorem opens_eq_false_of_closes {t : Token} (h : t.closes = true) : t.opens = false := by
  simp_all [opens, closes, isKeyword]

/-- A token opens a bracket, or closes one, or is none. -/
theorem bracket_cases (t : Token) :
    t.opens = true ∨ t.closes = true ∨ (t.opens = false ∧ t.closes = false) := by
  cases t.opens <;> cases t.closes <;> simp

/-- A name is no bracket. -/
theorem name?_eq_some {t : Token} {name : String} (h : t.name? = some name) :
    t.opens = false ∧ t.closes = false := by
  obtain ⟨lexeme, span⟩ := t
  cases lexeme with
  | keyword k => cases h
  | atom a => exact ⟨rfl, rfl⟩

/-- What has a name is an identifier. -/
theorem lexeme_of_name? {t : Token} {name : String} (h : t.name? = some name) :
    t.lexeme = .atom (.ident name) := by
  obtain ⟨lexeme, span⟩ := t
  cases lexeme with
  | keyword k => cases h
  | atom a =>
      cases a with
      | ident i =>
          cases h
          rfl
      | _ => cases h

/-- A bracket has no name. -/
theorem name?_eq_none_of_opens {t : Token} (h : t.opens = true) : t.name? = none := by
  cases hname : t.name? with
  | none => rfl
  | some name =>
      rw [(name?_eq_some hname).1] at h
      cases h

/-- A word is no bracket. -/
theorem not_bracket_of_keyword {t : Token} {k : Keyword} (h : t.lexeme = .keyword k)
    (ho : k ≠ .opening) (hc : k ≠ .closing) : t.opens = false ∧ t.closes = false := by
  simp [opens, closes, isKeyword, h, ho, hc]

/-- The next token, by what it says. -/
theorem exists_of_head {ts : List Token} {l : Lexeme}
    (hhead : ts[0]?.map Token.lexeme = some l) : ∃ t us, ts = t :: us ∧ t.lexeme = l := by
  cases ts with
  | nil => simp at hhead
  | cons t us => exact ⟨t, us, rfl, by simpa using hhead⟩

/-! ## Counting open brackets -/

/-- How many brackets are open behind `ts` if `depth` are before it; none, if a bracket is closed
that was not opened. -/
def openAfter : (depth : Nat) → (ts : List Token) → Option Nat
  | depth, [] => some depth
  | depth, t :: ts =>
      if t.opens then openAfter (depth + 1) ts
      else if t.closes then
        match depth with
        | 0 => none
        | depth + 1 => openAfter depth ts
      else openAfter depth ts

@[simp] theorem openAfter_nil (d : Nat) : openAfter d [] = some d := by simp [openAfter]

theorem openAfter_cons_of_opens {t : Token} (h : t.opens = true) (d : Nat) (ts : List Token) :
    openAfter d (t :: ts) = openAfter (d + 1) ts := by
  simp [openAfter, h]

theorem openAfter_cons_of_closes {t : Token} (h : t.closes = true) (d : Nat) (ts : List Token) :
    openAfter (d + 1) (t :: ts) = openAfter d ts := by
  simp [openAfter, h, opens_eq_false_of_closes h]

theorem openAfter_zero_cons_of_closes {t : Token} (h : t.closes = true) (ts : List Token) :
    openAfter 0 (t :: ts) = none := by
  simp [openAfter, h, opens_eq_false_of_closes h]

theorem openAfter_cons_of_plain {t : Token} (ho : t.opens = false) (hc : t.closes = false)
    (d : Nat) (ts : List Token) : openAfter d (t :: ts) = openAfter d ts := by
  simp [openAfter, ho, hc]

theorem openAfter_append (d : Nat) (ts us : List Token) :
    openAfter d (ts ++ us) = (openAfter d ts).bind (openAfter · us) := by
  induction ts generalizing d with
  | nil => simp
  | cons t ts ih =>
      rw [List.cons_append]
      rcases bracket_cases t with ho | hc | ⟨ho, hc⟩
      · rw [openAfter_cons_of_opens ho, openAfter_cons_of_opens ho, ih]
      · cases d with
        | zero => simp [openAfter_zero_cons_of_closes hc]
        | succ d => rw [openAfter_cons_of_closes hc, openAfter_cons_of_closes hc, ih]
      · rw [openAfter_cons_of_plain ho hc, openAfter_cons_of_plain ho hc, ih]

/-- Further brackets around a list stay open. -/
theorem openAfter_add {d e : Nat} {ts : List Token} (h : openAfter d ts = some e) (k : Nat) :
    openAfter (d + k) ts = some (e + k) := by
  induction ts generalizing d with
  | nil =>
      simp only [openAfter_nil, Option.some.injEq] at h
      simp [h]
  | cons t ts ih =>
      rcases bracket_cases t with ho | hc | ⟨ho, hc⟩
      · rw [openAfter_cons_of_opens ho] at h ⊢
        rw [Nat.add_right_comm]
        exact ih h
      · cases d with
        | zero => simp [openAfter_zero_cons_of_closes hc] at h
        | succ d =>
            rw [openAfter_cons_of_closes hc] at h
            rw [Nat.add_right_comm, openAfter_cons_of_closes hc]
            exact ih h
      · rw [openAfter_cons_of_plain ho hc] at h ⊢
        exact ih h

/-- Either some bracket of a list closes the innermost of `d + 1` brackets around it for the last
time, or none does. -/
theorem closed_or_isSome (d : Nat) (ts : List Token) :
    (∃ xs c us, ts = xs ++ c :: us ∧ openAfter d xs = some 0 ∧ c.closes = true)
      ∨ (openAfter d ts).isSome := by
  induction ts generalizing d with
  | nil => exact .inr (by simp)
  | cons t ts ih =>
      -- If the first token takes the depth from `d` to `e`, the induction does the rest.
      have extend : ∀ e, (∀ xs, openAfter d (t :: xs) = openAfter e xs) →
          (∃ xs c us, t :: ts = xs ++ c :: us ∧ openAfter d xs = some 0 ∧ c.closes = true)
            ∨ (openAfter d (t :: ts)).isSome := by
        intro e he
        rcases ih e with ⟨xs, c, us, rfl, hx, hc⟩ | h
        · exact .inl ⟨t :: xs, c, us, rfl, by rw [he, hx], hc⟩
        · exact .inr (by rwa [he])
      rcases bracket_cases t with ho | hc | ⟨ho, hc⟩
      · exact extend (d + 1) (openAfter_cons_of_opens ho d)
      · cases d with
        | zero => exact .inl ⟨[], t, ts, rfl, openAfter_nil 0, hc⟩
        | succ d => exact extend d (openAfter_cons_of_closes hc d)
      · exact extend d (openAfter_cons_of_plain ho hc d)

/-! ## Balanced and confined lists -/

/-- All brackets that are opened are closed, and no others. -/
def Balanced (ts : List Token) : Prop := openAfter 0 ts = some 0

/-- No bracket is closed that was not opened. -/
def Confined (ts : List Token) : Prop := (openAfter 0 ts).isSome

theorem Balanced.confined {ts : List Token} (h : Balanced ts) : Confined ts := by
  rw [Confined, show openAfter 0 ts = some 0 from h]
  rfl

@[simp] theorem balanced_nil : Balanced [] := rfl

theorem Balanced.append {ts us : List Token} (ht : Balanced ts) (hu : Balanced us) :
    Balanced (ts ++ us) := by
  rw [Balanced, openAfter_append, show openAfter 0 ts = some 0 from ht]
  exact hu

theorem Balanced.append_confined {ts us : List Token} (ht : Balanced ts) (hu : Confined us) :
    Confined (ts ++ us) := by
  rw [Confined, openAfter_append, show openAfter 0 ts = some 0 from ht]
  exact hu

theorem balanced_singleton {t : Token} (ho : t.opens = false) (hc : t.closes = false) :
    Balanced [t] := by
  rw [Balanced, openAfter_cons_of_plain ho hc, openAfter_nil]

/-- Brackets around a balanced list give a balanced list. -/
theorem Balanced.bracketed {t c : Token} {xs : List Token} (hx : Balanced xs)
    (ht : t.opens = true) (hc : c.closes = true) : Balanced (t :: xs ++ [c]) := by
  have inside : openAfter 1 xs = some 1 := openAfter_add hx 1
  unfold Balanced
  calc openAfter 0 (t :: xs ++ [c])
      = openAfter 1 (xs ++ [c]) := openAfter_cons_of_opens ht 0 (xs ++ [c])
    _ = openAfter 1 [c] := by rw [openAfter_append, inside, Option.bind_some]
    _ = some 0 := openAfter_cons_of_closes hc 0 []

theorem Confined.cons_of_opens {t : Token} {ts : List Token} (ht : t.opens = true)
    (h : Confined ts) : Confined (t :: ts) := by
  obtain ⟨d, hd⟩ := Option.isSome_iff_exists.1 h
  rw [Confined, openAfter_cons_of_opens ht, openAfter_add hd 1]
  rfl

/-- Behind a balanced list, a closing bracket is one too many. -/
theorem not_confined_of_balanced_append {xs us : List Token} {c : Token} (hx : Balanced xs)
    (hc : c.closes = true) : ¬ Confined (xs ++ c :: us) := by
  rw [Confined, openAfter_append, show openAfter 0 xs = some 0 from hx, Option.bind_some,
    openAfter_zero_cons_of_closes hc]
  simp

/-- What is inside a bracket is closed by a bracket behind a balanced list, or never. -/
theorem closed_or_confined (ts : List Token) :
    (∃ xs c us, ts = xs ++ c :: us ∧ Balanced xs ∧ c.closes = true) ∨ Confined ts :=
  closed_or_isSome 0 ts

/-! ## Forms that are never closed -/

/-- At every place behind its first token, a form has more opening than closing brackets. -/
def NeverClosed (form : List Token) : Prop :=
  ∀ n, 0 < n → n ≤ form.length → (form.take n).countP closes < (form.take n).countP opens

/-- A list is confined if at no place more brackets are closed than were open. -/
theorem openAfter_isSome_iff (d : Nat) (ts : List Token) :
    (openAfter d ts).isSome
      ↔ ∀ n ≤ ts.length, (ts.take n).countP closes ≤ (ts.take n).countP opens + d := by
  induction ts generalizing d with
  | nil => simp
  | cons t ts ih =>
      -- The empty prefix says nothing, and all others begin with `t`.
      have split_take : (∀ n ≤ (t :: ts).length,
            ((t :: ts).take n).countP closes ≤ ((t :: ts).take n).countP opens + d)
          ↔ ∀ n ≤ ts.length, (t :: ts.take n).countP closes
              ≤ (t :: ts.take n).countP opens + d := by
        constructor
        · intro h n hn
          exact h (n + 1) (Nat.succ_le_succ hn)
        · intro h n hn
          cases n with
          | zero => simp
          | succ n => exact h n (Nat.le_of_succ_le_succ hn)
      rw [split_take]
      rcases bracket_cases t with ho | hc | ⟨ho, hc⟩
      · rw [openAfter_cons_of_opens ho, ih]
        simp only [List.countP_cons, ho, closes_eq_false_of_opens ho, Bool.false_eq_true,
          if_true, if_false]
        exact forall₂_congr fun n _ => by omega
      · have ho := opens_eq_false_of_closes hc
        cases d with
        | zero =>
            rw [openAfter_zero_cons_of_closes hc]
            simp only [List.countP_cons, ho, hc, Bool.false_eq_true, if_true, if_false]
            constructor
            · intro h
              simp at h
            · intro h
              have := h 0 (Nat.zero_le _)
              simp at this
        | succ d =>
            rw [openAfter_cons_of_closes hc, ih]
            simp only [List.countP_cons, ho, hc, Bool.false_eq_true, if_true, if_false]
            exact forall₂_congr fun n _ => by omega
      · rw [openAfter_cons_of_plain ho hc, ih]
        simp only [List.countP_cons, ho, hc, Bool.false_eq_true, if_false]
        exact forall₂_congr fun n _ => by omega

/-- A form is never closed if what is inside its bracket closes nothing outside. -/
theorem neverClosed_cons_iff {t : Token} (ht : t.opens = true) (ts : List Token) :
    NeverClosed (t :: ts) ↔ Confined ts := by
  rw [Confined, openAfter_isSome_iff]
  constructor
  · intro h n hn
    have := h (n + 1) (Nat.succ_pos n) (Nat.succ_le_succ hn)
    simp only [List.take_succ_cons, List.countP_cons, ht, closes_eq_false_of_opens ht,
      Bool.false_eq_true, if_true, if_false] at this
    omega
  · intro h n hpos hn
    cases n with
    | zero => exact absurd hpos (Nat.lt_irrefl 0)
    | succ n =>
        have := h n (Nat.le_of_succ_le_succ hn)
        simp only [List.take_succ_cons, List.countP_cons, ht, closes_eq_false_of_opens ht,
          Bool.false_eq_true, if_true, if_false]
        omega

/-! ## Extents -/

/-- As long as no bracket is closed that was open before, counting goes on. -/
theorem untilClosed_append {d e : Nat} {xs : List Token} (h : openAfter d xs = some e)
    (us : List Token) : untilClosed (d + 1) (xs ++ us) = xs.length + untilClosed (e + 1) us := by
  induction xs generalizing d with
  | nil =>
      simp only [openAfter_nil, Option.some.injEq] at h
      simp [h]
  | cons t xs ih =>
      rw [List.cons_append, untilClosed, List.length_cons]
      rcases bracket_cases t with ho | hc | ⟨ho, hc⟩
      · rw [openAfter_cons_of_opens ho] at h
        rw [if_pos ho, ih h]
        omega
      · rw [if_neg (by simp [opens_eq_false_of_closes hc]), if_pos hc]
        cases d with
        | zero => simp [openAfter_zero_cons_of_closes hc] at h
        | succ d =>
            rw [openAfter_cons_of_closes hc] at h
            rw [ih h]
            omega
      · rw [if_neg (by simp [ho]), if_neg (by simp [hc])]
        rw [openAfter_cons_of_plain ho hc] at h
        rw [ih h]
        omega

/-- The extent of a form that is closed. -/
theorem extent_of_balanced {t c : Token} {xs : List Token} (ht : t.opens = true)
    (hx : Balanced xs) (hc : c.closes = true) (us : List Token) :
    extent (t :: (xs ++ c :: us)) = xs.length + 2 := by
  have hnone : untilClosed 0 us = 0 := by
    cases us <;> rfl
  have hlast : untilClosed 1 (c :: us) = 1 := by
    rw [untilClosed, if_neg (by simp [opens_eq_false_of_closes hc]), if_pos hc, hnone]
  calc extent (t :: (xs ++ c :: us))
      = 1 + untilClosed 1 (xs ++ c :: us) := by rw [extent, if_pos ht]
    _ = 1 + (xs.length + untilClosed 1 (c :: us)) := by rw [untilClosed_append hx]
    _ = xs.length + 2 := by rw [hlast]; omega

/-- The extent of a form that is never closed. -/
theorem extent_of_confined {t : Token} {ts : List Token} (ht : t.opens = true)
    (h : Confined ts) : extent (t :: ts) = ts.length + 1 := by
  obtain ⟨d, hd⟩ := Option.isSome_iff_exists.1 h
  have hall : untilClosed 1 ts = ts.length := by
    have key := untilClosed_append hd []
    rwa [List.append_nil] at key
  rw [extent, if_pos ht, hall, Nat.add_comm]

/-- A form reaches as far as what was read inside it. -/
theorem length_lt_extent {t : Token} {xs : List Token} (ht : t.opens = true) (hx : Confined xs)
    (us : List Token) : xs.length < extent (t :: (xs ++ us)) := by
  obtain ⟨d, hd⟩ := Option.isSome_iff_exists.1 hx
  rw [extent, if_pos ht, untilClosed_append hd]
  omega

/-- A form that is never closed extends to the end. -/
theorem drop_extent_of_confined {t : Token} {ts : List Token} (ht : t.opens = true)
    (h : Confined ts) : (t :: ts).drop (extent (t :: ts)) = [] := by
  rw [extent_of_confined ht h]
  simp

/-- Behind a form that is closed is what is behind its closing bracket. -/
theorem drop_extent_of_balanced {t c : Token} {xs : List Token} (ht : t.opens = true)
    (hx : Balanced xs) (hc : c.closes = true) (us : List Token) :
    (t :: (xs ++ c :: us)).drop (extent (t :: (xs ++ c :: us))) = us := by
  rw [extent_of_balanced ht hx hc, List.drop_succ_cons, List.drop_append]
  simp

/-- The tokens of a form that is closed. -/
theorem take_extent_of_balanced {t c : Token} {xs : List Token} (ht : t.opens = true)
    (hx : Balanced xs) (hc : c.closes = true) (us : List Token) :
    (t :: (xs ++ c :: us)).take (extent (t :: (xs ++ c :: us))) = t :: (xs ++ [c]) := by
  have hsplit := List.take_append_drop (extent (t :: (xs ++ c :: us))) (t :: (xs ++ c :: us))
  rw [drop_extent_of_balanced ht hx hc] at hsplit
  refine List.append_cancel_right (hsplit.trans ?_)
  simp

/-- All tokens belong to a form that is never closed. -/
theorem take_extent_of_confined {t : Token} {ts : List Token} (ht : t.opens = true)
    (h : Confined ts) : (t :: ts).take (extent (t :: ts)) = t :: ts := by
  rw [extent_of_confined ht h]
  exact List.take_of_length_le (Nat.le_refl _)

/-! ## Reading inside a form -/

/-- From `ts`, where `d` brackets are open inside a form, reading has come to `us`, and not behind
the bracket that closes the form. -/
def Reaches (d : Nat) (ts us : List Token) : Prop :=
  ∃ xs, ts = xs ++ us ∧ (openAfter d xs).isSome

/-- From `ts`, where `d` brackets are open inside a form, reading has come to `us`, where `e` are
open, or to the end of the input. -/
def Passes (d e : Nat) (ts us : List Token) : Prop :=
  ∃ xs, ts = xs ++ us ∧ (openAfter d xs = some e ∨ us = [] ∧ (openAfter d xs).isSome)

theorem Reaches.refl (d : Nat) (ts : List Token) : Reaches d ts ts := ⟨[], rfl, by simp⟩

theorem Passes.refl (d : Nat) (ts : List Token) : Passes d d ts ts := ⟨[], rfl, .inl (by simp)⟩

theorem Reaches.suffix {d : Nat} {ts us : List Token} (h : Reaches d ts us) : us <:+ ts := by
  obtain ⟨xs, rfl, -⟩ := h
  exact List.suffix_append xs us

theorem Passes.reaches {d e : Nat} {ts us : List Token} (h : Passes d e ts us) :
    Reaches d ts us := by
  obtain ⟨xs, rfl, hx | ⟨-, hx⟩⟩ := h
  · exact ⟨xs, rfl, by simp [hx]⟩
  · exact ⟨xs, rfl, hx⟩

theorem Passes.suffix {d e : Nat} {ts us : List Token} (h : Passes d e ts us) : us <:+ ts :=
  h.reaches.suffix

theorem Passes.trans_reaches {d e : Nat} {ts us vs : List Token} (h : Passes d e ts us)
    (h' : Reaches e us vs) : Reaches d ts vs := by
  obtain ⟨ys, rfl, hy⟩ := h'
  obtain ⟨xs, rfl, hx | ⟨hnil, hx⟩⟩ := h
  · exact ⟨xs ++ ys, by simp, by simpa [openAfter_append, hx] using hy⟩
  -- At the end of the input no more tokens follow.
  · obtain ⟨rfl, rfl⟩ := List.append_eq_nil_iff.1 hnil
    exact ⟨xs, rfl, hx⟩

theorem Passes.trans {d e f : Nat} {ts us vs : List Token} (h : Passes d e ts us)
    (h' : Passes e f us vs) : Passes d f ts vs := by
  obtain ⟨xs, rfl, hx | ⟨rfl, hx⟩⟩ := h
  · obtain ⟨ys, rfl, hy | ⟨rfl, hy⟩⟩ := h'
    · exact ⟨xs ++ ys, by simp, .inl (by simp [openAfter_append, hx, hy])⟩
    · exact ⟨xs ++ ys, by simp, .inr ⟨rfl, by simpa [openAfter_append, hx] using hy⟩⟩
  · obtain ⟨ys, hy, -⟩ := h'
    obtain ⟨rfl, rfl⟩ := List.append_eq_nil_iff.1 hy.symm
    exact ⟨xs, rfl, .inr ⟨rfl, hx⟩⟩

/-- A token that is no bracket is passed. -/
theorem passes_cons_of_plain {t : Token} (ho : t.opens = false) (hc : t.closes = false) (d : Nat)
    (ts : List Token) : Passes d d (t :: ts) ts :=
  ⟨[t], rfl, .inl (by rw [openAfter_cons_of_plain ho hc, openAfter_nil])⟩

theorem passes_cons_of_opens {t : Token} (ht : t.opens = true) (d : Nat) (ts : List Token) :
    Passes d (d + 1) (t :: ts) ts :=
  ⟨[t], rfl, .inl (by rw [openAfter_cons_of_opens ht, openAfter_nil])⟩

theorem passes_cons_of_closes {t : Token} (ht : t.closes = true) (d : Nat) (ts : List Token) :
    Passes (d + 1) d (t :: ts) ts :=
  ⟨[t], rfl, .inl (by rw [openAfter_cons_of_closes ht, openAfter_nil])⟩

/-- A whole form is passed. -/
theorem passes_drop_extent {t : Token} (ht : t.opens = true) (d : Nat) (ts : List Token) :
    Passes d d (t :: ts) ((t :: ts).drop (extent (t :: ts))) := by
  -- A form that is closed is balanced. One that is not reaches the end of the input.
  rcases closed_or_confined ts with ⟨xs, c, us, rfl, hx, hc⟩ | h
  · rw [drop_extent_of_balanced ht hx hc]
    have key := openAfter_add (hx.bracketed ht hc) d
    rw [Nat.zero_add] at key
    exact ⟨t :: xs ++ [c], by simp, .inl key⟩
  · rw [drop_extent_of_confined ht h]
    obtain ⟨e, he⟩ := Option.isSome_iff_exists.1 (h.cons_of_opens ht)
    have key := openAfter_add he d
    rw [Nat.zero_add] at key
    exact ⟨t :: ts, by simp, .inr ⟨rfl, by simp [key]⟩⟩

/-- What is reached inside a form is reached in what the form is in. -/
theorem Reaches.of_inside {t : Token} {ts us : List Token} (ht : t.opens = true)
    (h : Reaches 0 ts us) (d : Nat) : Reaches d (t :: ts) us := by
  obtain ⟨xs, rfl, hx⟩ := h
  obtain ⟨e, he⟩ := Option.isSome_iff_exists.1 (Confined.cons_of_opens ht hx)
  have key := openAfter_add he d
  rw [Nat.zero_add] at key
  exact ⟨t :: xs, rfl, by simp [key]⟩

/-! ## Tokens in order -/

/-- The starts of spans never decrease. -/
def Ascending (ts : List Token) : Prop :=
  ts.Pairwise fun t u => t.span.start ≤ u.span.start

/-- Tokens that do not overlap are in order. -/
theorem Ascending.of_pairwise {ts : List Token}
    (h : ts.Pairwise fun t u => t.span.stop ≤ u.span.start) : Ascending ts := by
  refine List.Pairwise.imp ?_ h
  intro t u htu
  exact Int.le_trans t.span.start_le_stop htu

theorem Ascending.of_suffix {ts us : List Token} (h : Ascending ts) (hs : us <:+ ts) :
    Ascending us :=
  h.sublist hs.sublist

theorem Ascending.of_prefix {ts us : List Token} (h : Ascending ts) (hs : us <+: ts) :
    Ascending us :=
  h.sublist hs.sublist

/-- No token before a closing bracket ends behind it. -/
def Enclosing (ts : List Token) : Prop :=
  ts.Pairwise fun t u => u.closes = true → t.span.stop ≤ u.span.stop

/-- Tokens that do not overlap are within the brackets around them. -/
theorem Enclosing.of_pairwise {ts : List Token}
    (h : ts.Pairwise fun t u => t.span.stop ≤ u.span.start) : Enclosing ts := by
  refine List.Pairwise.imp ?_ h
  intro t u htu _
  exact Int.le_trans htu u.span.start_le_stop

/-- Tokens in order have a span, from the start of the first to the end of the last. -/
theorem Ascending.exists_cover {ts : List Token} (h : Ascending ts) (fallback : Span) :
    ∃ s, cover ts fallback = .ok s := by
  cases hf : ts.head? with
  | none => exact ⟨fallback, by simp [cover, hf]⟩
  | some first =>
      cases hl : ts.getLast? with
      | none => exact ⟨fallback, by simp [cover, hf, hl]⟩
      | some last =>
          have hle : first.span.start ≤ last.span.stop := by
            obtain ⟨tail, rfl⟩ := List.head?_eq_some_iff.1 hf
            have hlast := last.span.start_le_stop
            rcases List.mem_cons.1 (List.mem_of_getLast? hl) with rfl | hmem
            · exact hlast
            · exact Int.le_trans ((List.pairwise_cons.1 h).1 last hmem) hlast
          exact ⟨⟨first.span.path, first.span.start, last.span.stop, hle⟩,
            by simp [cover, hf, hl, Span.between, Span.make_of_le hle]⟩

end SchemeFront.Token
