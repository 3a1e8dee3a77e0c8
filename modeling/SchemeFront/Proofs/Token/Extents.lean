import Mathlib.Order.Bounds.Defs
import SchemeFront.Proofs.Token.Nesting
import SchemeFront.Token.Cursor

set_option autoImplicit false

/-! # Where forms end

`Token.afterForm` finds the end of a form by counting the brackets that are open. What it finds is
stated here without that count (`Token.FormEnds`): a form ends at the least index up to which as
many brackets are opened as closed. Forms are laminar, which means that a form that begins inside
another one does not end behind it. `Cursor.passForm` moves to where a form ends, or stays where it
is if that is further on (`Cursor.passForm_eq`).
-/

namespace SchemeFront

namespace Token

variable {t c : Token} {tokens ts xs us : List Token} {i j n : Nat}

/-! ## Indices -/

theorem length_eq_of_drop_eq_cons (h : tokens.drop i = t :: ts) :
    tokens.length = i + (t :: ts).length := by
  have hlen := congrArg List.length h
  rw [List.length_drop, List.length_cons] at hlen
  rw [List.length_cons]
  omega

theorem exists_drop_eq_cons (h : i < tokens.length) : ∃ t ts, tokens.drop i = t :: ts :=
  ⟨tokens[i], tokens.drop (i + 1), List.drop_eq_getElem_cons h⟩

/-- The index behind a form is found by its extent. -/
theorem afterForm_of_drop_eq_cons (h : tokens.drop i = t :: ts) :
    afterForm tokens i = .ok (i + extent (t :: ts) : Nat) := by
  have hlen := length_eq_of_drop_eq_cons h
  rw [List.length_cons] at hlen
  rw [afterForm, if_neg (by omega), if_neg (by omega), fromIndex, if_neg (by omega),
    Int.toNat_natCast, h]
  rfl

/-- Where no token is left, a form ends at the end of the input. -/
theorem afterForm_of_length_le (h : tokens.length ≤ i) :
    afterForm tokens i = .ok tokens.length := by
  rw [afterForm, if_pos (by omega)]

/-- The token with the index `i`. -/
theorem atIndex_natCast (h : i < tokens.length) : atIndex tokens i = .ok tokens[i] := by
  have hhead : (fromIndex tokens i).head? = some tokens[i] := by
    rw [fromIndex, if_neg (by omega), Int.toNat_natCast, List.head?_drop,
      List.getElem?_eq_getElem h]
  rw [atIndex, if_neg (by omega), hhead]

/-! ## As many opening as closing brackets -/

/-- As many brackets are opened as closed. -/
def Matched (ts : List Token) : Prop := ts.countP opens = ts.countP closes

/-- The brackets that are open behind a list are those before it and those it opens, without
those it closes. -/
theorem countP_of_openAfter {d e : Nat} (h : openAfter d ts = some e) :
    ts.countP opens + d = ts.countP closes + e := by
  induction ts generalizing d with
  | nil =>
      simp only [openAfter_nil, Option.some.injEq] at h
      simp [h]
  | cons t ts ih =>
      rcases bracket_cases t with ho | hc | ⟨ho, hc⟩
      · rw [openAfter_cons_of_opens ho] at h
        have := ih h
        simp only [List.countP_cons, ho, closes_eq_false_of_opens ho, Bool.false_eq_true,
          if_true, if_false]
        omega
      · cases d with
        | zero => simp [openAfter_zero_cons_of_closes hc] at h
        | succ d =>
            rw [openAfter_cons_of_closes hc] at h
            have := ih h
            simp only [List.countP_cons, hc, opens_eq_false_of_closes hc, Bool.false_eq_true,
              if_true, if_false]
            omega
      · rw [openAfter_cons_of_plain ho hc] at h
        have := ih h
        simp only [List.countP_cons, ho, hc, Bool.false_eq_true, if_false]
        omega

theorem Balanced.matched (h : Balanced ts) : Matched ts :=
  countP_of_openAfter h

/-- In a form that is never closed, there is a bracket too many at every place. -/
theorem NeverClosed.not_matched_take (h : NeverClosed (t :: ts)) (hn : 0 < n) :
    ¬ Matched ((t :: ts).take n) := by
  intro hmatched
  -- Behind the last token, `take` takes no more.
  rw [List.take_eq_take_min] at hmatched
  have hlt := h (min n (t :: ts).length) (by rw [List.length_cons]; omega) (Nat.min_le_right ..)
  exact absurd hmatched (Nat.ne_of_gt hlt)

/-! ## Where a form ends -/

/-- The form that begins at the index `i` ends at the index `stop`. A token that is no opening
bracket is a form by itself. An opening bracket ends where as many brackets are closed as opened
for the first time, and at the end of the input if that never happens. -/
structure FormEnds (tokens : List Token) (i stop : Nat) : Prop where
  lt : i < stop
  le_length : stop ≤ tokens.length
  alone : ∀ t, tokens[i]? = some t → t.opens = false → stop = i + 1
  bracketed : ∀ t, tokens[i]? = some t → t.opens = true →
    IsLeast {j | i < j ∧ Matched (tokens.extract i j)} stop ∨
      stop = tokens.length ∧ ∀ j, i < j → ¬ Matched (tokens.extract i j)

/-- The tokens from an index on, up to a later one. -/
theorem extract_of_drop_eq (h : tokens.drop i = ts) (j : Nat) :
    tokens.extract i j = ts.take (j - i) := by
  rw [← h, List.extract_eq_take_drop]

/-- A bracket that is closed ends where the brackets match for the first time. -/
theorem isLeast_matched_of_balanced (h : tokens.drop i = t :: (xs ++ c :: us))
    (ht : t.opens = true) (hx : Balanced xs) (hc : c.closes = true) :
    IsLeast {j | i < j ∧ Matched (tokens.extract i j)} (i + (xs.length + 2)) := by
  constructor
  · have hform : tokens.extract i (i + (xs.length + 2)) = t :: xs ++ [c] := by
      have key := take_extent_of_balanced ht hx hc us
      rw [extent_of_balanced ht hx hc] at key
      rw [extract_of_drop_eq h, Nat.add_sub_cancel_left, key, List.cons_append]
    exact ⟨by omega, hform ▸ (hx.bracketed ht hc).matched⟩
  · rintro j ⟨hlt, hmatched⟩
    refine Nat.le_of_not_lt fun hj => ?_
    -- Up to an earlier index there is no more than the bracket and what is balanced in it.
    have htake : (t :: (xs ++ c :: us)).take (j - i) = (t :: xs).take (j - i) := by
      rw [← List.cons_append]
      exact List.take_append_of_le_length (by rw [List.length_cons]; omega)
    rw [extract_of_drop_eq h, htake] at hmatched
    have hnever : NeverClosed (t :: xs) := (neverClosed_cons_iff ht xs).2 hx.confined
    exact hnever.not_matched_take (by omega) hmatched

/-- The index behind a form is where the form ends. -/
theorem formEnds_of_drop_eq_cons (h : tokens.drop i = t :: ts) :
    FormEnds tokens i (i + extent (t :: ts)) := by
  have hlen := length_eq_of_drop_eq_cons h
  have hpos : 0 < extent (t :: ts) := extent_pos (List.cons_ne_nil t ts)
  have hle := extent_le_length (t :: ts)
  have hhead : tokens[i]? = some t := by
    rw [← List.head?_drop, h, List.head?_cons]
  refine ⟨by omega, by omega, ?_, ?_⟩
  · intro t' ht' ho
    obtain rfl : t = t' := Option.some.inj (hhead.symm.trans ht')
    rw [extent_cons_of_not_opens ho]
  · intro t' ht' ho
    obtain rfl : t = t' := Option.some.inj (hhead.symm.trans ht')
    rcases closed_or_confined ts with ⟨xs, c, us, rfl, hx, hc⟩ | hconf
    · left
      rw [extent_of_balanced ho hx hc]
      exact isLeast_matched_of_balanced h ho hx hc
    · right
      rw [extent_of_confined ho hconf]
      refine ⟨by rw [hlen, List.length_cons], ?_⟩
      intro j hj hmatched
      rw [extract_of_drop_eq h] at hmatched
      exact ((neverClosed_cons_iff ho ts).2 hconf).not_matched_take (by omega) hmatched

/-! ## Forms inside forms -/

/-- A form that begins before a bracket that closes the form around it ends before that bracket,
or it is that bracket. -/
theorem extent_le_of_closed {d : Nat} (hx : openAfter d xs = some 0) (hc : c.closes = true)
    (us : List Token) : extent (xs ++ c :: us) ≤ xs.length + 1 := by
  cases xs with
  | nil =>
      rw [List.nil_append, extent_cons_of_not_opens (opens_eq_false_of_closes hc)]
      exact Nat.le_add_left ..
  | cons t xs =>
      rw [List.cons_append, List.length_cons]
      cases ho : t.opens with
      | false =>
          rw [extent_cons_of_not_opens ho]
          omega
      | true =>
          rw [openAfter_cons_of_opens ho] at hx
          rcases closed_or_confined xs with ⟨ys, c', vs, rfl, hy, hc'⟩ | hconf
          · rw [List.append_assoc, List.cons_append, extent_of_balanced ho hy hc']
            simp only [List.length_append, List.length_cons]
            omega
          · -- The bracket would still be open behind `xs`.
            obtain ⟨e, he⟩ := Option.isSome_iff_exists.1 hconf
            have hopen := openAfter_add he (d + 1)
            rw [Nat.zero_add, hx] at hopen
            cases hopen

/-- A form inside another one does not end behind it. -/
theorem extent_drop_le (h : n < extent ts) : n + extent (ts.drop n) ≤ extent ts := by
  have hrest : extent (ts.drop n) ≤ ts.length - n := by
    simpa using extent_le_length (ts.drop n)
  cases ts with
  | nil => simp [extent] at h
  | cons t ts =>
      cases n with
      | zero => simp
      | succ n =>
          cases ho : t.opens with
          | false =>
              rw [extent_cons_of_not_opens ho] at h
              omega
          | true =>
              rcases closed_or_confined ts with ⟨xs, c, us, rfl, hx, hc⟩ | hconf
              · rw [extent_of_balanced ho hx hc] at h ⊢
                -- Inside, `zs` is before the form, and `ys` is what is left of `xs`.
                obtain ⟨zs, ys, rfl, rfl⟩ : ∃ zs ys, xs = zs ++ ys ∧ n = zs.length :=
                  ⟨xs.take n, xs.drop n, (List.take_append_drop n xs).symm, by
                    rw [List.length_take]; omega⟩
                obtain ⟨d, -, hy⟩ : ∃ d, openAfter 0 zs = some d ∧ openAfter d ys = some 0 := by
                  rw [Balanced, openAfter_append] at hx
                  exact Option.bind_eq_some_iff.1 hx
                have hinside := extent_le_of_closed hy hc us
                rw [List.drop_succ_cons, List.append_assoc, List.drop_left, List.length_append]
                omega
              · rw [extent_of_confined ho hconf] at h ⊢
                rw [List.length_cons] at hrest
                omega

/-- Forms are laminar: what begins inside a form ends inside it. -/
theorem exists_afterForm_le (h : tokens.drop i = t :: ts) (hi : i < j)
    (hj : j < i + extent (t :: ts)) :
    ∃ inner : Nat, afterForm tokens j = .ok inner ∧ inner ≤ i + extent (t :: ts) := by
  have hlen := length_eq_of_drop_eq_cons h
  have hle := extent_le_length (t :: ts)
  have hlt : j < tokens.length := by omega
  obtain ⟨u, us, hu⟩ := exists_drop_eq_cons hlt
  have hdrop : (t :: ts).drop (j - i) = u :: us := by
    rw [← h, List.drop_drop, Nat.add_sub_of_le (Nat.le_of_lt hi), hu]
  have hbelow : j - i < extent (t :: ts) := by omega
  have hinside := extent_drop_le hbelow
  rw [hdrop] at hinside
  exact ⟨_, afterForm_of_drop_eq_cons hu, by omega⟩

/-! ## The span of a range -/

/-- The span of a range of indices is the one of the tokens there. -/
theorem coverRange_eq_cover (hj : j ≤ tokens.length) (fallback : Span) :
    coverRange tokens i j fallback = cover (tokens.extract i j) fallback := by
  by_cases hle : j ≤ i
  · have hnil : tokens.extract i j = [] := by
      rw [extract_of_drop_eq rfl, Nat.sub_eq_zero_of_le hle, List.take_zero]
    rw [coverRange, if_pos (by omega), hnil]
    rfl
  · have hlast : ((j : Int) - 1) = (j - 1 : Nat) := by omega
    have hhead : (tokens.extract i j).head? = some tokens[i] := by
      rw [extract_of_drop_eq rfl, List.head?_take, if_neg (by omega), List.head?_drop,
        List.getElem?_eq_getElem]
    have hend : (tokens.extract i j).getLast? = some tokens[j - 1] := by
      have hlength : (tokens.extract i j).length = j - i := by
        rw [extract_of_drop_eq rfl, List.length_take, List.length_drop]
        omega
      rw [List.getLast?_eq_getElem?, hlength, extract_of_drop_eq rfl,
        List.getElem?_take_of_lt (by omega), List.getElem?_drop,
        show i + (j - i - 1) = j - 1 by omega, List.getElem?_eq_getElem]
    rw [coverRange, if_neg (by omega), hlast, atIndex_natCast (by omega),
      atIndex_natCast (by omega), cover, hhead, hend]
    rfl

end Token

/-! ## Passing forms -/

namespace Cursor

open Token

variable {c after : Cursor} {i : Nat}

/-- From the cursor `c`, the cursor `after` is reached behind the form at the index `i`: in the same
tokens, not further back, not behind the end, and beyond `i` if there is a form. -/
structure PassesForm (c : Cursor) (i : Nat) (after : Cursor) : Prop where
  same : after = { c with pos := after.pos }
  forward : c.pos ≤ after.pos
  le_length : after.pos ≤ c.tokens.length
  beyond : i < c.tokens.length → i < after.pos

/-- A cursor moves to where a form ends, and stays where it is if that is further on. -/
theorem passForm_eq {stop : Nat} (hstop : afterForm c.tokens i = .ok stop)
    (hends : i < c.tokens.length → i < stop) (hle : stop ≤ c.tokens.length)
    (hpos : c.pos ≤ c.tokens.length) :
    c.passForm i = (coverRange c.tokens i (max c.pos stop : Nat) c.endOfInput,
      { c with pos := max c.pos stop }) := by
  have hleast : (if (i : Int) < c.tokens.length then max (stop : Int) (i + 1) else stop) =
      stop := by
    split
    · omega
    · rfl
  have hmin : min (max (stop : Int) c.pos).toNat c.tokens.length = max c.pos stop := by
    omega
  simp only [passForm, hstop, hleast, hmin]

/-- In tokens that are in order, every form can be passed, from every position. -/
theorem exists_passForm (hasc : Ascending c.tokens) (hpos : c.pos ≤ c.tokens.length) (i : Nat) :
    ∃ s after, c.passForm i = (.ok s, after) ∧ PassesForm c i after := by
  obtain ⟨stop, hstop, hends, hle⟩ : ∃ stop : Nat, afterForm c.tokens i = .ok stop ∧
      (i < c.tokens.length → i < stop) ∧ stop ≤ c.tokens.length := by
    by_cases hi : i < c.tokens.length
    · obtain ⟨t, ts, h⟩ := exists_drop_eq_cons hi
      have hends := formEnds_of_drop_eq_cons h
      exact ⟨_, afterForm_of_drop_eq_cons h, fun _ => hends.lt, hends.le_length⟩
    · exact ⟨_, afterForm_of_length_le (Nat.le_of_not_lt hi), fun h => absurd h hi, Nat.le_refl _⟩
  have hmax : max c.pos stop ≤ c.tokens.length := Nat.max_le.2 ⟨hpos, hle⟩
  have hrange : Ascending (c.tokens.extract i (max c.pos stop)) := by
    rw [extract_of_drop_eq rfl]
    exact Ascending.of_prefix (hasc.of_suffix (List.drop_suffix ..)) (List.take_prefix ..)
  obtain ⟨s, hs⟩ := hrange.exists_cover c.endOfInput
  refine ⟨s, { c with pos := max c.pos stop }, ?_, ?_⟩
  · rw [passForm_eq hstop hends hle hpos, coverRange_eq_cover hmax, hs]
  · exact ⟨rfl, Nat.le_max_left .., hmax,
      fun hi => Nat.lt_of_lt_of_le (hends hi) (Nat.le_max_right ..)⟩

/-- **Forms end where their brackets match, and are laminar.** At every index of a list of tokens a
form begins, which ends where `FormEnds` says, and no form that begins before that end ends behind
it. If the tokens are in order, a cursor passes the form at any index, never backwards and not
behind the end, and is then beyond that index. -/
theorem forms_are_laminar (c : Cursor) :
    (∀ i < c.tokens.length, ∃ stop : Nat, afterForm c.tokens i = .ok stop ∧
      FormEnds c.tokens i stop ∧ ∀ j, i < j → j < stop →
        ∃ inner : Nat, afterForm c.tokens j = .ok inner ∧ inner ≤ stop) ∧
    (Ascending c.tokens → c.pos ≤ c.tokens.length → ∀ i : Nat,
      ∃ s after, c.passForm i = (.ok s, after) ∧ PassesForm c i after) := by
  constructor
  · intro i hi
    obtain ⟨t, ts, h⟩ := exists_drop_eq_cons hi
    exact ⟨_, afterForm_of_drop_eq_cons h, formEnds_of_drop_eq_cons h,
      fun j hij hj => exists_afterForm_le h hij hj⟩
  · intro hasc hpos i
    exact exists_passForm hasc hpos i

/-- Brackets in one place, the second of which is never closed: the form around another one ends at
the end of the input, and the one inside is passed from a position that is already in it. -/
theorem forms_are_laminar_unclosed :
    ∃ o x c : Token, o.opens = true ∧ x.opens = false ∧ c.closes = true ∧
      Ascending [c, o, o, x, c, x] ∧ FormEnds [c, o, o, x, c, x] 1 6 ∧
      FormEnds [c, o, o, x, c, x] 2 5 ∧
      ∃ s after, passForm ⟨[c, o, o, x, c, x], Span.point "a.scm" 9, 4⟩ 2 = (.ok s, after) ∧
        PassesForm ⟨[c, o, o, x, c, x], Span.point "a.scm" 9, 4⟩ 2 after := by
  obtain ⟨o, ho⟩ : ∃ o : Token, o = ⟨.keyword .opening, Span.point "a.scm" 2⟩ := ⟨_, rfl⟩
  obtain ⟨x, hx⟩ : ∃ x : Token, x = ⟨.atom (.ident "x"), Span.point "a.scm" 2⟩ := ⟨_, rfl⟩
  obtain ⟨c, hc⟩ : ∃ c : Token, c = ⟨.keyword .closing, Span.point "a.scm" 2⟩ := ⟨_, rfl⟩
  have hasc : Ascending [c, o, o, x, c, x] := by
    subst ho hx hc
    unfold Ascending
    decide +kernel
  have outer : afterForm [c, o, o, x, c, x] (1 : Nat) = .ok (6 : Nat) := by
    subst ho hx hc
    rfl
  have inner : afterForm [c, o, o, x, c, x] (2 : Nat) = .ok (5 : Nat) := by
    subst ho hx hc
    rfl
  obtain ⟨hforms, hpass⟩ :=
    forms_are_laminar ⟨[c, o, o, x, c, x], Span.point "a.scm" 9, 4⟩
  obtain ⟨stop, hstop, hends, -⟩ := hforms 1 (by simp)
  obtain ⟨stop', hstop', hends', -⟩ := hforms 2 (by simp)
  rw [outer] at hstop
  rw [inner] at hstop'
  cases hstop
  cases hstop'
  refine ⟨o, x, c, ?_, ?_, ?_, hasc, hends, hends', hpass hasc (by simp) 2⟩
  · rw [ho]; rfl
  · rw [hx]; rfl
  · rw [hc]; rfl

end Cursor

end SchemeFront
