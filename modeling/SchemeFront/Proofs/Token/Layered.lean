import SchemeFront.Proofs.Token.Nesting

set_option autoImplicit false

/-! # Tokens in layers

Expansion puts procedures without parameters into written forms, with brackets that are not
written. `Token.Layered` follows these tokens with the stack of the open forms, in which `true`
stands for a bracket that is written: a bracket that is not written only opens the first form of a
written one. So the stack can be read off the brackets, and behind a form it is the same as in
front (`Layered.drop_extent`). What else is to be known where a form can begin is left open.
-/

namespace SchemeFront.Token

variable {written : Token → Bool} {G : List Bool → List Token → Prop} {forms : List Bool}
  {t : Token} {ts : List Token}

/-! ## Behind brackets -/

theorem drop_untilClosed_cons (d : Nat) (t : Token) (ts : List Token) :
    (t :: ts).drop (untilClosed (d + 1) (t :: ts)) =
      ts.drop (untilClosed (if t.opens then d + 2 else if t.closes then d else d + 1) ts) := by
  rw [untilClosed, Nat.add_comm, List.drop_succ_cons]

/-- The word `lambda` and brackets around no parameters are passed. -/
theorem drop_untilClosed_formals {l p q : Token} (hl : l.lexeme = .keyword .lambda)
    (hp : p.opens = true) (hq : q.closes = true) (d : Nat) (ts : List Token) :
    (l :: p :: q :: ts).drop (untilClosed (d + 1) (l :: p :: q :: ts)) =
      ts.drop (untilClosed (d + 1) ts) := by
  obtain ⟨hlo, hlc⟩ := not_bracket_of_keyword hl (by decide) (by decide)
  rw [drop_untilClosed_cons, if_neg (by simp [hlo]), if_neg (by simp [hlc]),
    drop_untilClosed_cons, if_pos hp, drop_untilClosed_cons,
    if_neg (by simp [opens_eq_false_of_closes hq]), if_pos hq]

/-! ## Layers -/

/-- Tokens behind the open forms `forms`. All brackets that open forms are written, but for those
of procedures without parameters that are first in a written form. `G` holds of the open forms and
the tokens that are left, wherever a form can begin, and at the end for all forms that are open
there. -/
inductive Layered (written : Token → Bool) (G : List Bool → List Token → Prop) :
    (forms : List Bool) → List Token → Prop
  | nil {forms : List Bool} (hG : ∀ outer, outer <:+ forms → G outer []) :
      Layered written G forms []
  | plain {forms : List Bool} {t : Token} {ts : List Token} (ho : t.opens = false)
      (hc : t.closes = false) (hG : G forms (t :: ts)) (more : Layered written G forms ts) :
      Layered written G forms (t :: ts)
  | opening {forms : List Bool} {t : Token} {ts : List Token} (ho : t.opens = true)
      (hwritten : written t = true) (hG : G forms (t :: ts))
      (more : Layered written G (true :: forms) ts) : Layered written G forms (t :: ts)
  | procedure {forms : List Bool} {o l p q : Token} {ts : List Token} (ho : o.opens = true)
      (hfree : written o = false) (hl : l.lexeme = .keyword .lambda) (hp : p.opens = true)
      (hq : q.closes = true) (hG : G (true :: forms) (o :: l :: p :: q :: ts))
      (more : Layered written G (false :: true :: forms) ts) :
      Layered written G (true :: forms) (o :: l :: p :: q :: ts)
  | closing {counted : Bool} {forms : List Bool} {t : Token} {ts : List Token}
      (hc : t.closes = true) (hG : G (counted :: forms) (t :: ts))
      (more : Layered written G forms ts) : Layered written G (counted :: forms) (t :: ts)
  /-- Outside all forms, a bracket closes nothing. -/
  | stray {t : Token} {ts : List Token} (hc : t.closes = true) (hG : G [] (t :: ts))
      (more : Layered written G [] ts) : Layered written G [] (t :: ts)

namespace Layered

theorem guard (h : Layered written G forms ts) : G forms ts := by
  cases h with
  | nil hG => exact hG forms (List.suffix_refl forms)
  | plain _ _ hG _ => exact hG
  | opening _ _ hG _ => exact hG
  | procedure _ _ _ _ _ hG _ => exact hG
  | closing _ hG _ => exact hG
  | stray _ hG _ => exact hG

/-- Behind the bracket that closes the inner forms, the others are open. -/
theorem drop_untilClosed (inner : List Bool) {ts : List Token}
    (h : Layered written G (inner ++ forms) ts) :
    Layered written G forms (ts.drop (untilClosed inner.length ts)) := by
  -- Along the tokens, since each bracket changes the inner forms.
  cases inner with
  | nil =>
      rw [List.length_nil, show untilClosed 0 ts = 0 by cases ts <;> rfl]
      exact h
  | cons b inner =>
      rw [List.length_cons]
      cases h with
      | nil hG =>
          rw [List.drop_nil]
          exact .nil fun outer houter =>
            hG outer (houter.trans (List.suffix_append (b :: inner) forms))
      | plain ho hc _ more =>
          rw [drop_untilClosed_cons, if_neg (by simp [ho]), if_neg (by simp [hc])]
          exact drop_untilClosed (b :: inner) more
      | opening ho hwritten _ more =>
          rw [drop_untilClosed_cons, if_pos ho]
          exact drop_untilClosed (true :: b :: inner) more
      | closing hc _ more =>
          rw [drop_untilClosed_cons, if_neg (by simp [opens_eq_false_of_closes hc]), if_pos hc]
          exact drop_untilClosed inner more
      | procedure ho hfree hl hp hq _ more =>
          rw [drop_untilClosed_cons, if_pos ho, drop_untilClosed_formals hl hp hq]
          exact drop_untilClosed (false :: true :: inner) more
termination_by ts.length

/-- A bracket is written, or a procedure without parameters begins with it. -/
theorem opening_cases (ho : t.opens = true) (h : Layered written G forms (t :: ts)) :
    (written t = true ∧ Layered written G (true :: forms) ts) ∨
    ∃ l p q us, ts = l :: p :: q :: us ∧ l.lexeme = .keyword .lambda ∧ p.opens = true ∧
      q.closes = true ∧ written t = false ∧ forms.headD false = true ∧
      Layered written G (false :: forms) us := by
  cases h with
  | opening _ hwritten _ more => exact .inl ⟨hwritten, more⟩
  | procedure _ hfree hl hp hq _ more =>
      exact .inr ⟨_, _, _, _, rfl, hl, hp, hq, hfree, rfl, more⟩
  | plain ho' _ _ _ => rw [ho] at ho'; cases ho'
  | closing hc _ _ => rw [opens_eq_false_of_closes hc] at ho; cases ho
  | stray hc _ _ => rw [opens_eq_false_of_closes hc] at ho; cases ho

/-- Behind a form the same forms are open as in front of it. -/
theorem drop_extent (ho : t.opens = true) (h : Layered written G forms (t :: ts)) :
    Layered written G forms ((t :: ts).drop (extent (t :: ts))) := by
  rw [extent, if_pos ho, Nat.add_comm, List.drop_succ_cons]
  rcases h.opening_cases ho with ⟨-, more⟩ | ⟨l, p, q, us, rfl, hl, hp, hq, -, -, more⟩
  · exact drop_untilClosed [true] more
  · rw [drop_untilClosed_formals hl hp hq]
    exact drop_untilClosed [false] more

theorem tail_of_plain (ho : t.opens = false) (hc : t.closes = false)
    (h : Layered written G forms (t :: ts)) : Layered written G forms ts := by
  cases h with
  | plain _ _ _ more => exact more
  | opening ho' _ _ _ => rw [ho] at ho'; cases ho'
  | procedure ho' _ _ _ _ _ _ => rw [ho] at ho'; cases ho'
  | closing hc' _ _ => rw [hc] at hc'; cases hc'
  | stray hc' _ _ => rw [hc] at hc'; cases hc'

theorem tail_of_stray (hc : t.closes = true) (h : Layered written G [] (t :: ts)) :
    Layered written G [] ts := by
  cases h with
  | stray _ _ more => exact more
  | plain _ hc' _ _ => rw [hc] at hc'; cases hc'
  | opening ho _ _ _ => rw [closes_eq_false_of_opens ho] at hc; cases hc

end Layered

end SchemeFront.Token
