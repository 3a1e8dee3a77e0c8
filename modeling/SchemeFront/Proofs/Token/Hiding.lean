import SchemeFront.Proofs.Token.Nesting

set_option autoImplicit false

/-! # Tokens behind a form

A reader inside brackets does not come to the tokens behind them: what is left inside hides these
(`Hides`). So the first form of a list of tokens can be cut off (`IsFirstForm`): it has the same
extent alone, and hides all other tokens.
-/

namespace SchemeFront.Token

variable {us ts : List Token} {d e : Nat}

/-! ## Brackets that are closed before -/

/-- Inside `d` brackets, `ts` hides the tokens `us` behind it: all these brackets are closed in
`ts`, or there are no such tokens. -/
def Hides (us : List Token) : (d : Nat) → (ts : List Token) → Prop
  | 0, _ => True
  | d + 1, ts => us = [] ∨ openAfter d ts = none

/-- Outside all brackets nothing need be hidden. -/
theorem hides_zero (us ts : List Token) : Hides us 0 ts := trivial

/-- What is hidden inside more brackets is hidden inside fewer. -/
theorem Hides.mono (h : Hides us d ts) (hed : e ≤ d) : Hides us e ts := by
  cases e with
  | zero => trivial
  | succ e =>
      obtain ⟨k, rfl⟩ := Nat.exists_eq_add_of_le' hed
      rcases h with h | h
      · exact .inl h
      · refine .inr ?_
        cases he : openAfter e ts with
        | none => rfl
        | some f =>
            have hadd := openAfter_add he k
            rw [Nat.add_comm e k] at hadd
            rw [show openAfter (k + e) ts = none from h] at hadd
            cases hadd

theorem Hides.of_cons_plain {t : Token} (ho : t.opens = false) (hc : t.closes = false)
    (h : Hides us (d + 1) (t :: ts)) : Hides us (d + 1) ts := by
  rwa [Hides, openAfter_cons_of_plain ho hc] at h

theorem Hides.of_cons_opens {t : Token} (ht : t.opens = true)
    (h : Hides us (d + 1) (t :: ts)) : Hides us (d + 2) ts := by
  rwa [Hides, openAfter_cons_of_opens ht] at h

theorem Hides.cons_opens {t : Token} (ht : t.opens = true) (h : Hides us (d + 1) ts) :
    Hides us d (t :: ts) := by
  cases d with
  | zero => trivial
  | succ d => rwa [Hides, openAfter_cons_of_opens ht]

theorem Hides.of_cons_closes {t : Token} (ht : t.closes = true)
    (h : Hides us (d + 1) (t :: ts)) : Hides us d ts := by
  cases d with
  | zero => trivial
  | succ d => rwa [Hides, openAfter_cons_of_closes ht] at h

/-- No tokens hide others inside a bracket. -/
theorem Hides.eq_nil (h : Hides us (d + 1) []) : us = [] := by
  rcases h with h | h
  · exact h
  · cases h

/-- Inside a bracket there is a next token, unless nothing follows at all. -/
theorem Hides.getElem?_zero (h : Hides us (d + 1) ts) : (ts ++ us)[0]? = ts[0]? := by
  cases ts with
  | nil => rw [h.eq_nil, List.append_nil]
  | cons t ts => rfl

/-- A form inside whose bracket `us` is hidden ends before `us`. -/
theorem Hides.extent_append {t : Token} (ht : t.opens = true) (h : Hides us 1 ts) :
    extent (t :: (ts ++ us)) = extent (t :: ts) := by
  rcases h with rfl | h
  · rw [List.append_nil]
  · rcases closed_or_confined ts with ⟨xs, c, vs, rfl, hx, hc⟩ | hconf
    · rw [List.append_assoc, List.cons_append, extent_of_balanced ht hx hc,
        extent_of_balanced ht hx hc]
    · rw [Confined, h] at hconf
      cases hconf

/-- Behind a form, the brackets around it are left to close. -/
theorem Hides.drop_extent {t : Token} (ht : t.opens = true) (h : Hides us (d + 1) ts) :
    Hides us d ((t :: ts).drop (extent (t :: ts))) := by
  cases d with
  | zero => trivial
  | succ d =>
      rcases h with rfl | h
      · exact .inl rfl
      · rcases closed_or_confined ts with ⟨xs, c, vs, rfl, hx, hc⟩ | hconf
        · have hinside := openAfter_add hx (d + 1)
          rw [Nat.zero_add] at hinside
          rw [openAfter_append, hinside, Option.bind_some, openAfter_cons_of_closes hc] at h
          rw [drop_extent_of_balanced ht hx hc]
          exact .inr h
        · obtain ⟨e, he⟩ := Option.isSome_iff_exists.1 hconf
          have hadd := openAfter_add he (d + 1)
          rw [Nat.zero_add, h] at hadd
          cases hadd

/-! ## First forms -/

/-- The first form of `t :: (front ++ us)` is `t :: front`. -/
structure IsFirstForm (t : Token) (front us : List Token) : Prop where
  extent_append : extent (t :: (front ++ us)) = front.length + 1
  extent_alone : extent (t :: front) = front.length + 1
  hides : t.opens = true → Hides us 1 front

/-- Tokens begin with a form. -/
theorem exists_isFirstForm (t : Token) (ts : List Token) :
    ∃ front us, ts = front ++ us ∧ IsFirstForm t front us := by
  cases ht : t.opens with
  | false =>
      exact ⟨[], ts, rfl, extent_cons_of_not_opens ht ts, extent_cons_of_not_opens ht [],
        fun ho => absurd ho (by simp [ht])⟩
  | true =>
      rcases closed_or_confined ts with ⟨xs, c, us, rfl, hx, hc⟩ | hconf
      · refine ⟨xs ++ [c], us, by simp, ?_, ?_, fun _ => .inr ?_⟩
        · simp [extent_of_balanced ht hx hc]
        · simp [extent_of_balanced ht hx hc]
        · rw [openAfter_append, show openAfter 0 xs = some 0 from hx]
          exact openAfter_zero_cons_of_closes hc []
      · refine ⟨ts, [], by simp, ?_, extent_of_confined ht hconf, fun _ => .inl rfl⟩
        rw [List.append_nil]
        exact extent_of_confined ht hconf

/-- A closing bracket that closes nothing. -/
def IsStrayClose (unit : List Token) : Prop := ∃ t, unit = [t] ∧ t.closes = true

/-- A first form is a stray bracket if it begins with a closing one. -/
theorem IsFirstForm.closes_iff {t : Token} {front us : List Token}
    (h : IsFirstForm t front us) : t.closes = true ↔ IsStrayClose (t :: front) := by
  constructor
  · intro hc
    have hlen := h.extent_alone
    rw [extent_cons_of_not_opens (opens_eq_false_of_closes hc)] at hlen
    have hnil : front = [] := List.length_eq_zero_iff.1 (by omega)
    exact ⟨t, by rw [hnil], hc⟩
  · rintro ⟨u, hu, hc⟩
    cases hu
    exact hc

end SchemeFront.Token
