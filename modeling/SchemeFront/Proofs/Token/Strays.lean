import SchemeFront.Proofs.Token.Nesting

set_option autoImplicit false

/-! # Brackets that have no partner

`strays` are the closing brackets that close nothing, and `unclosed?` is the first opening bracket
that is never closed. Both are seen from outside of all forms: a balanced list in front changes
neither, and in a form that is never closed there is nothing else to see.
-/

namespace SchemeFront.Token

variable {t : Token} {ts us xs : List Token} {d e : Nat}

/-- The closing brackets that close nothing, if `depth` brackets are open before. -/
def strays : (depth : Nat) → (ts : List Token) → List Token
  | _, [] => []
  | depth, t :: ts =>
      if t.opens then strays (depth + 1) ts
      else if t.closes then
        match depth with
        | 0 => t :: strays 0 ts
        | depth + 1 => strays depth ts
      else strays depth ts

/-- The first opening bracket that is never closed. -/
def unclosed? : (ts : List Token) → Option Token
  | [] => none
  | t :: ts => if t.opens && (openAfter 0 ts).isSome then some t else unclosed? ts

/-! ## Closing brackets -/

theorem strays_cons_of_opens (h : t.opens = true) (d : Nat) (ts : List Token) :
    strays d (t :: ts) = strays (d + 1) ts := by
  cases d <;> simp [strays, h]

theorem strays_cons_of_closes (h : t.closes = true) (d : Nat) (ts : List Token) :
    strays (d + 1) (t :: ts) = strays d ts := by
  simp [strays, h, opens_eq_false_of_closes h]

theorem strays_zero_cons_of_closes (h : t.closes = true) (ts : List Token) :
    strays 0 (t :: ts) = t :: strays 0 ts := by
  simp [strays, h, opens_eq_false_of_closes h]

theorem strays_cons_of_plain (ho : t.opens = false) (hc : t.closes = false) (d : Nat)
    (ts : List Token) : strays d (t :: ts) = strays d ts := by
  cases d <;> simp [strays, ho, hc]

/-- As long as no bracket is closed that was not opened, there are no strays. -/
theorem strays_append (h : openAfter d xs = some e) (us : List Token) :
    strays d (xs ++ us) = strays e us := by
  induction xs generalizing d with
  | nil =>
      simp only [openAfter_nil, Option.some.injEq] at h
      rw [h, List.nil_append]
  | cons t xs ih =>
      rw [List.cons_append]
      rcases bracket_cases t with ho | hc | ⟨ho, hc⟩
      · rw [openAfter_cons_of_opens ho] at h
        rw [strays_cons_of_opens ho, ih h]
      · cases d with
        | zero => simp [openAfter_zero_cons_of_closes hc] at h
        | succ d =>
            rw [openAfter_cons_of_closes hc] at h
            rw [strays_cons_of_closes hc, ih h]
      · rw [openAfter_cons_of_plain ho hc] at h
        rw [strays_cons_of_plain ho hc, ih h]

theorem Balanced.strays_append (hx : Balanced xs) (us : List Token) :
    strays 0 (xs ++ us) = strays 0 us :=
  Token.strays_append hx us

/-- In a form that is never closed no bracket closes anything outside. -/
theorem strays_of_confined (ht : t.opens = true) (h : Confined ts) : strays 0 (t :: ts) = [] := by
  obtain ⟨d, hd⟩ := Option.isSome_iff_exists.1 (h.cons_of_opens ht)
  have key := Token.strays_append hd []
  rwa [List.append_nil] at key

theorem of_mem_strays (h : t ∈ strays d ts) : t ∈ ts ∧ t.closes = true := by
  induction ts generalizing d with
  | nil => cases h
  | cons u us ih =>
      have hcons : (t ∈ us ∧ t.closes = true) → t ∈ u :: us ∧ t.closes = true :=
        fun h => ⟨List.mem_cons_of_mem u h.1, h.2⟩
      rcases bracket_cases u with ho | hc | ⟨ho, hc⟩
      · rw [strays_cons_of_opens ho] at h
        exact hcons (ih h)
      · cases d with
        | zero =>
            rw [strays_zero_cons_of_closes hc] at h
            rcases List.mem_cons.1 h with rfl | h
            · exact ⟨List.mem_cons_self, hc⟩
            · exact hcons (ih h)
        | succ d =>
            rw [strays_cons_of_closes hc] at h
            exact hcons (ih h)
      · rw [strays_cons_of_plain ho hc] at h
        exact hcons (ih h)

/-! ## Opening brackets -/

theorem unclosed?_cons_of_not_opens (h : t.opens = false) (ts : List Token) :
    unclosed? (t :: ts) = unclosed? ts := by
  simp [unclosed?, h]

/-- Brackets that are closed later are not the ones that never are. -/
theorem unclosed?_append (h : openAfter d xs = some 0) (us : List Token) :
    unclosed? (xs ++ us) = unclosed? us := by
  induction xs generalizing d with
  | nil => rfl
  | cons t xs ih =>
      rw [List.cons_append]
      rcases bracket_cases t with ho | hc | ⟨ho, hc⟩
      · rw [openAfter_cons_of_opens ho] at h
        -- What follows closes `t` as well, so it cannot leave brackets open only.
        have hnone : openAfter 0 xs = none := by
          cases hx : openAfter 0 xs with
          | none => rfl
          | some e =>
              have hadd := openAfter_add hx (d + 1)
              rw [Nat.zero_add, h] at hadd
              cases hadd
        rw [unclosed?, openAfter_append, hnone, if_neg (by simp), ih h]
      · rw [unclosed?_cons_of_not_opens (opens_eq_false_of_closes hc)]
        cases d with
        | zero => simp [openAfter_zero_cons_of_closes hc] at h
        | succ d =>
            rw [openAfter_cons_of_closes hc] at h
            exact ih h
      · rw [openAfter_cons_of_plain ho hc] at h
        rw [unclosed?_cons_of_not_opens ho, ih h]

theorem Balanced.unclosed?_append (hx : Balanced xs) (us : List Token) :
    unclosed? (xs ++ us) = unclosed? us :=
  Token.unclosed?_append hx us

theorem unclosed?_of_confined (ht : t.opens = true) (h : Confined ts) :
    unclosed? (t :: ts) = some t := by
  rw [unclosed?, if_pos]
  rw [ht]
  exact h

theorem of_mem_unclosed? (h : t ∈ unclosed? ts) : t ∈ ts ∧ t.opens = true := by
  induction ts with
  | nil => cases h
  | cons u us ih =>
      rw [unclosed?] at h
      split at h
      · rename_i hu
        cases h
        exact ⟨List.mem_cons_self, (Bool.and_eq_true_iff.1 hu).1⟩
      · exact ⟨List.mem_cons_of_mem u (ih h).1, (ih h).2⟩

end SchemeFront.Token
