import SchemeFront.Proofs.Token.Strays

set_option autoImplicit false

/-! # Levels of brackets

`levelAfter` counts open brackets over any list of tokens: unlike `openAfter`, it goes on at a
closing bracket that closes nothing and leaves the count at zero. Where no such bracket stands the
two counts are the same (`levelAfter_of_openAfter`).
-/

namespace SchemeFront.Token

variable {t : Token} {ts us xs : List Token} {d e : Nat}

/-- How many brackets are open behind `ts` if `level` are before it. A bracket that closes nothing
does not count. -/
def levelAfter : (level : Nat) → (ts : List Token) → Nat
  | level, [] => level
  | level, t :: ts =>
      levelAfter (if t.opens then level + 1 else if t.closes then level - 1 else level) ts

@[simp] theorem levelAfter_nil (d : Nat) : levelAfter d [] = d := rfl

theorem levelAfter_cons_of_opens (h : t.opens = true) (d : Nat) (ts : List Token) :
    levelAfter d (t :: ts) = levelAfter (d + 1) ts := by
  simp [levelAfter, h]

theorem levelAfter_cons_of_closes (h : t.closes = true) (d : Nat) (ts : List Token) :
    levelAfter d (t :: ts) = levelAfter (d - 1) ts := by
  simp [levelAfter, h, opens_eq_false_of_closes h]

theorem levelAfter_cons_of_plain (ho : t.opens = false) (hc : t.closes = false) (d : Nat)
    (ts : List Token) : levelAfter d (t :: ts) = levelAfter d ts := by
  simp [levelAfter, ho, hc]

theorem levelAfter_append (d : Nat) (ts us : List Token) :
    levelAfter d (ts ++ us) = levelAfter (levelAfter d ts) us := by
  induction ts generalizing d with
  | nil => rfl
  | cons t ts ih => exact ih _

/-- As long as no bracket is closed that was not opened, the two counts are the same. -/
theorem levelAfter_of_openAfter (h : openAfter d ts = some e) : levelAfter d ts = e := by
  induction ts generalizing d with
  | nil => simpa using h
  | cons t ts ih =>
      rcases bracket_cases t with ho | hc | ⟨ho, hc⟩
      · rw [openAfter_cons_of_opens ho] at h
        rw [levelAfter_cons_of_opens ho, ih h]
      · cases d with
        | zero => simp [openAfter_zero_cons_of_closes hc] at h
        | succ d =>
            rw [openAfter_cons_of_closes hc] at h
            rw [levelAfter_cons_of_closes hc, Nat.add_sub_cancel, ih h]
      · rw [openAfter_cons_of_plain ho hc] at h
        rw [levelAfter_cons_of_plain ho hc, ih h]

/-- A balanced list changes no level. -/
theorem Balanced.levelAfter (hx : Balanced xs) (d : Nat) : levelAfter d xs = d := by
  have hd : openAfter (0 + d) xs = some (0 + d) := openAfter_add hx d
  rw [Nat.zero_add] at hd
  exact levelAfter_of_openAfter hd

/-- The bracket behind a balanced list closes the innermost open bracket. -/
theorem Balanced.levelAfter_closed {c : Token} (hx : Balanced xs) (hc : c.closes = true)
    (d : Nat) (us : List Token) :
    Token.levelAfter d (xs ++ c :: us) = Token.levelAfter (d - 1) us := by
  rw [levelAfter_append, hx.levelAfter, levelAfter_cons_of_closes hc]

/-- At the end brackets are open if one of them is never closed. -/
theorem levelAfter_pos_iff (ts : List Token) :
    0 < levelAfter 0 ts ↔ (unclosed? ts).isSome := by
  induction ts with
  | nil => simp [unclosed?]
  | cons t ts ih =>
      rcases bracket_cases t with ho | hc | ⟨ho, hc⟩
      · rw [levelAfter_cons_of_opens ho]
        rcases closed_or_confined ts with ⟨xs, c, us, rfl, hx, hc⟩ | hts
        · -- The first bracket is closed by `c`, which would close nothing without it.
          have hnot : ¬ Confined (xs ++ c :: us) := not_confined_of_balanced_append hx hc
          rw [unclosed?, if_neg (by simpa [ho, Confined] using hnot), ← ih,
            hx.levelAfter_closed hc, hx.levelAfter_closed hc]
        · obtain ⟨e, he⟩ := Option.isSome_iff_exists.1 hts
          have hlevel : levelAfter (0 + 1) ts = e + 1 :=
            levelAfter_of_openAfter (openAfter_add he 1)
          rw [unclosed?_of_confined ho hts, hlevel]
          simp
      · rw [levelAfter_cons_of_closes hc, unclosed?_cons_of_not_opens (opens_eq_false_of_closes hc),
          ← ih]
      · rw [levelAfter_cons_of_plain ho hc, unclosed?_cons_of_not_opens ho, ih]

/-- `o` is opened in `ts` and never closed, and all brackets opened before it are closed. -/
def IsFirstUnclosed (ts : List Token) (o : Token) : Prop :=
  ∃ before after, ts = before ++ o :: after ∧ o.opens = true ∧ NeverClosed (o :: after) ∧
    ∀ earlier t later, before = earlier ++ t :: later → t.opens = true →
      ¬ NeverClosed (t :: (later ++ o :: after))

theorem isFirstUnclosed_of_mem {o : Token} (h : o ∈ unclosed? ts) : IsFirstUnclosed ts o := by
  induction ts with
  | nil => cases h
  | cons t ts ih =>
      rw [unclosed?] at h
      split at h
      · rename_i ht
        cases h
        obtain ⟨ho, hts⟩ := Bool.and_eq_true_iff.1 ht
        exact ⟨[], ts, rfl, ho, (neverClosed_cons_iff ho ts).2 hts, by simp⟩
      · rename_i ht
        obtain ⟨before, after, rfl, ho, hnever, hfirst⟩ := ih h
        refine ⟨t :: before, after, rfl, ho, hnever, ?_⟩
        intro earlier u later hsplit hu
        rcases List.cons_eq_append_iff.1 hsplit with ⟨rfl, hcons⟩ | ⟨earlier, rfl, hbefore⟩
        · obtain ⟨rfl, rfl⟩ := List.cons_eq_cons.1 hcons
          rw [neverClosed_cons_iff hu]
          simpa [hu, Confined] using ht
        · exact hfirst earlier u later hbefore hu

/-! ## Brackets below a limit -/

/-- With `level` brackets open before `ts`, brackets are only opened where fewer than `limit` are
open. -/
def OpensBelow (limit : Int) (level : Nat) (ts : List Token) : Prop :=
  ∀ before t after, ts = before ++ t :: after → t.opens = true →
    (levelAfter level before : Int) < limit

theorem opensBelow_cons {limit : Int} :
    OpensBelow limit d (t :: ts)
      ↔ (t.opens = true → (d : Int) < limit) ∧ OpensBelow limit (levelAfter d [t]) ts := by
  constructor
  · intro h
    refine ⟨h [] t ts rfl, ?_⟩
    rintro before u after rfl hu
    have hbelow := h (t :: before) u after rfl hu
    rwa [← List.singleton_append, levelAfter_append] at hbelow
  · rintro ⟨hd, h⟩ before u after hsplit hu
    rcases List.cons_eq_append_iff.1 hsplit with ⟨rfl, hcons⟩ | ⟨before, rfl, rfl⟩
    · obtain ⟨rfl, rfl⟩ := List.cons_eq_cons.1 hcons
      exact hd hu
    · rw [← List.singleton_append, levelAfter_append]
      exact h before u after rfl hu

/-! ## Places in a list -/

/-- The tokens `ts` are the end of `source`, with `level` brackets open before them. -/
def LeftOpen (source : List Token) (level : Nat) (ts : List Token) : Prop :=
  ∃ before, source = before ++ ts ∧ levelAfter 0 before = level

namespace LeftOpen

variable {source : List Token}

theorem start (source : List Token) : LeftOpen source 0 source := ⟨[], rfl, rfl⟩

theorem append (h : LeftOpen source d (xs ++ ts)) : LeftOpen source (levelAfter d xs) ts := by
  obtain ⟨before, hsource, hlevel⟩ := h
  refine ⟨before ++ xs, by rw [hsource, List.append_assoc], ?_⟩
  rw [levelAfter_append, hlevel]

theorem of_opens (h : LeftOpen source d (t :: ts)) (ho : t.opens = true) :
    LeftOpen source (d + 1) ts := by
  have htail : LeftOpen source (levelAfter d [t]) ts := append h
  rwa [levelAfter_cons_of_opens ho] at htail

theorem of_closes (h : LeftOpen source d (t :: ts)) (hc : t.closes = true) :
    LeftOpen source (d - 1) ts := by
  have htail : LeftOpen source (levelAfter d [t]) ts := append h
  rwa [levelAfter_cons_of_closes hc] at htail

theorem of_plain (h : LeftOpen source d (t :: ts)) (ho : t.opens = false) (hc : t.closes = false) :
    LeftOpen source d ts := by
  have htail : LeftOpen source (levelAfter d [t]) ts := append h
  rwa [levelAfter_cons_of_plain ho hc] at htail

theorem of_balanced (h : LeftOpen source d (xs ++ ts)) (hx : Balanced xs) :
    LeftOpen source d ts := by
  have htail := append h
  rwa [hx.levelAfter] at htail

end LeftOpen

end SchemeFront.Token
