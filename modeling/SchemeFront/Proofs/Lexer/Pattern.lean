import SchemeFront.Lexer.Pattern

set_option autoImplicit false

/-! # What patterns match

`Pattern.Matches` says what a pattern allows, without any order. The backtracking of `Pattern.take`
finds nothing else (`Pattern.exists_matches`), and it finds something wherever the pattern matches
and `next` can go on behind the match (`Pattern.isSome_take`). So a pattern that allows only one
length at a place is matched with that length (`Pattern.length?_eq_some`). The patterns that allow
several lengths are a class of characters and what begins with one: they take all that there are
(`Pattern.takeMany_eq_some`).
-/

namespace SchemeFront

namespace Pattern

/-- The pattern allows the characters `text` in front of `behind`. -/
inductive Matches : Pattern → (text behind : List Char) → Prop where
  | one {which : Char → Bool} {c : Char} {behind : List Char} (hc : which c = true) :
      Matches (one which) [c] behind
  | many {which : Char → Bool} {text behind : List Char} (h : ∀ c ∈ text, which c = true) :
      Matches (many which) text behind
  | absent {p : Pattern} {behind : List Char} : Matches (optional p) [] behind
  | present {p : Pattern} {text behind : List Char} (h : Matches p text behind) :
      Matches (optional p) text behind
  | seq {p q : Pattern} {front rear behind : List Char} (hp : Matches p front (rear ++ behind))
      (hq : Matches q rear behind) : Matches (seq p q) (front ++ rear) behind
  | boundary {which : Char → Bool} {behind : List Char} (h : behind.head?.any which = false) :
      Matches (boundary which) [] behind

variable {which : Char → Bool} {p q : Pattern} {next : List Char → Option Nat}
  {cs text behind : List Char} {n : Nat}

/-! ## What is allowed -/

@[simp] theorem matches_one :
    Matches (one which) text behind ↔ ∃ c, which c = true ∧ text = [c] := by
  constructor
  · rintro ⟨hc⟩
    exact ⟨_, hc, rfl⟩
  · rintro ⟨c, hc, rfl⟩
    exact .one hc

@[simp] theorem matches_many :
    Matches (many which) text behind ↔ ∀ c ∈ text, which c = true := by
  constructor
  · intro h
    cases h with
    | many h => exact h
  · exact .many

@[simp] theorem matches_optional :
    Matches (optional p) text behind ↔ text = [] ∨ Matches p text behind := by
  constructor
  · intro h
    cases h with
    | absent => exact .inl rfl
    | present h => exact .inr h
  · rintro (rfl | h)
    · exact .absent
    · exact .present h

@[simp] theorem matches_seq : Matches (seq p q) text behind ↔
    ∃ front rear, text = front ++ rear ∧ Matches p front (rear ++ behind) ∧
      Matches q rear behind := by
  constructor
  · intro h
    cases h with
    | seq hp hq => exact ⟨_, _, rfl, hp, hq⟩
  · rintro ⟨front, rear, rfl, hp, hq⟩
    exact .seq hp hq

@[simp] theorem matches_boundary : Matches (boundary which) text behind ↔
    text = [] ∧ behind.head?.any which = false := by
  constructor
  · intro h
    cases h with
    | boundary h => exact ⟨rfl, h⟩
  · rintro ⟨rfl, h⟩
    exact .boundary h

/-! ## What is found -/

theorem exists_of_takeMany_eq_some (h : takeMany which next cs = some n) :
    ∃ text behind k, cs = text ++ behind ∧ (∀ c ∈ text, which c = true) ∧
      next behind = some k ∧ n = text.length + k := by
  have none_taken : ∀ {cs : List Char} {n : Nat}, next cs = some n → ∃ text behind k,
      cs = text ++ behind ∧ (∀ c ∈ text, which c = true) ∧ next behind = some k ∧
        n = text.length + k := by
    intro cs n h
    exact ⟨[], cs, n, rfl, by simp, h, by simp⟩
  induction cs generalizing n with
  | nil => exact none_taken h
  | cons c cs ih =>
      rw [takeMany] at h
      split at h
      · rename_i hc
        rcases Option.or_eq_some_iff.1 h with h | ⟨-, h⟩
        · obtain ⟨k, hk, rfl⟩ := Option.map_eq_some_iff.1 h
          obtain ⟨text, behind, m, rfl, htext, hnext, rfl⟩ := ih hk
          refine ⟨c :: text, behind, m, rfl, ?_, hnext, by simp; omega⟩
          simpa [hc] using htext
        · exact none_taken h
      · exact none_taken h

/-- What the pattern takes is allowed. -/
theorem exists_matches (h : p.take next cs = some n) :
    ∃ text behind k, cs = text ++ behind ∧ Matches p text behind ∧ next behind = some k ∧
      n = text.length + k := by
  induction p generalizing next cs n with
  | one which =>
      cases cs with
      | nil => cases h
      | cons c cs =>
          rw [take] at h
          split at h
          · rename_i hc
            obtain ⟨k, hk, rfl⟩ := Option.map_eq_some_iff.1 h
            exact ⟨[c], cs, k, rfl, .one hc, hk, Nat.add_comm k 1⟩
          · cases h
  | many which =>
      obtain ⟨text, behind, k, rfl, htext, hnext, rfl⟩ := exists_of_takeMany_eq_some h
      exact ⟨text, behind, k, rfl, .many htext, hnext, rfl⟩
  | optional p ih =>
      rcases Option.or_eq_some_iff.1 h with h | ⟨-, h⟩
      · obtain ⟨text, behind, k, rfl, hp, hnext, rfl⟩ := ih h
        exact ⟨text, behind, k, rfl, .present hp, hnext, rfl⟩
      · exact ⟨[], cs, n, rfl, .absent, h, by simp⟩
  | seq p q ihp ihq =>
      obtain ⟨front, rest, k, rfl, hp, hrest, rfl⟩ := ihp h
      obtain ⟨rear, behind, m, rfl, hq, hnext, rfl⟩ := ihq hrest
      exact ⟨front ++ rear, behind, m, by simp, .seq hp hq, hnext, by simp; omega⟩
  | boundary which =>
      rw [take] at h
      split at h
      · cases h
      · rename_i hc
        exact ⟨[], cs, n, rfl, .boundary (by simpa using hc), h, by simp⟩

theorem isSome_takeMany (htext : ∀ c ∈ text, which c = true) (hnext : (next behind).isSome) :
    (takeMany which next (text ++ behind)).isSome := by
  induction text with
  | nil =>
      cases behind with
      | nil => exact hnext
      | cons c cs =>
          rw [List.nil_append, takeMany]
          split
          · rw [Option.isSome_or, hnext, Bool.or_true]
          · exact hnext
  | cons c text ih =>
      rw [List.cons_append, takeMany, if_pos (htext c (by simp)), Option.isSome_or,
        Option.isSome_map, ih fun d hd => htext d (by simp [hd]), Bool.true_or]

/-- Where the pattern matches and `next` goes on behind the match, something is taken. -/
theorem isSome_take (h : Matches p text behind) (hnext : (next behind).isSome) :
    (p.take next (text ++ behind)).isSome := by
  induction h generalizing next with
  | one hc =>
      rw [List.singleton_append, take, if_pos hc, Option.isSome_map]
      exact hnext
  | many h => exact isSome_takeMany h hnext
  | @absent p behind => rw [List.nil_append, take, Option.isSome_or, hnext, Bool.or_true]
  | present h ih => rw [take, Option.isSome_or, ih hnext, Bool.true_or]
  | seq hp hq ihp ihq =>
      rw [take, List.append_assoc]
      exact ihp (ihq hnext)
  | boundary h =>
      rw [List.nil_append, take, if_neg (by simp [h])]
      exact hnext

/-! ## Lengths of matches -/

theorem length?_eq_none (h : ∀ text behind, cs = text ++ behind → ¬ Matches p text behind) :
    p.length? cs = none := by
  cases hn : p.length? cs with
  | none => rfl
  | some n =>
      obtain ⟨text, behind, k, heq, hp, -⟩ := exists_matches hn
      exact absurd hp (h text behind heq)

/-- A match is found if it is the only one. -/
theorem length?_eq_some (h : Matches p text behind)
    (honly : ∀ text' behind', text ++ behind = text' ++ behind' → Matches p text' behind' →
      text'.length = text.length) :
    p.length? (text ++ behind) = some text.length := by
  have hsome : (p.length? (text ++ behind)).isSome := isSome_take h rfl
  obtain ⟨n, hn⟩ := Option.isSome_iff_exists.1 hsome
  obtain ⟨text', behind', k, heq, hp, hk, rfl⟩ := exists_matches hn
  cases hk
  rw [honly text' behind' heq hp] at hn
  exact hn

/-- Where `next` goes on behind all characters of the class that there are, these are taken. -/
theorem takeMany_eq_some (htext : ∀ c ∈ text, which c = true)
    (hbehind : behind.head?.any which = false) (hnext : next behind = some n) :
    takeMany which next (text ++ behind) = some (text.length + n) := by
  induction text with
  | nil =>
      rw [List.nil_append, List.length_nil, Nat.zero_add]
      cases behind with
      | nil => exact hnext
      | cons c cs =>
          have hc : ¬ which c = true := by simpa using hbehind
          rw [takeMany, if_neg hc, hnext]
  | cons c text ih =>
      rw [List.cons_append, takeMany, if_pos (htext c (by simp)),
        ih fun d hd => htext d (by simp [hd])]
      simp only [Option.map_some, Option.some_or, List.length_cons, Option.some.injEq]
      omega

end Pattern

end SchemeFront
