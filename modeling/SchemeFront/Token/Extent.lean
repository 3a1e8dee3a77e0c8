import SchemeFront.Token

set_option autoImplicit false

/-! # Extents of forms

A form is a single token, or everything from an opening bracket to the bracket that closes it.
`extent` counts the tokens of the form that a list of tokens begins with; a form that is never
closed extends to the end. `cover` is the span of a run of tokens.
-/

namespace SchemeFront.Token

/-- How many tokens it takes until `depth` open brackets are closed: all of them if that never
happens. -/
def untilClosed : (depth : Nat) → List Token → Nat
  | 0, _ => 0
  | _, [] => 0
  | depth + 1, t :: ts =>
      1 + untilClosed (if t.opens then depth + 2 else if t.closes then depth else depth + 1) ts

/-- The number of tokens of the first form. -/
def extent : List Token → Nat
  | [] => 0
  | t :: ts => 1 + untilClosed (if t.opens then 1 else 0) ts

/-! ## Bounds -/

theorem untilClosed_le_length (depth : Nat) (ts : List Token) :
    untilClosed depth ts ≤ ts.length := by
  induction ts generalizing depth with
  | nil => cases depth <;> simp [untilClosed]
  | cons t ts ih =>
      cases depth with
      | zero => simp [untilClosed]
      | succ depth =>
          have := ih (if t.opens then depth + 2 else if t.closes then depth else depth + 1)
          simp only [untilClosed, List.length_cons]
          omega

/-- A form does not go beyond the tokens there are. -/
theorem extent_le_length (ts : List Token) : extent ts ≤ ts.length := by
  cases ts with
  | nil => simp [extent]
  | cons t ts =>
      have := untilClosed_le_length (if t.opens then 1 else 0) ts
      simp only [extent, List.length_cons]
      omega

/-- A form has at least one token. -/
theorem extent_pos {ts : List Token} (h : ts ≠ []) : 0 < extent ts := by
  cases ts with
  | nil => contradiction
  | cons t ts => simp only [extent]; omega

/-- A token that is no opening bracket is a form by itself. -/
theorem extent_cons_of_not_opens {t : Token} (h : t.opens = false) (ts : List Token) :
    extent (t :: ts) = 1 := by
  simp [extent, h, untilClosed]

/-! ## Spans -/

/-- The span from the first token to the last, or `fallback` if there is none. -/
def cover (ts : List Token) (fallback : Span) : Except Fault Span :=
  match ts.head?, ts.getLast? with
  | some first, some last => first.span.between last.span
  | _, _ => .ok fallback

/-- The span of tokens goes from the start of the first to the end of the last. -/
theorem ends_of_cover {ts : List Token} {fallback s : Span} (hne : ts ≠ [])
    (h : cover ts fallback = .ok s) :
    s.start = (ts.head hne).span.start ∧ s.stop = (ts.getLast hne).span.stop := by
  rw [cover, List.head?_eq_some_head hne, List.getLast?_eq_some_getLast hne] at h
  obtain ⟨-, rfl⟩ := Span.exists_of_make h
  exact ⟨rfl, rfl⟩

end SchemeFront.Token
