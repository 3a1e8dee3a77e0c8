import SchemeFront.Fault

set_option autoImplicit false

/-! # Spans

A `Span` is a half-open range of characters in a named text. It never ends before it starts:
`Span.between`, which is given two spans, checks this, and `Span.join`, the smallest span that
covers both, needs no check.
-/

namespace SchemeFront

/-- The characters `start, …, stop - 1` of the text named `path`. -/
structure Span where
  path : String
  start : Int
  stop : Int
  start_le_stop : start ≤ stop
deriving DecidableEq

namespace Span

/-- The span from `start` to `stop`, if it does not end before it starts. -/
def make (path : String) (start stop : Int) : Except Fault Span :=
  if h : start ≤ stop then .ok ⟨path, start, stop, h⟩ else .error (.reversedSpan start stop)

theorem make_of_le {path : String} {start stop : Int} (h : start ≤ stop) :
    make path start stop = .ok ⟨path, start, stop, h⟩ := by
  rw [make, dif_pos h]

theorem exists_of_make {path : String} {start stop : Int} {s : Span}
    (h : make path start stop = .ok s) : ∃ hle, s = ⟨path, start, stop, hle⟩ := by
  unfold make at h
  split at h <;> cases h
  exact ⟨_, rfl⟩

/-- The `length` characters from `start` on. -/
def ofLength (path : String) (start : Int) (length : Nat) : Span :=
  ⟨path, start, start + length, by omega⟩

/-- The empty span at `offset`. -/
def point (path : String) (offset : Int) : Span := ofLength path offset 0

/-- The first character of a span. -/
def first (s : Span) : Span := ofLength s.path s.start 1

/-- The last character of a span. -/
def final (s : Span) : Span := ofLength s.path (s.stop - 1) 1

@[simp] theorem first_start (s : Span) : s.first.start = s.start := rfl

@[simp] theorem first_stop (s : Span) : s.first.stop = s.start + 1 := rfl

@[simp] theorem final_start (s : Span) : s.final.start = s.stop - 1 := rfl

@[simp] theorem final_stop (s : Span) : s.final.stop = s.stop := by
  simp [final, ofLength]

/-- The number of characters. -/
def length (s : Span) : Int := s.stop - s.start

/-- `t` lies within `s`; the names of the texts play no part. -/
def contains (s t : Span) : Bool := decide (s.start ≤ t.start) && decide (t.stop ≤ s.stop)

/-- The smallest span that covers `s` and `t`, in the text of `s`. -/
def join (s t : Span) : Span :=
  ⟨s.path, min s.start t.start, max s.stop t.stop, by
    have := s.start_le_stop
    omega⟩

/-- From the start of `s` to the end of `t`, in the text of `s`. -/
def between (s t : Span) : Except Fault Span := make s.path s.start t.stop

/-- A span in words. -/
def text (s : Span) : String := s!"{s.path}:{s.start}..{s.stop}"

end Span

end SchemeFront
