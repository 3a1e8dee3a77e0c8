import Mathlib.Data.List.Chain
import SchemeFront.Parse.Body

set_option autoImplicit false

/-! # Places of the parser

The parser moves, enters a form or leaves the innermost one (`Position.Step`). Wherever it is, its
depth is the number of open forms that count, at most the limit, and of two forms one of which is
right inside the other one counts (`Position.Bounded`): one step keeps within the limit, and so does
a run of them. So at most twice as many forms are open as the limit allows levels.

The places of an answer are such a run, at the end of which the same forms are open as at the
beginning, and an end of the tokens is left (`Reply.Keeps`). This is said of all answers, those that
are faults as well, and nothing is assumed of the tokens: none of the brackets may be written in the
source.
-/

namespace SchemeFront

variable {α : Type}

/-! ## Places -/

/-- The open forms are within the limit. -/
structure Position.Bounded (limit : Int) (pos : Position) : Prop where
  depth_eq : pos.depth = pos.forms.count true
  depth_le : (pos.depth : Int) ≤ limit
  /-- A form and the one around it do not both count for nothing. -/
  spaced : pos.forms.IsChain fun form around => form = true ∨ around = true
  /-- The outermost form counts. -/
  outermost : ∀ counted ∈ pos.forms.getLast?, counted = true

/-- If every other form counts, from the outermost on, half of them do. -/
theorem length_le_of_spaced {forms : List Bool}
    (hspaced : forms.IsChain fun form around => form = true ∨ around = true)
    (hlast : ∀ counted ∈ forms.getLast?, counted = true) :
    forms.length ≤ 2 * forms.count true := by
  match forms with
  | [] => simp
  | true :: rest =>
      have hrest : ∀ counted ∈ rest.getLast?, counted = true := by
        intro counted hc
        exact hlast counted (by simp [List.getLast?_cons, Option.mem_def.1 hc])
      have ih : rest.length ≤ 2 * rest.count true := length_le_of_spaced hspaced.tail hrest
      rw [List.length_cons, List.count_cons_self]
      omega
  | [false] => exact absurd (hlast false rfl) Bool.false_ne_true
  | false :: false :: rest => simp at hspaced
  | false :: true :: rest =>
      have hrest : ∀ counted ∈ rest.getLast?, counted = true := by
        intro counted hc
        exact hlast counted (by simp [List.getLast?_cons, Option.mem_def.1 hc])
      have ih : rest.length ≤ 2 * rest.count true := length_le_of_spaced hspaced.tail.tail hrest
      simp only [List.length_cons, List.count_cons_self, List.count_cons_of_ne Bool.false_ne_true]
      omega

namespace Position

variable {limit : Int} {pos : Position}

theorem Bounded.moveTo (h : pos.Bounded limit) (ts : List Token) :
    (pos.moveTo ts).Bounded limit :=
  ⟨h.depth_eq, h.depth_le, h.spaced, h.outermost⟩

/-- At most twice as many forms are open as there may be levels. -/
theorem Bounded.length_le (h : pos.Bounded limit) : (pos.forms.length : Int) ≤ 2 * limit := by
  have hlength := length_le_of_spaced h.spaced h.outermost
  have hcount := h.depth_eq
  have hdepth := h.depth_le
  omega

/-- Outside of all forms nothing is open. -/
theorem bounded_outside (hlimit : 0 ≤ limit) (ts : List Token) :
    Bounded limit { rest := ts } :=
  ⟨rfl, hlimit, .nil, by simp⟩

/-- A form that is entered is within the limit as well: one that does not count is right inside one
that does. -/
theorem Bounded.enter {ctx : Context} {opened : Token} (h : pos.Bounded ctx.limit)
    (hdeep : ¬ (ctx.counts pos opened && decide (ctx.limit ≤ pos.depth)) = true)
    (ts : List Token) : (pos.enter (ctx.counts pos opened) ts).Bounded ctx.limit := by
  have hdepth_eq := h.depth_eq
  have hdepth_le := h.depth_le
  cases hc : ctx.counts pos opened with
  | true =>
      have hbelow : ¬ ctx.limit ≤ pos.depth := by simpa [hc] using hdeep
      refine ⟨?_, ?_, ?_, ?_⟩
      · show pos.depth + 1 = (true :: pos.forms).count true
        rw [List.count_cons_self, hdepth_eq]
      · show ((pos.depth + 1 : Nat) : Int) ≤ ctx.limit
        omega
      · show (true :: pos.forms).IsChain _
        exact List.isChain_cons.2 ⟨fun _ _ => .inl rfl, h.spaced⟩
      · show ∀ counted ∈ (true :: pos.forms).getLast?, counted = true
        rw [List.getLast?_cons]
        rintro counted ⟨⟩
        cases hlast : pos.forms.getLast? with
        | none => rfl
        | some last => exact h.outermost last hlast
  | false =>
      obtain ⟨rest, hforms⟩ : ∃ rest, pos.forms = true :: rest := by
        cases hforms : pos.forms with
        | nil => simp [Context.counts, hforms] at hc
        | cons counted rest =>
            cases counted with
            | true => exact ⟨rest, rfl⟩
            | false => simp [Context.counts, hforms] at hc
      refine ⟨?_, hdepth_le, ?_, ?_⟩
      · show pos.depth = (false :: pos.forms).count true
        rw [List.count_cons_of_ne Bool.false_ne_true, hdepth_eq]
      · show (false :: pos.forms).IsChain _
        refine List.isChain_cons.2 ⟨?_, h.spaced⟩
        rw [hforms]
        rintro around ⟨⟩
        exact .inr rfl
      · show ∀ counted ∈ (false :: pos.forms).getLast?, counted = true
        have hlast := h.outermost
        rw [hforms] at hlast ⊢
        simpa [List.getLast?_cons] using hlast

end Position

/-! ## Runs -/

/-- One step of a parser: it moves, enters a form that is not too deep, or leaves the innermost
form. -/
inductive Position.Step (ctx : Context) : Position → Position → Prop
  | move (pos : Position) (ts : List Token) : Step ctx pos (pos.moveTo ts)
  | enter {pos : Position} {opened : Token}
      (hdeep : ¬ (ctx.counts pos opened && decide (ctx.limit ≤ pos.depth)) = true)
      (ts : List Token) : Step ctx pos (pos.enter (ctx.counts pos opened) ts)
  | leave {pos : Position} {counted : Bool} {around : List Bool}
      (hforms : pos.forms = counted :: around) : Step ctx pos (pos.leave counted)

/-- From the first place one comes to the last one through those in the list, step by step. -/
inductive Position.Run (ctx : Context) : Position → List Position → Position → Prop
  | stay (pos : Position) : Run ctx pos [] pos
  | step {pos next after : Position} {places : List Position} (first : Step ctx pos next)
      (more : Run ctx next places after) : Run ctx pos (next :: places) after

namespace Position

variable {ctx : Context} {pos next after last : Position} {places more : List Position}

/-- Leaving a form, one is within the limit as before it. -/
theorem Bounded.leave {limit : Int} {counted : Bool} {around : List Bool}
    (h : pos.Bounded limit) (hforms : pos.forms = counted :: around) :
    (pos.leave counted).Bounded limit := by
  obtain ⟨hdepth_eq, hdepth_le, hspaced, hlast⟩ := h
  rw [hforms] at hdepth_eq hspaced hlast
  have hdepth : (pos.leave counted).depth = around.count true := by
    cases counted with
    | true =>
        rw [List.count_cons_self] at hdepth_eq
        show pos.depth - 1 = around.count true
        omega
    | false =>
        rw [List.count_cons_of_ne Bool.false_ne_true] at hdepth_eq
        exact hdepth_eq
  have hle : (pos.leave counted).depth ≤ pos.depth := by
    cases counted with
    | true => exact Nat.sub_le _ _
    | false => exact Nat.le_refl _
  have htail : (pos.leave counted).forms = around := congrArg List.tail hforms
  refine ⟨?_, ?_, ?_, ?_⟩
  · rw [htail, hdepth]
  · omega
  · rw [htail]
    exact hspaced.tail
  · rw [htail]
    intro outer houter
    exact hlast outer (by simp [List.getLast?_cons, Option.mem_def.1 houter])

/-- One step keeps within the limit. -/
theorem Step.bounded (h : Step ctx pos next) (hpos : pos.Bounded ctx.limit) :
    next.Bounded ctx.limit := by
  cases h with
  | move ts => exact hpos.moveTo ts
  | enter hdeep ts => exact hpos.enter hdeep ts
  | leave hforms => exact hpos.leave hforms

/-- A run keeps within the limit. -/
theorem Run.bounded (h : Run ctx pos places after) (hpos : pos.Bounded ctx.limit) :
    ∀ q ∈ pos :: places, q.Bounded ctx.limit := by
  induction h with
  | stay pos => simpa using hpos
  | step first more ih =>
      rw [List.forall_mem_cons]
      exact ⟨hpos, ih (first.bounded hpos)⟩

theorem Run.append (h : Run ctx pos places after) (h' : Run ctx after more last) :
    Run ctx pos (places ++ more) last := by
  induction h with
  | stay pos => exact h'
  | step first _ ih => exact .step first (ih h')

theorem Run.single (h : Step ctx pos next) : Run ctx pos [next] next :=
  .step h (.stay next)

end Position

/-! ## Answers -/

/-- The places of the trace are a run, at the end of which the same forms are open as at `pos`, and
an end of the tokens is left. -/
structure Trace.Returns (ctx : Context) (pos : Position) (trace : Trace) (after : Position) :
    Prop where
  run : pos.Run ctx trace.positions after
  back : ∃ rest, rest <:+ pos.rest ∧ after = pos.moveTo rest

namespace Trace.Returns

variable {ctx : Context} {pos after last : Position} {s t : Trace}

theorem empty (ctx : Context) (pos : Position) : Returns ctx pos ∅ pos :=
  ⟨.stay pos, pos.rest, List.suffix_refl _, rfl⟩

theorem append (h : Returns ctx pos s after) (h' : Returns ctx after t last) :
    Returns ctx pos (s ++ t) last := by
  obtain ⟨rest, hrest, rfl⟩ := h.back
  obtain ⟨rest', hrest', rfl⟩ := h'.back
  exact ⟨h.run.append h'.run, rest', hrest'.trans hrest, rfl⟩

theorem moveTo (ctx : Context) {ts : List Token} (hts : ts <:+ pos.rest) :
    Returns ctx pos (.ofPosition (pos.moveTo ts)) (pos.moveTo ts) :=
  ⟨.single (.move pos ts), ts, hts, rfl⟩

theorem ofNote (ctx : Context) (pos : Position) (d : Diagnostic) :
    Returns ctx pos (.ofNote d) pos :=
  ⟨.stay pos, pos.rest, List.suffix_refl _, rfl⟩

/-- A form that was entered is left again. -/
theorem leaving {opened : Token} {ts : List Token}
    (hdeep : ¬ (ctx.counts pos opened && decide (ctx.limit ≤ pos.depth)) = true)
    (hts : ts <:+ pos.rest) (h : Returns ctx (pos.enter (ctx.counts pos opened) ts) s after) :
    Returns ctx pos
      (.ofPosition (pos.enter (ctx.counts pos opened) ts) ++ s
        ++ .ofPosition (after.leave (ctx.counts pos opened)))
      (after.leave (ctx.counts pos opened)) := by
  obtain ⟨rest, hrest, rfl⟩ := h.back
  refine ⟨?_, rest, hrest.trans hts, Position.leave_moveTo_enter pos _ ts rest⟩
  exact ((Position.Run.single (.enter hdeep ts)).append h.run).append (.single (.leave rfl))

end Trace.Returns

/-- The places of the answer are a run that ends in the forms it began in, and a value has the
property `Q`. -/
def Reply.Keeps (ctx : Context) (pos : Position) (Q : α → Prop) : Reply α → Prop
  | done a trace after => Q a ∧ trace.Returns ctx pos after
  | failed _ trace after => trace.Returns ctx pos after
  | fault _ trace after => trace.Returns ctx pos after

namespace Reply

/-- The places on the way to the answer. -/
def places : Reply α → List Position
  | done _ trace _ => trace.positions
  | failed _ trace _ => trace.positions
  | fault _ trace _ => trace.positions

/-- The place that was reached. -/
def reached : Reply α → Position
  | done _ _ after => after
  | failed _ _ after => after
  | fault _ _ after => after

namespace Keeps

variable {ctx : Context} {pos after : Position} {trace : Trace} {Q : α → Prop} {r : Reply α}

/-- Going on from where the answer before has come to. -/
theorem behind (h : r.Keeps ctx after Q) (htrace : trace.Returns ctx pos after) :
    (r.behind trace).Keeps ctx pos Q := by
  cases r with
  | done a more last => exact ⟨h.1, htrace.append h.2⟩
  | failed why more last => exact htrace.append h
  | fault fault more last => exact htrace.append h

/-- The answer of what is inside a form. -/
theorem leaving {opened : Token} {ts : List Token}
    (hdeep : ¬ (ctx.counts pos opened && decide (ctx.limit ≤ pos.depth)) = true)
    (hts : ts <:+ pos.rest) (h : r.Keeps ctx (pos.enter (ctx.counts pos opened) ts) Q) :
    ((r.behind (.ofPosition (pos.enter (ctx.counts pos opened) ts))).leaving
      (ctx.counts pos opened)).Keeps ctx pos Q := by
  cases r with
  | done a trace after => exact ⟨h.1, .leaving hdeep hts h.2⟩
  | failed why trace after => exact .leaving hdeep hts h
  | fault fault trace after => exact .leaving hdeep hts h

theorem run (h : r.Keeps ctx pos Q) : pos.Run ctx r.places r.reached := by
  cases r with
  | done a trace after => exact h.2.run
  | failed why trace after => exact h.run
  | fault fault trace after => exact h.run

end Keeps

end Reply

end SchemeFront
