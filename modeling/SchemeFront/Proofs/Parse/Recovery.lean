import SchemeFront.Parse.Form
import SchemeFront.Proofs.Parse.Tidy
import SchemeFront.Proofs.Token.Spanning

set_option autoImplicit false

/-! # Recovery at forms

`Parse.form` gives an answer in one of four ways: what is inside is parsed, its failure is
recorded, the form is refused at once, or the end of the input is passed on as a failure.
`Parse.form_lands` says that it has then come to the same place, behind the form (`Reply.Lands`),
and that only a form that is never closed can fail.
-/

namespace SchemeFront

open Token

variable {α : Type} {P : Lexeme → Prop} {ctx : Context} {pos : Position} {d n : Nat}
  {Q : α → Prop}

/-- `Q` holds of what was parsed, if a form was. -/
def Parsed.Holds (Q : α → Prop) : Parsed α → Prop
  | whole a => Q a
  | broken _ => True

/-- The answer to parsing the form that begins at `pos`: one is behind it, or else it is inside
another form, never closed, and one is at the end of the input. -/
def Reply.Lands (P : Lexeme → Prop) (pos : Position) (Q : α → Prop) : Reply (Parsed α) → Prop :=
  Ensures
    (fun a trace after => after = pos.moveTo (pos.rest.drop (extent pos.rest)) ∧
      (∀ d, trace.Within P d pos.rest) ∧ a.Holds Q)
    (fun why trace after => after = pos.moveTo [] ∧ NeverClosed pos.rest ∧ pos.forms ≠ [] ∧
      (∀ d, Reaches d pos.rest []) ∧ (∀ d, trace.Within P d pos.rest) ∧ why.Mentions P ∧
      why.atEnd = true)

/-- Parsing a form is tidy. -/
theorem Reply.Lands.tidy {t : Token} {ts : List Token} {r : Reply (Parsed α)}
    (h : r.Lands P pos Q) (hrest : pos.rest = t :: ts) (ht : t.opens = true) (d : Nat) :
    r.Tidy P d d pos fun a rest => rest.length < pos.rest.length ∧ a.Holds Q := by
  cases r with
  | done a trace after =>
      obtain ⟨rfl, htrace, ha⟩ := h
      refine ⟨_, rfl, ?_, htrace d, ?_, ha⟩
      · rw [hrest]
        exact passes_drop_extent ht d ts
      · have hpos : 0 < extent pos.rest := extent_pos (by simp [hrest])
        have hlen : 0 < pos.rest.length := by simp [hrest]
        rw [List.length_drop]
        omega
  | failed why trace after =>
      obtain ⟨rfl, -, -, hreach, htrace, hwhy, -⟩ := h
      exact ⟨[], rfl, hreach d, htrace d, hwhy, fun _ => rfl⟩
  | fault fault => exact h

namespace Parse

theorem mentions_explain {opened : Token} {construct : String} {why : Diagnostic}
    (h : why.Mentions P) : (explain opened construct why).Mentions P := by
  unfold explain
  split
  · exact Diagnostic.mentions_of_found?_eq_none rfl
  · exact Diagnostic.mentions_within.2 h

/-- A failure that is not at the end of the input is recorded with its own cause. -/
theorem explain_cause {why : Diagnostic} (h : why.atEnd = false) (t : Token) (construct : String) :
    (explain t construct why).cause = why.cause := by
  rw [explain, if_neg (by simp [h])]
  rfl

/-- A form is skipped whole if one has not come behind it, and the span of its tokens is given. -/
theorem recover_eq_of_cover (ctx : Context) (pos : Position) {start : List Token} {span : Span}
    (hspan : cover (start.take (extent start)) ctx.endOfInput = .ok span)
    (hle : start.length - pos.rest.length ≤ extent start) (m : Diagnostic) :
    (recover start m : Parse (Parsed α)) ctx pos =
      .done (.broken span)
        (.ofNote m ++ .ofPosition (pos.moveTo (start.drop (extent start))))
        (pos.moveTo (start.drop (extent start))) := by
  simp only [recover, bind_apply, note, skip, Nat.max_eq_left hle, hspan, pure_apply,
    Reply.behind, Trace.append_empty]

theorem recover_eq (α : Type) (ctx : Context) (pos : Position) {start : List Token}
    (hstart : Spanned start) (hle : start.length - pos.rest.length ≤ extent start)
    (m : Diagnostic) :
    ∃ span, (recover start m : Parse (Parsed α)) ctx pos =
      .done (.broken span)
        (.ofNote m ++ .ofPosition (pos.moveTo (start.drop (extent start))))
        (pos.moveTo (start.drop (extent start))) := by
  obtain ⟨span, hspan⟩ := hstart start (List.suffix_refl start) ctx.endOfInput
  exact ⟨span, recover_eq_of_cover ctx pos hspan hle m⟩

/-- A form whose inside was read is passed when its closing bracket is. -/
theorem drop_extent_of_passes {t c : Token} {ts us : List Token} (ht : t.opens = true)
    (hc : c.closes = true) (h : Passes 0 0 ts (c :: us)) :
    (t :: ts).drop (extent (t :: ts)) = us := by
  obtain ⟨xs, rfl, hx | ⟨hnil, -⟩⟩ := h
  · exact drop_extent_of_balanced ht hx hc us
  · cases hnil

/-- Inside a form, one has not come behind it. -/
theorem length_sub_le_extent {t : Token} {ts us : List Token} (ht : t.opens = true)
    (h : Reaches 0 ts us) : (t :: ts).length - us.length ≤ extent (t :: ts) := by
  obtain ⟨xs, rfl, hx⟩ := h
  have := length_lt_extent ht hx us
  simp only [List.length_cons, List.length_append]
  omega

section Boundary

variable {opened : Token} {tail : List Token} {construct : String} {inner : Token → Parse α}
  {counted : Bool}

/-- A failure inside a form is recorded, and the form is skipped. -/
theorem recover_inside {why : Diagnostic} {rest : List Token} {trace : Trace}
    (hs : Supply P n pos.rest) (hrest : pos.rest = opened :: tail) (ho : opened.opens = true)
    (hreach : Reaches 0 tail rest) (htrace : ∀ d, trace.Within P d pos.rest)
    (hwhy : why.Mentions P) :
    (((recover pos.rest (explain opened construct why) : Parse (Parsed α)) ctx
      ((pos.enter counted tail).moveTo rest)).behind trace).Ensures
        (fun a more after => after =
            (pos.enter counted tail).moveTo (pos.rest.drop (extent pos.rest)) ∧
          (∀ d, more.Within P d pos.rest) ∧ a.Holds Q)
        (fun _ _ _ => False) := by
  obtain ⟨span, hspan⟩ := recover_eq α ctx ((pos.enter counted tail).moveTo rest)
    hs.ascending.spanned
    (by rw [Position.moveTo_rest, hrest]; exact length_sub_le_extent ho hreach)
    (explain opened construct why)
  rw [hspan, Position.moveTo_moveTo]
  refine ⟨rfl, fun d => ?_, trivial⟩
  refine (htrace d).append (.append (.ofNote (mentions_explain hwhy)) (.ofPosition ?_))
  rw [Position.moveTo_rest, hrest]
  exact (passes_drop_extent ho d tail).reaches

/-- What happens inside a form happens in what the form is in. -/
theorem within_of_inside {trace : Trace} (hrest : pos.rest = opened :: tail)
    (ho : opened.opens = true) (h : trace.Within P 0 tail) (d : Nat) :
    trace.Within P d pos.rest where
  reaches q hq := by
    rw [hrest]
    exact (h.reaches q hq).of_inside ho d
  mentions := h.mentions

/-- What is inside a form is parsed up to the end of the form, whether there are failures or
not. -/
theorem guarded_ensures (construct : String) (hs : Supply P n pos.rest)
    (hrest : pos.rest = opened :: tail) (ho : opened.opens = true)
    (hinner : (inner opened ctx (pos.enter counted tail)).Closing P (pos.enter counted tail) Q) :
    (guarded construct pos opened (inner opened) ctx (pos.enter counted tail)).Ensures
      (fun a trace after => after =
          (pos.enter counted tail).moveTo (pos.rest.drop (extent pos.rest)) ∧
        (∀ d, trace.Within P d pos.rest) ∧ a.Holds Q)
      (fun why trace after => after = (pos.enter counted tail).moveTo [] ∧
        NeverClosed pos.rest ∧ pos.forms ≠ [] ∧ (∀ d, Reaches d pos.rest []) ∧
        (∀ d, trace.Within P d pos.rest) ∧ why.Mentions P ∧ why.atEnd = true) := by
  unfold guarded
  cases hr : inner opened ctx (pos.enter counted tail) with
  | done a trace after =>
      rw [hr] at hinner
      -- Its closing bracket was read, and that is where the form ends.
      obtain ⟨c, us, rfl, hc, hpass, ⟨earlier, hpos, hearlier⟩, hnotes, ha⟩ := hinner
      rw [Position.enter_rest] at hpass hearlier
      have hdrop : pos.rest.drop (extent pos.rest) = us := by
        rw [hrest]
        exact drop_extent_of_passes ho hc hpass
      refine ⟨by rw [hdrop], fun d => ⟨?_, hnotes⟩, ha⟩
      intro q hq
      rw [hpos] at hq
      rw [hrest]
      rcases List.mem_append.1 hq with hq | hq
      · exact (hearlier q hq).of_inside ho d
      · rw [List.mem_singleton.1 hq, Position.moveTo_rest, ← hdrop, hrest]
        exact (passes_drop_extent ho d tail).reaches
  | failed why trace after =>
      rw [hr] at hinner
      obtain ⟨rest, rfl, hreach, htrace, hwhy, hend⟩ := hinner
      rw [Position.enter_rest] at hreach htrace
      have htrace := within_of_inside hrest ho htrace
      dsimp only
      split
      · -- The input ends in a form that is inside another one: the failure passes the boundary.
        rename_i h
        simp only [Bool.and_eq_true, Bool.not_eq_true', List.isEmpty_eq_false_iff] at h
        obtain rfl := hend h.1
        obtain ⟨xs, hxs, hx⟩ := hreach
        rw [List.append_nil] at hxs
        subst hxs
        have hnever : NeverClosed pos.rest := by
          rw [hrest]
          exact (neverClosed_cons_iff ho tail).2 hx
        have hreach : ∀ d, Reaches d pos.rest [] := by
          intro d
          rw [hrest]
          exact Reaches.of_inside ho ⟨tail, by simp, hx⟩ d
        exact ⟨rfl, hnever, h.2, hreach, htrace, hwhy, h.1⟩
      · -- Any other failure stops at the boundary.
        exact (recover_inside hs hrest ho hreach htrace hwhy).mono (fun _ _ _ h => h)
          (fun _ _ _ h => h.elim)
  | fault fault =>
      rw [hr] at hinner
      exact hinner

/-- Wherever and however parsing a form ends, one is behind the form, and no form more or less is
open. -/
theorem form_lands (hs : Supply P n pos.rest) (hrest : pos.rest = opened :: tail)
    (ho : opened.opens = true)
    (hinner : ∀ counted,
      (inner opened ctx (pos.enter counted tail)).Closing P (pos.enter counted tail) Q) :
    (form construct inner ctx pos).Lands P pos Q := by
  have hpass : ∀ d, Reaches d pos.rest (pos.rest.drop (extent pos.rest)) := by
    intro d
    rw [hrest]
    exact (passes_drop_extent ho d tail).reaches
  unfold form
  rw [hrest]
  dsimp only
  rw [← hrest]
  -- The depth is looked at before what is inside.
  split
  · -- The form is nested too deeply.
    obtain ⟨span, hspan⟩ := recover_eq α ctx pos hs.ascending.spanned (by simp)
      (Diagnostic.tooDeep ctx.limit opened.span construct)
    rw [hspan]
    exact ⟨rfl, fun d => .append (.ofNote (Diagnostic.mentions_of_found?_eq_none rfl))
      (.ofPosition (hpass d)), trivial⟩
  · -- The boundary adds two positions of its own, the one inside the bracket and the one behind.
    generalize hcounted : ctx.counts pos opened = counted
    have hg := guarded_ensures construct hs hrest ho (hinner counted)
    have hinside : ∀ d, Trace.Within P d pos.rest (.ofPosition (pos.enter counted tail)) := by
      intro d
      refine .ofPosition ?_
      rw [hrest, Position.enter_rest]
      exact (passes_cons_of_opens ho d tail).reaches
    cases hr : guarded construct pos opened (inner opened) ctx (pos.enter counted tail) with
    | done a trace after =>
        rw [hr] at hg
        obtain ⟨rfl, htrace, ha⟩ := hg
        refine ⟨by simp, fun d => ?_, ha⟩
        refine ((hinside d).append (htrace d)).append (.ofPosition ?_)
        simpa using hpass d
    | failed why trace after =>
        rw [hr] at hg
        obtain ⟨rfl, hnever, hforms, hreach, htrace, hwhy⟩ := hg
        refine ⟨by simp, hnever, hforms, hreach, fun d => ?_, hwhy⟩
        refine ((hinside d).append (htrace d)).append (.ofPosition ?_)
        simpa using hreach d
    | fault fault =>
        rw [hr] at hg
        exact hg

end Boundary

end Parse

end SchemeFront
