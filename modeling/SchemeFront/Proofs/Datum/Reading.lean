import SchemeFront.Datum.Reader
import SchemeFront.Proofs.Mentions
import SchemeFront.Proofs.Token.Nesting

set_option autoImplicit false

/-! # Reading data and writing them back

Reading a datum takes exactly the tokens of one form, and flattening the datum gives them back
(`read_takes`). Brackets are not stored but derived from the span of a list, so how much of them
comes back depends on how the tokens lie: `Restores f` says that `f` of them does. By induction
over the rounds, all tokens are read and come back (`readFrom_takes`).
-/

namespace SchemeFront

open Token

variable {β : Type} {P : Lexeme → Prop} {f : Token → β}

/-- As far as `f` shows, two brackets of the list, the one that opens before the one that closes,
can be derived from the span that covers both. -/
def Token.Restores (f : Token → β) (ts : List Token) : Prop :=
  ts.Pairwise fun o c => o.opens = true → c.closes = true →
    f ⟨.keyword .opening, (o.span.join c.span).first⟩ = f o ∧
      f ⟨.keyword .closing, (o.span.join c.span).final⟩ = f c

/-- What brackets say can always be derived. -/
theorem Token.restores_lexeme (ts : List Token) : Restores Token.lexeme ts := by
  refine List.Pairwise.imp ?_ (List.pairwise_of_forall (R := fun _ _ => True) (fun _ _ => trivial))
  intro o c _ ho hc
  simp only [Token.opens, Token.closes, Token.isKeyword, beq_iff_eq] at ho hc
  exact ⟨ho.symm, hc.symm⟩

namespace Datum

variable {limit : Int} {endOfInput : Span} {depth : Nat} {t : Token} {ts us xs : List Token}

theorem map_flattenAll_cons (f : Token → β) (d : Datum) (ds : List Datum) :
    (flattenAll (d :: ds)).map f = (flatten d).map f ++ (flattenAll ds).map f := by
  rw [flattenAll, List.map_append]

/-- A reading has taken the tokens `xs` and left `us`. -/
structure Reading.Takes (P : Lexeme → Prop) (f : Token → β) (depth : Nat) (xs us : List Token)
    (r : Reading Datum) : Prop where
  depth_eq : r.depth = depth
  rest_eq : r.rest = us
  mentions : ∀ m ∈ r.notes, m.Mentions P
  flatten_eq : (flatten r.value).map f = xs.map f

/-- A reading has found elements: up to a closing bracket, or up to the end of the input. -/
structure Reading.Collects (P : Lexeme → Prop) (f : Token → β) (depth : Nat) (ts : List Token)
    (r : Reading Elements) : Prop where
  depth_eq : r.depth = depth
  mentions : ∀ m ∈ r.notes, m.Mentions P
  closed : ∀ c ∈ r.value.closing, ∃ xs, ts = xs ++ c :: r.rest ∧ Balanced xs ∧
    c.closes = true ∧ (flattenAll r.value.children).map f = xs.map f
  unclosed : r.value.closing = none → Confined ts ∧ r.rest = []

/-- Of the tokens of a list that is nested too deeply nothing is lost. -/
theorem refuse_takes (h : Ascending (t :: ts)) :
    ∃ r, refuse limit endOfInput depth t ts = .ok r ∧
      r.Takes P f depth ((t :: ts).take (extent (t :: ts)))
        ((t :: ts).drop (extent (t :: ts))) := by
  obtain ⟨span, hspan⟩ :=
    (h.of_prefix (List.take_prefix (extent (t :: ts)) (t :: ts))).exists_cover endOfInput
  refine ⟨_, by simp only [refuse, hspan]; rfl, rfl, rfl, ?_, rfl⟩
  intro m hm
  obtain rfl := List.mem_singleton.1 hm
  exact Diagnostic.mentions_of_found?_eq_none rfl

/-- A list is read up to the bracket that closes it, or to the end of the input. -/
theorem finish_takes {elements : Reading Elements} (h : Ascending (t :: ts))
    (hf : Restores f (t :: ts)) (ht : t.opens = true)
    (hel : elements.Collects P f (depth + 1) ts) :
    ∃ r, finish endOfInput t ts elements = .ok r ∧
      r.Takes P f depth ((t :: ts).take (extent (t :: ts)))
        ((t :: ts).drop (extent (t :: ts))) := by
  have hdepth : elements.depth - 1 = depth := by rw [hel.depth_eq, Nat.add_sub_cancel]
  unfold finish
  cases hclosing : elements.value.closing with
  | some c =>
      obtain ⟨xs, hts, hx, hc, hflat⟩ := hel.closed c hclosing
      refine ⟨_, rfl, hdepth, ?_, hel.mentions, ?_⟩
      · rw [hts, drop_extent_of_balanced ht hx hc]
      · -- The brackets are derived from the span of the list, and what is in it is there.
        have hpair := (List.pairwise_cons.1 hf).1 c (by simp [hts]) ht hc
        rw [hts, take_extent_of_balanced ht hx hc]
        simp only [flatten, List.map_append, List.map_cons, List.map_nil, List.cons_append, hflat,
          hpair.1, hpair.2]
  | none =>
      obtain ⟨hconf, hrest⟩ := hel.unclosed hclosing
      obtain ⟨span, hspan⟩ := h.exists_cover endOfInput
      refine ⟨_, by simp only [hspan]; rfl, hdepth, ?_, ?_, ?_⟩
      · rw [drop_extent_of_confined ht hconf]
        exact hrest
      · -- Besides the findings about elements, there is at most the one about the list.
        intro m hm
        rcases List.mem_append.1 hm with hm | hm
        · exact hel.mentions m hm
        · split at hm
          · obtain rfl := List.mem_singleton.1 hm
            exact Diagnostic.mentions_of_found?_eq_none rfl
          · cases hm
      · rw [take_extent_of_confined ht hconf]
        rfl

/-- The tokens of a form are balanced, unless it is never closed. -/
theorem balanced_take_extent (ts : List Token) (ht : t.closes = false) :
    Balanced ((t :: ts).take (extent (t :: ts))) ∨
      Confined (t :: ts) ∧ (t :: ts).drop (extent (t :: ts)) = [] := by
  by_cases ho : t.opens = true
  · rcases closed_or_confined ts with ⟨xs, c, us, rfl, hx, hc⟩ | h
    · left
      rw [take_extent_of_balanced ho hx hc]
      exact hx.bracketed ho hc
    · exact .inr ⟨h.cons_of_opens ho, drop_extent_of_confined ho h⟩
  · rw [Bool.not_eq_true] at ho
    left
    rw [extent_cons_of_not_opens ho]
    exact balanced_singleton ho ht

/-- One element more in front of those that were found. -/
theorem Reading.Takes.collects {first : Reading Datum} {more : Reading Elements}
    (ht : t.closes = false)
    (hfirst : first.Takes P f depth ((t :: ts).take (extent (t :: ts)))
      ((t :: ts).drop (extent (t :: ts))))
    (hmore : more.Collects P f first.depth first.rest) :
    Reading.Collects P f depth (t :: ts) {
      value := { more.value with children := first.value :: more.value.children }
      notes := first.notes ++ more.notes
      depth := more.depth
      rest := more.rest } where
  depth_eq := hmore.depth_eq.trans hfirst.depth_eq
  mentions m hm := (List.mem_append.1 hm).elim (hfirst.mentions m) (hmore.mentions m)
  closed := by
    intro c hc
    obtain ⟨xs, hxs, hx, hcloses, hflat⟩ := hmore.closed c hc
    rw [hfirst.rest_eq] at hxs
    rcases balanced_take_extent ts ht with hbal | ⟨-, hnil⟩
    · refine ⟨(t :: ts).take (extent (t :: ts)) ++ xs, ?_, hbal.append hx, hcloses, ?_⟩
      · rw [List.append_assoc, ← hxs, List.take_append_drop]
      · rw [map_flattenAll_cons, hfirst.flatten_eq, hflat, List.map_append]
    · -- Nothing is left behind a form that is never closed, so no bracket either.
      simp [hnil] at hxs
  unclosed := by
    intro hnone
    obtain ⟨hconf, hrest⟩ := hmore.unclosed hnone
    refine ⟨?_, hrest⟩
    rcases balanced_take_extent ts ht with hbal | ⟨hconf', -⟩
    · rw [hfirst.rest_eq] at hconf
      rw [← List.take_append_drop (extent (t :: ts)) (t :: ts)]
      exact hbal.append_confined hconf
    · exact hconf'

/-- What is left behind a form are the last of the tokens. -/
theorem Reading.Takes.rest_suffix {first : Reading Datum}
    (h : first.Takes P f depth xs ((t :: ts).drop (extent (t :: ts)))) :
    first.rest <:+ t :: ts := by
  rw [h.rest_eq]
  exact List.drop_suffix _ _

/-- Reading a form leaves fewer tokens. -/
theorem Reading.Takes.length_rest_le {first : Reading Datum}
    (h : first.Takes P f depth xs ((t :: ts).drop (extent (t :: ts)))) :
    first.rest.length ≤ ts.length := by
  have hpos : 0 < extent (t :: ts) := extent_pos (by simp)
  calc first.rest.length
      = ts.length + 1 - extent (t :: ts) := by rw [h.rest_eq, List.length_drop, List.length_cons]
    _ ≤ ts.length := by omega

mutual

/-- Reading takes the tokens of one form. -/
theorem read_takes (limit : Int) (endOfInput : Span) (fuel depth : Nat) (t : Token)
    (ts : List Token) (hfuel : 2 * (ts.length + 1) ≤ fuel) (h : Ascending (t :: ts))
    (hf : Restores f (t :: ts)) :
    ∃ r, read limit endOfInput fuel depth t ts = .ok r ∧
      r.Takes P f depth ((t :: ts).take (extent (t :: ts)))
        ((t :: ts).drop (extent (t :: ts))) := by
  cases fuel with
  | zero => omega
  | succ fuel =>
      rw [read]
      by_cases ho : t.opens = true
      · rw [if_neg (by simp [ho])]
        split
        · exact refuse_takes h
        · have hts : Ascending ts := (List.pairwise_cons.1 h).2
          have hfts : Restores f ts := (List.pairwise_cons.1 hf).2
          obtain ⟨elements, hel, hcoll⟩ := readElements_collects limit endOfInput fuel (depth + 1)
            ts (by omega) hts hfts
          rw [hel]
          exact finish_takes h hf ho hcoll
      · rw [Bool.not_eq_true] at ho
        rw [if_pos (by simp [ho]), extent_cons_of_not_opens ho]
        exact ⟨_, rfl, rfl, rfl, by simp, rfl⟩

/-- Reading elements takes forms up to a closing bracket. -/
theorem readElements_collects (limit : Int) (endOfInput : Span) (fuel depth : Nat)
    (ts : List Token) (hfuel : 2 * ts.length + 1 ≤ fuel) (h : Ascending ts) (hf : Restores f ts) :
    ∃ r, readElements limit endOfInput fuel depth ts = .ok r ∧ r.Collects P f depth ts := by
  cases fuel with
  | zero => omega
  | succ fuel =>
      cases ts with
      | nil => exact ⟨_, by rw [readElements], rfl, by simp, by simp, fun _ => ⟨rfl, rfl⟩⟩
      | cons t ts =>
          rw [readElements]
          by_cases hc : t.closes = true
          · rw [if_pos hc]
            refine ⟨_, rfl, rfl, by simp, ?_, by simp⟩
            rintro c ⟨⟩
            exact ⟨[], rfl, balanced_nil, hc, rfl⟩
          · rw [if_neg hc]
            rw [Bool.not_eq_true] at hc
            rw [List.length_cons] at hfuel
            obtain ⟨first, hfirst, htakes⟩ := read_takes limit endOfInput fuel depth t ts
              (by omega) h hf
            -- The first element takes a token at least, which leaves fuel for the others.
            have hlen := htakes.length_rest_le
            have hsuffix := htakes.rest_suffix
            have hfrest : Restores f first.rest := List.Pairwise.sublist hsuffix.sublist hf
            obtain ⟨more, hmore, hcoll⟩ := readElements_collects limit endOfInput fuel first.depth
              first.rest (by omega) (h.of_suffix hsuffix) hfrest
            rw [hfirst]
            refine ⟨_, ?_, htakes.collects hc hcoll⟩
            simp only [bind, Except.bind, hmore]
            rfl

end

/-! ## Data at top level -/

/-- Reading a datum at top level takes a form, or a bracket that closes nothing. -/
theorem readNext_takes (limit : Int) (endOfInput : Span) (depth : Nat) (h : Ascending (t :: ts))
    (hf : Restores f (t :: ts)) (ht : P t.lexeme) :
    ∃ r, readNext limit endOfInput depth t ts = .ok r ∧
      r.Takes P f depth ((t :: ts).take (extent (t :: ts)))
        ((t :: ts).drop (extent (t :: ts))) := by
  rw [readNext]
  split
  · -- A bracket that closes nothing is a form by itself.
    rename_i hc
    rw [extent_cons_of_not_opens (opens_eq_false_of_closes hc)]
    refine ⟨_, rfl, rfl, rfl, ?_, rfl⟩
    intro m hm u hu
    obtain rfl := List.mem_singleton.1 hm
    cases hu
    exact ht
  · exact read_takes limit endOfInput _ depth t ts (Nat.le_refl _) h hf

/-- All tokens are read, and flattening what was read gives them back. -/
theorem readFrom_takes (limit : Int) (endOfInput : Span) (depth : Nat) {rounds : Nat}
    (hrounds : ts.length ≤ rounds) (h : Ascending ts) (hf : Restores f ts)
    (hP : ∀ t ∈ ts, P t.lexeme) :
    ∃ r, readFrom limit endOfInput rounds depth ts = .ok r ∧ r.depth = depth ∧ r.rest = [] ∧
      (∀ m ∈ r.notes, m.Mentions P) ∧ (flattenAll r.value).map f = ts.map f := by
  -- Each datum takes a token, so the rounds are enough for all of them.
  induction rounds generalizing ts depth with
  | zero =>
      obtain rfl := List.length_eq_zero_iff.1 (Nat.le_zero.1 hrounds)
      exact ⟨_, by rw [readFrom], rfl, rfl, by simp, rfl⟩
  | succ rounds ih =>
      cases ts with
      | nil => exact ⟨_, by rw [readFrom], rfl, rfl, by simp, rfl⟩
      | cons t ts =>
          rw [List.length_cons] at hrounds
          have ht : P t.lexeme := hP t (by simp)
          obtain ⟨first, hfirst, htakes⟩ := readNext_takes limit endOfInput depth h hf ht
          have hlen := htakes.length_rest_le
          have hsuffix := htakes.rest_suffix
          have hfrest : Restores f first.rest := List.Pairwise.sublist hsuffix.sublist hf
          obtain ⟨more, hmore, hdepth, hrest, hnotes, hflat⟩ := ih first.depth
            (by omega) (h.of_suffix hsuffix) hfrest fun u hu => hP u (hsuffix.mem hu)
          rw [readFrom, hfirst]
          refine ⟨⟨first.value :: more.value, first.notes ++ more.notes, more.depth, more.rest⟩,
            ?_, hdepth.trans htakes.depth_eq, hrest, ?_, ?_⟩
          · simp only [bind, Except.bind, hmore]
            rfl
          · intro m hm
            exact (List.mem_append.1 hm).elim (htakes.mentions m) (hnotes m)
          · rw [map_flattenAll_cons, htakes.flatten_eq, hflat, htakes.rest_eq, ← List.map_append,
              List.take_append_drop]

end Datum

end SchemeFront
