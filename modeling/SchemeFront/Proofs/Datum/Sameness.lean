import SchemeFront.Proofs.Sameness
import SchemeFront.Datum.Reader

set_option autoImplicit false

/-! # Data that say the same

Lists of tokens that say the same are read in the same way (`Datum.same_readAll`): as data that say
the same, with the same findings, and as many tokens are left each time. Nothing but the spans can
make a difference, and those only where one of the readings ends in a fault.
-/

namespace SchemeFront.Datum

open Token

variable {α : Type} {limit : Int} {endOfInput endOfInput' : Span} {fuel depth rounds : Nat}
  {t t' : Token} {ts ts' : List Token} {V : α → α → Prop}

/-- Two readings come to values with the relation `V`, with the same findings, and the same tokens
are left. -/
structure Reading.Same (V : α → α → Prop) (r r' : Reading α) : Prop where
  value : V r.value r'.value
  notes : r.notes.map Diagnostic.bare = r'.notes.map Diagnostic.bare
  depth_eq : r.depth = r'.depth
  rest : r.rest.map Token.bare = r'.rest.map Token.bare

/-- The elements say the same, and are closed or not. -/
structure Elements.Same (e e' : Elements) : Prop where
  children : sameAll e.children e'.children = true
  closing : e.closing.isSome = e'.closing.isSome

/-- What was read first, and what was read behind it. -/
theorem Reading.Same.notes_append {β : Type} {W : β → β → Prop} {r r' : Reading α}
    {m m' : Reading β} (h : r.Same V r') (h' : m.Same W m') :
    (r.notes ++ m.notes).map Diagnostic.bare = (r'.notes ++ m'.notes).map Diagnostic.bare := by
  rw [List.map_append, List.map_append, h.notes, h'.notes]

theorem same_refuse {r r' : Reading Datum}
    (h : (t :: ts).map Token.bare = (t' :: ts').map Token.bare)
    (hr : refuse limit endOfInput depth t ts = .ok r)
    (hr' : refuse limit endOfInput' depth t' ts' = .ok r') :
    r.Same (fun d e => d.same e) r' := by
  obtain ⟨s, -, hr⟩ := exists_of_bind_eq_ok hr
  obtain ⟨s', -, hr'⟩ := exists_of_bind_eq_ok hr'
  cases hr
  cases hr'
  have hextent := extent_eq_of_bare h
  refine ⟨?_, rfl, rfl, ?_⟩
  · rw [Datum.same, sameAll_iff, List.map_take, List.map_take, h, hextent]
  · rw [List.map_drop, List.map_drop, h, hextent]

theorem same_finish {e e' : Reading Elements} {r r' : Reading Datum}
    (h : (t :: ts).map Token.bare = (t' :: ts').map Token.bare) (he : e.Same Elements.Same e')
    (hr : finish endOfInput t ts e = .ok r) (hr' : finish endOfInput' t' ts' e' = .ok r') :
    r.Same (fun d e => d.same e) r' := by
  have hclosing := he.value.closing
  unfold finish at hr hr'
  cases hc : e.value.closing with
  | some c =>
      cases hc' : e'.value.closing with
      | none => simp [hc, hc'] at hclosing
      | some c' =>
          rw [hc] at hr
          rw [hc'] at hr'
          cases hr
          cases hr'
          refine ⟨?_, he.notes, by rw [he.depth_eq], he.rest⟩
          rw [Datum.same]
          exact he.value.children
  | none =>
      cases hc' : e'.value.closing with
      | some c' => simp [hc, hc'] at hclosing
      | none =>
          rw [hc] at hr
          rw [hc'] at hr'
          obtain ⟨s, -, hr⟩ := exists_of_bind_eq_ok hr
          obtain ⟨s', -, hr'⟩ := exists_of_bind_eq_ok hr'
          cases hr
          cases hr'
          refine ⟨?_, ?_, by rw [he.depth_eq], he.rest⟩
          · rw [Datum.same, sameAll_iff, h]
          · rw [List.map_append, List.map_append, he.notes, he.depth_eq]
            split <;> rfl

mutual

/-- Reading one datum from two lists that say the same. -/
theorem same_read (limit : Int) (endOfInput endOfInput' : Span) (fuel depth : Nat)
    {t t' : Token} {ts ts' : List Token} {r r' : Reading Datum}
    (h : (t :: ts).map Token.bare = (t' :: ts').map Token.bare)
    (hr : read limit endOfInput fuel depth t ts = .ok r)
    (hr' : read limit endOfInput' fuel depth t' ts' = .ok r') :
    r.Same (fun d e => d.same e) r' := by
  obtain ⟨ht, hts⟩ := List.cons.inj h
  cases fuel with
  | zero => cases hr
  | succ fuel =>
      rw [read] at hr hr'
      rw [← opens_eq_of_bare ht] at hr'
      split at hr
      · rename_i ho
        rw [if_pos ho] at hr'
        cases hr
        cases hr'
        refine ⟨?_, rfl, rfl, hts⟩
        rw [Datum.same, beq_iff_eq]
        exact ht
      · rename_i ho
        rw [if_neg ho] at hr'
        split at hr
        · rename_i hdeep
          rw [if_pos hdeep] at hr'
          exact same_refuse h hr hr'
        · rename_i hdeep
          rw [if_neg hdeep] at hr'
          obtain ⟨e, he, hr⟩ := exists_of_bind_eq_ok hr
          obtain ⟨e', he', hr'⟩ := exists_of_bind_eq_ok hr'
          exact same_finish h
            (same_readElements limit endOfInput endOfInput' fuel (depth + 1) hts he he') hr hr'

/-- Reading elements from two lists that say the same. -/
theorem same_readElements (limit : Int) (endOfInput endOfInput' : Span) (fuel depth : Nat)
    {ts ts' : List Token} {r r' : Reading Elements} (h : ts.map Token.bare = ts'.map Token.bare)
    (hr : readElements limit endOfInput fuel depth ts = .ok r)
    (hr' : readElements limit endOfInput' fuel depth ts' = .ok r') :
    r.Same Elements.Same r' := by
  cases fuel with
  | zero => cases hr
  | succ fuel =>
      cases ts with
      | nil =>
          rw [List.map_nil, eq_comm, List.map_eq_nil_iff] at h
          subst h
          cases hr
          cases hr'
          exact ⟨⟨rfl, rfl⟩, rfl, rfl, rfl⟩
      | cons t ts =>
          obtain ⟨t', ts', rfl, ht, hts⟩ := List.map_eq_cons_iff.1 h.symm
          rw [readElements] at hr hr'
          rw [closes_eq_of_bare ht] at hr'
          split at hr
          · rename_i hc
            rw [if_pos hc] at hr'
            cases hr
            cases hr'
            exact ⟨⟨rfl, rfl⟩, rfl, rfl, hts.symm⟩
          · rename_i hc
            rw [if_neg hc] at hr'
            obtain ⟨first, hfirst, hr⟩ := exists_of_bind_eq_ok hr
            obtain ⟨more, hmore, hr⟩ := exists_of_bind_eq_ok hr
            obtain ⟨first', hfirst', hr'⟩ := exists_of_bind_eq_ok hr'
            obtain ⟨more', hmore', hr'⟩ := exists_of_bind_eq_ok hr'
            cases hr
            cases hr'
            have hone := same_read limit endOfInput endOfInput' fuel depth h hfirst hfirst'
            rw [← hone.depth_eq] at hmore'
            have hall := same_readElements limit endOfInput endOfInput' fuel first.depth hone.rest
              hmore hmore'
            refine ⟨⟨?_, hall.value.closing⟩, hone.notes_append hall, hall.depth_eq, hall.rest⟩
            simp [Datum.sameAll, hone.value, hall.value.children]

end

theorem same_readNext {r r' : Reading Datum}
    (h : (t :: ts).map Token.bare = (t' :: ts').map Token.bare)
    (hr : readNext limit endOfInput depth t ts = .ok r)
    (hr' : readNext limit endOfInput' depth t' ts' = .ok r') :
    r.Same (fun d e => d.same e) r' := by
  obtain ⟨ht, hts⟩ := List.cons.inj h
  unfold readNext at hr hr'
  rw [← closes_eq_of_bare ht] at hr'
  split at hr
  · rename_i hc
    rw [if_pos hc] at hr'
    cases hr
    cases hr'
    refine ⟨?_, ?_, rfl, hts⟩
    · rw [Datum.same, sameAll_iff, List.map_singleton, List.map_singleton, ht]
    · rw [List.map_singleton, List.map_singleton, strayClose, strayClose,
        Diagnostic.unexpected_bare ht]
  · rename_i hc
    rw [if_neg hc] at hr'
    have hlength : (t :: ts).length = (t' :: ts').length := by simpa using congrArg List.length h
    rw [fuelFor, ← hlength] at hr'
    exact same_read limit endOfInput endOfInput' _ depth h hr hr'

theorem same_readFrom {r r' : Reading (List Datum)} (h : ts.map Token.bare = ts'.map Token.bare)
    (hr : readFrom limit endOfInput rounds depth ts = .ok r)
    (hr' : readFrom limit endOfInput' rounds depth ts' = .ok r') :
    r.Same (fun ds es => sameAll ds es) r' := by
  induction rounds generalizing depth ts ts' r r' with
  | zero =>
      cases ts with
      | cons t ts => cases hr
      | nil =>
          rw [List.map_nil, eq_comm, List.map_eq_nil_iff] at h
          subst h
          cases hr
          cases hr'
          exact ⟨rfl, rfl, rfl, rfl⟩
  | succ rounds ih =>
      cases ts with
      | nil =>
          rw [List.map_nil, eq_comm, List.map_eq_nil_iff] at h
          subst h
          cases hr
          cases hr'
          exact ⟨rfl, rfl, rfl, rfl⟩
      | cons t ts =>
          obtain ⟨t', ts', rfl, -, -⟩ := List.map_eq_cons_iff.1 h.symm
          rw [readFrom] at hr hr'
          obtain ⟨first, hfirst, hr⟩ := exists_of_bind_eq_ok hr
          obtain ⟨more, hmore, hr⟩ := exists_of_bind_eq_ok hr
          obtain ⟨first', hfirst', hr'⟩ := exists_of_bind_eq_ok hr'
          obtain ⟨more', hmore', hr'⟩ := exists_of_bind_eq_ok hr'
          cases hr
          cases hr'
          have hone := same_readNext h hfirst hfirst'
          rw [← hone.depth_eq] at hmore'
          have hall := ih hone.rest hmore hmore'
          refine ⟨?_, hone.notes_append hall, hall.depth_eq, hall.rest⟩
          simp [Datum.sameAll, hone.value, hall.value]

/-- Tokens that say the same are read as data that do, with the same findings. -/
theorem same_readAll {r r' : Reading (List Datum)} (h : ts.map Token.bare = ts'.map Token.bare)
    (hr : readAll limit endOfInput ts = .ok r) (hr' : readAll limit endOfInput' ts' = .ok r') :
    r.Same (fun ds es => sameAll ds es) r' := by
  have hlength : ts.length = ts'.length := by simpa using congrArg List.length h
  rw [readAll, ← hlength] at hr'
  exact same_readFrom h hr hr'

end SchemeFront.Datum
