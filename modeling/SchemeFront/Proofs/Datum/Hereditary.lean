import SchemeFront.Datum.Reader

set_option autoImplicit false

/-! # Predicates on data that go down to the parts

A predicate is hereditary (`Datum.Hereditary`) if it holds of a list, wherever that stands, if and
only if it holds of all elements. To hold of all data that are read, it must only hold of single
tokens and of malformed regions, which are runs of the tokens (`Datum.hereditary_of_readFrom`).
-/

namespace SchemeFront.Datum

open Token

/-- What holds of a list if and only if it holds of its elements. -/
def Hereditary (Q : Datum → Prop) : Prop := ∀ ds s, Q (list ds s) ↔ ∀ d ∈ ds, Q d

/-- `Q` holds of the tokens of `ts` that open no list, and of the runs of tokens of `ts`, as
malformed regions. -/
structure Grounded (Q : Datum → Prop) (ts : List Token) : Prop where
  leaf : ∀ t ∈ ts, t.opens = false → Q (leaf t.lexeme t.span)
  broken : ∀ us s, us <:+: ts → Q (broken us s)

variable {Q : Datum → Prop} {limit : Int} {endOfInput : Span} {rounds depth : Nat} {t : Token}
  {ts us : List Token}

theorem Grounded.of_infix (h : Grounded Q ts) (hus : us <:+: ts) : Grounded Q us where
  leaf t ht := h.leaf t (hus.subset ht)
  broken vs s hvs := h.broken vs s (hvs.trans hus)

theorem Grounded.of_suffix (h : Grounded Q ts) (hus : us <:+ ts) : Grounded Q us :=
  h.of_infix hus.isInfix

theorem Grounded.tail (h : Grounded Q (t :: ts)) : Grounded Q ts :=
  h.of_suffix (List.suffix_cons t ts)

/-! ## Reading -/

theorem hereditary_of_refuse (hts : Grounded Q (t :: ts)) {r : Reading Datum}
    (h : refuse limit endOfInput depth t ts = .ok r) : r.rest <:+ ts ∧ Q r.value := by
  obtain ⟨s, -, hr⟩ := exists_of_bind_eq_ok h
  cases hr
  constructor
  · show (t :: ts).drop (extent (t :: ts)) <:+ ts
    rw [extent, Nat.add_comm, List.drop_succ_cons]
    exact List.drop_suffix _ _
  · exact hts.broken _ _ (List.take_prefix _ _).isInfix

theorem hereditary_of_finish (hQ : Hereditary Q) (hts : Grounded Q (t :: ts))
    {elements : Reading Elements} {r : Reading Datum}
    (hel : elements.rest <:+ ts ∧ ∀ d ∈ elements.value.children, Q d)
    (h : finish endOfInput t ts elements = .ok r) : r.rest <:+ ts ∧ Q r.value := by
  unfold finish at h
  cases hclosing : elements.value.closing with
  | some c =>
      rw [hclosing] at h
      cases h
      exact ⟨hel.1, (hQ _ _).2 hel.2⟩
  | none =>
      rw [hclosing] at h
      -- A list that is never closed is malformed up to the end of the tokens.
      obtain ⟨s, -, hr⟩ := exists_of_bind_eq_ok h
      cases hr
      exact ⟨hel.1, hts.broken _ _ (List.infix_refl _)⟩

mutual

theorem hereditary_of_read (hQ : Hereditary Q) (limit : Int) (endOfInput : Span)
    (fuel depth : Nat) (t : Token) (ts : List Token) (hts : Grounded Q (t :: ts))
    {r : Reading Datum}
    (h : read limit endOfInput fuel depth t ts = .ok r) : r.rest <:+ ts ∧ Q r.value := by
  cases fuel with
  | zero => cases h
  | succ fuel =>
      rw [read] at h
      split at h
      · rename_i ho
        cases h
        exact ⟨List.suffix_refl _, hts.leaf t (by simp) (by simpa using ho)⟩
      · split at h
        · exact hereditary_of_refuse hts h
        · obtain ⟨elements, hel, hr⟩ := exists_of_bind_eq_ok h
          exact hereditary_of_finish hQ hts (hereditary_of_readElements hQ limit endOfInput fuel
            (depth + 1) ts hts.tail hel) hr

theorem hereditary_of_readElements (hQ : Hereditary Q) (limit : Int) (endOfInput : Span)
    (fuel depth : Nat) (ts : List Token) (hts : Grounded Q ts) {r : Reading Elements}
    (h : readElements limit endOfInput fuel depth ts = .ok r) :
    r.rest <:+ ts ∧ ∀ d ∈ r.value.children, Q d := by
  cases fuel with
  | zero => cases h
  | succ fuel =>
      cases ts with
      | nil =>
          cases h
          exact ⟨List.suffix_refl _, by simp⟩
      | cons t ts =>
          rw [readElements] at h
          split at h
          · cases h
            exact ⟨List.suffix_cons t ts, by simp⟩
          · obtain ⟨first, hfirst, h⟩ := exists_of_bind_eq_ok h
            obtain ⟨more, hmore, hr⟩ := exists_of_bind_eq_ok h
            cases hr
            obtain ⟨hrest, hone⟩ := hereditary_of_read hQ limit endOfInput fuel depth t ts
              hts hfirst
            have hbehind := hrest.trans (List.suffix_cons t ts)
            obtain ⟨hlast, hall⟩ := hereditary_of_readElements hQ limit endOfInput fuel first.depth
              first.rest (hts.of_suffix hbehind) hmore
            exact ⟨hlast.trans hbehind, List.forall_mem_cons.2 ⟨hone, hall⟩⟩

end

/-- Reading goes forwards. -/
theorem rest_suffix_of_read {fuel : Nat} {r : Reading Datum}
    (h : read limit endOfInput fuel depth t ts = .ok r) : r.rest <:+ ts :=
  (hereditary_of_read (Q := fun _ => True) (fun _ _ => by simp) limit endOfInput fuel depth t ts
    ⟨fun _ _ _ => trivial, fun _ _ _ => trivial⟩ h).1

/-- What is hereditary holds of all data that are read, if it does of the tokens. -/
theorem hereditary_of_readFrom (hQ : Hereditary Q) (hts : Grounded Q ts)
    {r : Reading (List Datum)} (h : readFrom limit endOfInput rounds depth ts = .ok r) :
    ∀ d ∈ r.value, Q d := by
  induction rounds generalizing depth ts r with
  | zero =>
      cases ts with
      | nil =>
          cases h
          simp
      | cons t ts => cases h
  | succ rounds ih =>
      cases ts with
      | nil =>
          cases h
          simp
      | cons t ts =>
          rw [readFrom] at h
          obtain ⟨first, hfirst, h⟩ := exists_of_bind_eq_ok h
          obtain ⟨more, hmore, hr⟩ := exists_of_bind_eq_ok h
          cases hr
          have hone : first.rest <:+ ts ∧ Q first.value := by
            unfold readNext at hfirst
            split at hfirst
            -- A stray closing bracket is a region by itself.
            · cases hfirst
              exact ⟨List.suffix_refl _, hts.broken _ _ ⟨[], ts, rfl⟩⟩
            · exact hereditary_of_read hQ limit endOfInput _ depth t ts hts hfirst
          have hrest := hts.of_suffix (hone.1.trans (List.suffix_cons t ts))
          exact List.forall_mem_cons.2 ⟨hone.2, ih hrest hmore⟩

end SchemeFront.Datum
