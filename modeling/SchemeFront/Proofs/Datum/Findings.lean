import SchemeFront.Proofs.Datum.Reading
import SchemeFront.Proofs.Token.Strays

set_option autoImplicit false

/-! # What is found while data are read

A datum is whole (`Datum.IsWhole`) if all brackets in it have their partners. The data of any
tokens are whole ones and closing brackets without a partner, and perhaps a last list that is
never closed (`Datum.Reads`). The findings follow the data: one for each bracket without a
partner, and otherwise only lists that are nested too deeply.
-/

namespace SchemeFront

namespace Datum

open Token

variable {limit : Int} {endOfInput : Span} {depth fuel : Nat} {t : Token} {ts : List Token}

/-! ## Whole data -/

mutual

/-- All brackets in the datum have their partners. -/
def IsWhole : Datum → Prop
  | leaf l s => Token.opens ⟨l, s⟩ = false ∧ Token.closes ⟨l, s⟩ = false
  | list ds _ => AreWhole ds
  | broken ts _ => Balanced ts

/-- All brackets in the data have their partners. -/
def AreWhole : List Datum → Prop
  | [] => True
  | d :: ds => IsWhole d ∧ AreWhole ds

end

/-- Only lists that are nested too deeply were found. -/
def OnlyTooDeep (limit : Int) (ts : List Token) (notes : List Diagnostic) : Prop :=
  ∀ m ∈ notes, ∃ t ∈ ts, t.opens = true ∧ m = Diagnostic.tooDeep limit t.span listName

/-- What is said of a list that is never closed. -/
def neverClosed (endOfInput : Span) (t : Token) : Diagnostic :=
  Diagnostic.unclosed endOfInput (some "(") t.span none (some listName)

theorem OnlyTooDeep.nil (ts : List Token) : OnlyTooDeep limit ts [] := by simp [OnlyTooDeep]

theorem OnlyTooDeep.mono {us : List Token} {notes : List Diagnostic}
    (h : OnlyTooDeep limit ts notes) (hs : ts ⊆ us) : OnlyTooDeep limit us notes := by
  intro m hm
  obtain ⟨t, ht, hm⟩ := h m hm
  exact ⟨t, hs ht, hm⟩

theorem OnlyTooDeep.append {notes more : List Diagnostic} (h : OnlyTooDeep limit ts notes)
    (hmore : OnlyTooDeep limit ts more) : OnlyTooDeep limit ts (notes ++ more) := by
  intro m hm
  exact (List.mem_append.1 hm).elim (h m) (hmore m)

/-! ## One datum -/

/-- What is said besides of a list that is never closed: at top level that it is not, unless it
is too deep there already. -/
def lateNotes (limit : Int) (endOfInput : Span) (depth : Nat) (t : Token) : List Diagnostic :=
  if depth = 0 ∧ 0 < limit then [neverClosed endOfInput t] else []

/-- A reading has taken a whole datum from `ts`, or else all of `ts`, a list that is never
closed. -/
inductive Reading.Settles (limit : Int) (endOfInput : Span) (depth : Nat) :
    List Token → Reading Datum → Prop
  | whole {xs rest : List Token} {d : Datum} {notes : List Diagnostic} (hx : Balanced xs)
      (hd : d.IsWhole) (hnotes : OnlyTooDeep limit xs notes) :
      Settles limit endOfInput depth (xs ++ rest) ⟨d, notes, depth, rest⟩
  | never {t : Token} {ts : List Token} {s : Span} {early : List Diagnostic}
      (ht : t.opens = true) (hts : Confined ts) (hearly : OnlyTooDeep limit (t :: ts) early) :
      Settles limit endOfInput depth (t :: ts)
        ⟨broken (t :: ts) s, early ++ lateNotes limit endOfInput depth t, depth, []⟩

theorem Reading.Settles.depth_eq {r : Reading Datum}
    (h : r.Settles limit endOfInput depth ts) : r.depth = depth := by
  cases h <;> rfl

/-- A reading has taken whole elements from `ts` up to a closing bracket, or else all of `ts`. -/
structure Reading.Gathers (limit : Int) (depth : Nat) (ts : List Token) (r : Reading Elements) :
    Prop where
  depth_eq : r.depth = depth
  closed : ∀ c ∈ r.value.closing, ∃ xs, ts = xs ++ c :: r.rest ∧ Balanced xs ∧
    c.closes = true ∧ AreWhole r.value.children ∧ OnlyTooDeep limit xs r.notes
  unclosed : r.value.closing = none → Confined ts ∧ r.rest = [] ∧ OnlyTooDeep limit ts r.notes

/-- A list that is nested too deeply is kept as it is. -/
theorem settles_of_refuse {r : Reading Datum} (ht : t.opens = true) (hdepth : limit ≤ depth)
    (h : refuse limit endOfInput depth t ts = .ok r) :
    r.Settles limit endOfInput depth (t :: ts) := by
  obtain ⟨span, -, hr⟩ := exists_of_bind_eq_ok h
  cases hr
  have hnote : ∀ us, t ∈ us →
      OnlyTooDeep limit us [Diagnostic.tooDeep limit t.span listName] := by
    intro us hus m hm
    exact ⟨t, hus, ht, List.mem_singleton.1 hm⟩
  rcases closed_or_confined ts with ⟨xs, c, us, rfl, hx, hc⟩ | hconf
  · rw [take_extent_of_balanced ht hx hc, drop_extent_of_balanced ht hx hc]
    have hform : Balanced (t :: (xs ++ [c])) := hx.bracketed ht hc
    have key : Reading.Settles limit endOfInput depth (t :: (xs ++ [c]) ++ us) _ :=
      .whole hform (d := broken (t :: (xs ++ [c])) span) hform (hnote _ (by simp))
    simpa using key
  · rw [take_extent_of_confined ht hconf, drop_extent_of_confined ht hconf]
    have hlate : lateNotes limit endOfInput depth t = [] := if_neg (by omega)
    have key : Reading.Settles limit endOfInput depth (t :: ts) _ :=
      .never (s := span) ht hconf (hnote _ (by simp))
    rwa [hlate] at key

/-- A list is whole if its closing bracket was found, and otherwise it is never closed. -/
theorem settles_of_finish {elements : Reading Elements} {r : Reading Datum} (ht : t.opens = true)
    (hdepth : depth < limit) (hel : elements.Gathers limit (depth + 1) ts)
    (h : finish endOfInput t ts elements = .ok r) :
    r.Settles limit endOfInput depth (t :: ts) := by
  have hleave : elements.depth - 1 = depth := by rw [hel.depth_eq, Nat.add_sub_cancel]
  unfold finish at h
  cases hclosing : elements.value.closing with
  | some c =>
      rw [hclosing] at h
      cases h
      obtain ⟨xs, rfl, hx, hc, hwhole, hnotes⟩ := hel.closed c hclosing
      have key : Reading.Settles limit endOfInput depth (t :: xs ++ [c] ++ elements.rest) _ :=
        .whole (hx.bracketed ht hc) (d := list elements.value.children (t.span.join c.span))
          hwhole (hnotes.mono (by intro u hu; simp [hu]))
      rw [hleave]
      simpa using key
  | none =>
      rw [hclosing] at h
      obtain ⟨span, -, hr⟩ := exists_of_bind_eq_ok h
      cases hr
      obtain ⟨hconf, hrest, hnotes⟩ := hel.unclosed hclosing
      have hlate : lateNotes limit endOfInput depth t
          = if elements.depth = 1 then [neverClosed endOfInput t] else [] := by
        have hiff : depth = 0 ∧ 0 < limit ↔ depth + 1 = 1 := by omega
        simp only [lateNotes, hel.depth_eq, hiff]
      have key : Reading.Settles limit endOfInput depth (t :: ts) _ :=
        .never (s := span) ht hconf (hnotes.mono (List.subset_cons_self t ts))
      rw [hlate] at key
      rw [hleave, hrest]
      exact key

/-- One element more in front of those that were gathered. -/
theorem Reading.Settles.gathers {first : Reading Datum} {more : Reading Elements}
    (hfirst : first.Settles limit endOfInput (depth + 1) ts)
    (hmore : more.Gathers limit first.depth first.rest) :
    Reading.Gathers limit (depth + 1) ts {
      value := { more.value with children := first.value :: more.value.children }
      notes := first.notes ++ more.notes
      depth := more.depth
      rest := more.rest } := by
  cases hfirst with
  | @whole xs rest d notes hx hd hnotes =>
      refine ⟨hmore.depth_eq, ?_, ?_⟩
      · intro c hc
        obtain ⟨ys, rfl, hy, hcloses, hwhole, hmorenotes⟩ := hmore.closed c hc
        refine ⟨xs ++ ys, by simp, hx.append hy, hcloses, ⟨hd, hwhole⟩, ?_⟩
        exact (hnotes.mono (by simp)).append (hmorenotes.mono (by simp))
      · intro hnone
        obtain ⟨hconf, hrest, hmorenotes⟩ := hmore.unclosed hnone
        exact ⟨hx.append_confined hconf, hrest,
          (hnotes.mono (by simp)).append (hmorenotes.mono (by simp))⟩
  | @never t ts s early ht hts hearly =>
      -- Inside another list nothing is said of the list, and nothing is left behind it.
      have hlate : lateNotes limit endOfInput (depth + 1) t = [] := if_neg (by omega)
      refine ⟨hmore.depth_eq, ?_, ?_⟩
      · intro c hc
        obtain ⟨ys, hys, -⟩ := hmore.closed c hc
        simp at hys
      · intro hnone
        obtain ⟨-, hrest, hmorenotes⟩ := hmore.unclosed hnone
        rw [hlate, List.append_nil]
        exact ⟨hts.cons_of_opens ht, hrest, hearly.append (hmorenotes.mono (List.nil_subset _))⟩

mutual

/-- What is read from a token that closes nothing. -/
theorem settles_of_read (limit : Int) (endOfInput : Span) (fuel depth : Nat) (t : Token)
    (ts : List Token) {r : Reading Datum} (ht : t.closes = false)
    (h : read limit endOfInput fuel depth t ts = .ok r) :
    r.Settles limit endOfInput depth (t :: ts) := by
  cases fuel with
  | zero => cases h
  | succ fuel =>
      rw [read] at h
      cases ho : t.opens with
      | false =>
          rw [if_pos (by simp [ho])] at h
          cases h
          have key : Reading.Settles limit endOfInput depth ([t] ++ ts) _ :=
            .whole (balanced_singleton ho ht) (d := leaf t.lexeme t.span) ⟨ho, ht⟩ (.nil _)
          exact key
      | true =>
          rw [if_neg (by simp [ho])] at h
          split at h
          · rename_i hdepth
            exact settles_of_refuse ho hdepth h
          · rename_i hdepth
            obtain ⟨elements, hel, hr⟩ := exists_of_bind_eq_ok h
            have hgathers : elements.Gathers limit (depth + 1) ts :=
              gathers_of_readElements limit endOfInput fuel depth ts hel
            exact settles_of_finish ho (Int.not_le.1 hdepth) hgathers hr

/-- What is read as elements of a list. -/
theorem gathers_of_readElements (limit : Int) (endOfInput : Span) (fuel depth : Nat)
    (ts : List Token) {r : Reading Elements}
    (h : readElements limit endOfInput fuel (depth + 1) ts = .ok r) :
    r.Gathers limit (depth + 1) ts := by
  cases fuel with
  | zero => cases h
  | succ fuel =>
      cases ts with
      | nil =>
          cases h
          exact ⟨rfl, by simp, fun _ => ⟨rfl, rfl, .nil _⟩⟩
      | cons t ts =>
          rw [readElements] at h
          cases hc : t.closes with
          | true =>
              rw [if_pos hc] at h
              cases h
              refine ⟨rfl, ?_, by simp⟩
              rintro c ⟨⟩
              exact ⟨[], rfl, rfl, hc, trivial, .nil _⟩
          | false =>
              rw [if_neg (by simp [hc])] at h
              obtain ⟨first, hfirst, h⟩ := exists_of_bind_eq_ok h
              obtain ⟨more, hmore, hr⟩ := exists_of_bind_eq_ok h
              cases hr
              have hsettles : first.Settles limit endOfInput (depth + 1) (t :: ts) :=
                settles_of_read limit endOfInput fuel (depth + 1) t ts hc hfirst
              refine hsettles.gathers ?_
              rw [hsettles.depth_eq] at hmore ⊢
              exact gathers_of_readElements limit endOfInput fuel depth first.rest hmore

end

/-! ## All data -/

/-- Data at top level, the tokens they were read from, and the findings about them. -/
inductive Reads (limit : Int) (endOfInput : Span) :
    List Token → List Datum → List Diagnostic → Prop
  | nil : Reads limit endOfInput [] [] []
  | stray {t : Token} {ts : List Token} {ds : List Datum} {notes : List Diagnostic}
      (ht : t.closes = true) (more : Reads limit endOfInput ts ds notes) :
      Reads limit endOfInput (t :: ts) (broken [t] t.span :: ds) (strayClose t :: notes)
  | whole {d : Datum} {xs ts : List Token} {ds : List Datum} {early notes : List Diagnostic}
      (hx : Balanced xs) (hd : d.IsWhole) (hearly : OnlyTooDeep limit xs early)
      (more : Reads limit endOfInput ts ds notes) :
      Reads limit endOfInput (xs ++ ts) (d :: ds) (early ++ notes)
  | never {t : Token} {ts : List Token} {s : Span} {early : List Diagnostic}
      (ht : t.opens = true) (hts : Confined ts) (hearly : OnlyTooDeep limit (t :: ts) early) :
      Reads limit endOfInput (t :: ts) [broken (t :: ts) s]
        (early ++ lateNotes limit endOfInput 0 t)

theorem reads_of_readFrom {rounds : Nat} {r : Reading (List Datum)}
    (h : readFrom limit endOfInput rounds 0 ts = .ok r) :
    Reads limit endOfInput ts r.value r.notes := by
  induction rounds generalizing ts r with
  | zero =>
      cases ts with
      | nil =>
          cases h
          exact .nil
      | cons t ts => cases h
  | succ rounds ih =>
      cases ts with
      | nil =>
          cases h
          exact .nil
      | cons t ts =>
          rw [readFrom] at h
          obtain ⟨first, hfirst, h⟩ := exists_of_bind_eq_ok h
          obtain ⟨more, hmore, hr⟩ := exists_of_bind_eq_ok h
          cases hr
          rw [readNext] at hfirst
          cases hc : t.closes with
          | true =>
              rw [if_pos hc] at hfirst
              cases hfirst
              exact .stray hc (ih hmore)
          | false =>
              rw [if_neg (by simp [hc])] at hfirst
              have hsettles : first.Settles limit endOfInput 0 (t :: ts) :=
                settles_of_read limit endOfInput _ 0 t ts hc hfirst
              generalize t :: ts = us at hsettles
              cases hsettles with
              | whole hx hd hnotes => exact .whole hx hd hnotes (ih hmore)
              | never ht hts hearly =>
                  -- All tokens were taken, so nothing more is read.
                  have hnil : more = { value := [], depth := 0, rest := [] } := by
                    cases rounds <;> cases hmore <;> rfl
                  subst hnil
                  rw [List.append_nil]
                  exact .never ht hts hearly

end Datum

end SchemeFront
