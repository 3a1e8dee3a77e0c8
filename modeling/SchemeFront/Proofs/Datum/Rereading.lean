import SchemeFront.Proofs.Datum.Depth
import SchemeFront.Proofs.Datum.Soundness

set_option autoImplicit false

/-! # Reading what was flattened

The tokens of a datum are read as the same datum again, but for two things: a list that is nested
too deeply is kept as its tokens, and the span of any other list is that of its brackets
(`Datum.reread`). Malformed regions come back if they are refused again. So it is with all data
that were read within the same limit (`Datum.legible_of_readAll`) and are then flattened and read
again (`Datum.readAll_flattenAll`). Data without malformed regions that are nested within the limit
come back as they were, whatever their tokens look like (`Datum.ofTokens_flattenAll`).
-/

namespace SchemeFront

open Token

variable {limit : Int} {endOfInput : Span} {rounds depth : Nat} {t o c : Token}
  {ts us xs rest : List Token} {s : Span}

/-! ## Spans of brackets -/

/-- From its first to its last character, a span that is not empty is itself. -/
theorem Span.join_first_final (h : s.start < s.stop) : s.first.join s.final = s := by
  obtain ⟨path, start, stop, hle⟩ := s
  simp only at h
  simp only [join, first, final, ofLength, Span.mk.injEq, true_and]
  omega

/-- The tokens are one bracketed form, which stands at `s`. -/
def Token.IsForm (ts : List Token) (s : Span) : Prop :=
  ∃ o xs c, ts = o :: (xs ++ [c]) ∧ o.opens = true ∧ Balanced xs ∧ c.closes = true ∧
    o.span.between c.span = .ok s

theorem Token.isForm_take_extent (ho : o.opens = true) (hx : Balanced xs) (hc : c.closes = true)
    (hs : cover ((o :: (xs ++ c :: us)).take (extent (o :: (xs ++ c :: us)))) endOfInput = .ok s) :
    IsForm ((o :: (xs ++ c :: us)).take (extent (o :: (xs ++ c :: us)))) s := by
  rw [take_extent_of_balanced ho hx hc] at hs ⊢
  refine ⟨o, xs, c, rfl, ho, hx, hc, ?_⟩
  rwa [cover, List.head?_cons, ← List.cons_append, List.getLast?_concat] at hs

namespace Datum

variable {d : Datum} {ds : List Datum}

/-! ## Data that can be read again -/

mutual

/-- The datum can be read inside `depth` lists: what is malformed is a form, and stands where lists
are refused. -/
def IsLegible (limit : Int) : (depth : Nat) → Datum → Prop
  | _, leaf l s => Token.opens ⟨l, s⟩ = false ∧ Token.closes ⟨l, s⟩ = false
  | depth, list ds _ => AreLegible limit (depth + 1) ds
  | depth, broken ts s => limit ≤ depth ∧ IsForm ts s

/-- The same of the elements of a list. -/
def AreLegible (limit : Int) : (depth : Nat) → List Datum → Prop
  | _, [] => True
  | depth, d :: ds => IsLegible limit depth d ∧ AreLegible limit depth ds

end

mutual

/-- What is read, inside `depth` lists, from the tokens of a datum. -/
def reread (limit : Int) : (depth : Nat) → Datum → Datum
  | _, leaf l s => leaf l s
  | depth, list ds s =>
      if limit ≤ depth then broken (flatten (list ds s)) s
      else list (rereadAll limit (depth + 1) ds) (s.first.join s.final)
  | _, broken ts s => broken ts s

/-- What is read from the tokens of the elements of a list. -/
def rereadAll (limit : Int) : (depth : Nat) → List Datum → List Datum
  | _, [] => []
  | depth, d :: ds => reread limit depth d :: rereadAll limit depth ds

end

mutual

theorem isWhole_of_isLegible (depth : Nat) (d : Datum) (h : d.IsLegible limit depth) :
    d.IsWhole := by
  cases d with
  | leaf l s => exact h
  | list ds s => exact areWhole_of_areLegible (depth + 1) ds h
  | broken ts s =>
      obtain ⟨-, o, xs, c, rfl, ho, hx, hc, -⟩ := h
      exact hx.bracketed ho hc

theorem areWhole_of_areLegible (depth : Nat) (ds : List Datum) (h : AreLegible limit depth ds) :
    AreWhole ds := by
  cases ds with
  | nil => trivial
  | cons d ds =>
      exact ⟨isWhole_of_isLegible depth d h.1, areWhole_of_areLegible depth ds h.2⟩

end

mutual

/-- Deeper inside lists and under a lower limit, a datum can be read as well. -/
theorem IsLegible.mono {limit' : Int} {depth depth' : Nat} (d : Datum)
    (hlimit : limit' ≤ limit) (hdepth : depth ≤ depth') (h : d.IsLegible limit depth) :
    d.IsLegible limit' depth' := by
  cases d with
  | leaf l s => exact h
  | list ds s => exact AreLegible.mono ds hlimit (Nat.succ_le_succ hdepth) h
  | broken ts s =>
      refine ⟨?_, h.2⟩
      calc limit' ≤ limit := hlimit
        _ ≤ depth := h.1
        _ ≤ depth' := Int.ofNat_le.2 hdepth

theorem AreLegible.mono {limit' : Int} {depth depth' : Nat} (ds : List Datum)
    (hlimit : limit' ≤ limit) (hdepth : depth ≤ depth') (h : AreLegible limit depth ds) :
    AreLegible limit' depth' ds := by
  cases ds with
  | nil => trivial
  | cons d ds => exact ⟨IsLegible.mono d hlimit hdepth h.1, AreLegible.mono ds hlimit hdepth h.2⟩

end

/-- The first token of a datum closes nothing. -/
theorem IsLegible.exists_head (h : d.IsLegible limit depth) :
    ∃ t ts, d.flatten = t :: ts ∧ t.closes = false := by
  cases d with
  | leaf l s => exact ⟨_, [], rfl, h.2⟩
  | list ds s => exact ⟨_, _, rfl, rfl⟩
  | broken ts s =>
      obtain ⟨-, o, xs, c, rfl, ho, -⟩ := h
      exact ⟨o, _, rfl, closes_eq_false_of_opens ho⟩

/-! ## Reading one datum -/

/-- A form is refused as it stands. -/
theorem refuse_of_isForm (h : IsForm xs s) (hts : t :: ts = xs ++ rest) :
    refuse limit endOfInput depth t ts =
      .ok ⟨broken xs s, [Diagnostic.tooDeep limit t.span listName], depth, rest⟩ := by
  obtain ⟨o, ys, c, rfl, ho, hys, hc, hs⟩ := h
  rw [List.cons_append, List.append_assoc, List.singleton_append] at hts
  obtain ⟨rfl, rfl⟩ := List.cons.inj hts
  have hcover : cover (t :: (ys ++ [c])) endOfInput = .ok s := by
    rwa [cover, List.head?_cons, ← List.cons_append, List.getLast?_concat]
  simp only [refuse, take_extent_of_balanced ho hys hc, drop_extent_of_balanced ho hys hc, hcover]
  rfl

theorem isForm_flatten_list (h : AreWhole ds) (s : Span) : IsForm (flatten (list ds s)) s := by
  refine ⟨_, flattenAll ds, _, rfl, rfl, balanced_flattenAll ds h, rfl, ?_⟩
  rw [Span.between, Span.final_stop]
  exact Span.make_of_le s.start_le_stop

mutual

/-- The tokens of a datum are read, whatever follows them. -/
theorem read_flatten (limit : Int) (endOfInput : Span) (fuel : Nat) {depth : Nat} {t : Token}
    {ts rest : List Token} (d : Datum) (hfuel : 2 * d.flatten.length ≤ fuel)
    (h : d.IsLegible limit depth) (hts : t :: ts = d.flatten ++ rest) :
    ∃ notes, read limit endOfInput fuel depth t ts =
      .ok ⟨d.reread limit depth, notes, depth, rest⟩ := by
  cases fuel with
  | zero =>
      obtain ⟨u, us, hu, -⟩ := h.exists_head
      simp [hu] at hfuel
  | succ fuel =>
      cases d with
      | leaf l s =>
          obtain ⟨rfl, rfl⟩ := List.cons.inj hts
          exact ⟨[], by rw [read, if_pos (by simp [h.1])]; rfl⟩
      | broken us s =>
          obtain ⟨hdepth, hform⟩ := h
          obtain ⟨o, ys, c, hus, ho, -⟩ := id hform
          obtain rfl : t = o := by
            rw [flatten, hus] at hts
            exact (List.cons.inj hts).1
          rw [read, if_neg (by simp [ho]), if_pos hdepth]
          exact ⟨_, refuse_of_isForm hform hts⟩
      | list ds s =>
          obtain rfl : t = ⟨.keyword .opening, s.first⟩ := (List.cons.inj hts).1
          rw [read, if_neg (by simp [Token.opens, Token.isKeyword]), reread]
          split
          · -- It is nested too deeply, and kept as its tokens.
            have hform := isForm_flatten_list (areWhole_of_areLegible (depth + 1) ds h) s
            exact ⟨_, refuse_of_isForm hform hts⟩
          · have hlength : (flatten (list ds s)).length = (flattenAll ds).length + 2 := by
              simp [flatten]
            obtain ⟨notes, hel⟩ := readElements_flattenAll limit endOfInput fuel rest ds
              (c := ⟨.keyword .closing, s.final⟩) (by omega) h rfl
            have hinside : ts = flattenAll ds ++ ⟨.keyword .closing, s.final⟩ :: rest := by
              simpa [flatten] using hts
            rw [hinside, hel]
            exact ⟨notes, rfl⟩

/-- The tokens of the elements of a list are read, up to the bracket that closes it. -/
theorem readElements_flattenAll (limit : Int) (endOfInput : Span) (fuel : Nat) {depth : Nat}
    {c : Token} (rest : List Token) (ds : List Datum)
    (hfuel : 2 * (flattenAll ds).length + 1 ≤ fuel) (h : AreLegible limit depth ds)
    (hc : c.closes = true) :
    ∃ notes, readElements limit endOfInput fuel depth (flattenAll ds ++ c :: rest) =
      .ok ⟨⟨rereadAll limit depth ds, some c⟩, notes, depth, rest⟩ := by
  cases fuel with
  | zero => omega
  | succ fuel =>
      cases ds with
      | nil => exact ⟨[], by rw [flattenAll, List.nil_append, readElements, if_pos hc]; rfl⟩
      | cons d ds =>
          obtain ⟨t, us, hd, ht⟩ := h.1.exists_head
          -- The first element takes a token at least, which leaves fuel for the others.
          have hlength :
              (flattenAll (d :: ds)).length = us.length + 1 + (flattenAll ds).length := by
            rw [flattenAll, hd, List.length_append, List.length_cons]
          have hfirst : t :: (us ++ (flattenAll ds ++ c :: rest))
              = d.flatten ++ (flattenAll ds ++ c :: rest) := by
            rw [hd, List.cons_append]
          obtain ⟨notes, hone⟩ := read_flatten limit endOfInput fuel d
            (by rw [hd, List.length_cons]; omega) h.1 hfirst
          obtain ⟨more, hall⟩ := readElements_flattenAll limit endOfInput fuel rest ds
            (by omega) h.2 hc
          rw [flattenAll, List.append_assoc, ← hfirst, readElements, if_neg (by simp [ht]), hone]
          simp only [bind, Except.bind, hall]
          exact ⟨_, rfl⟩

end

/-! ## Lists that are never closed -/

/-- A list that is never closed is kept with all tokens that are left. -/
theorem read_of_confined {fuel : Nat} {r : Reading Datum} (ht : t.opens = true) (hts : Confined ts)
    (h : read limit endOfInput fuel depth t ts = .ok r) :
    r.rest = [] ∧ ∃ s, cover (t :: ts) endOfInput = .ok s ∧ r.value = broken (t :: ts) s := by
  cases fuel with
  | zero => cases h
  | succ fuel =>
      rw [read, if_neg (by simp [ht])] at h
      split at h
      · obtain ⟨s, hs, hr⟩ := exists_of_bind_eq_ok h
        cases hr
        rw [take_extent_of_confined ht hts] at hs ⊢
        exact ⟨drop_extent_of_confined ht hts, s, hs, rfl⟩
      · obtain ⟨elements, hel, hr⟩ := exists_of_bind_eq_ok h
        have hgathers := gathers_of_readElements limit endOfInput fuel depth ts hel
        unfold finish at hr
        cases hclosing : elements.value.closing with
        | some c =>
            obtain ⟨xs, hsplit, hx, hc, -⟩ := hgathers.closed c hclosing
            exact absurd (hsplit ▸ hts) (not_confined_of_balanced_append hx hc)
        | none =>
            rw [hclosing] at hr
            obtain ⟨s, hs, hr⟩ := exists_of_bind_eq_ok hr
            cases hr
            exact ⟨(hgathers.unclosed hclosing).2.1, s, hs, rfl⟩

/-! ## What was read can be read again -/

mutual

/-- A datum that was read can be read again, unless it is a list that is never closed. -/
theorem isLegible_of_read (limit : Int) (endOfInput : Span) (fuel depth : Nat) (t : Token)
    (ts : List Token) {r : Reading Datum} (ht : t.closes = false)
    (h : read limit endOfInput fuel depth t ts = .ok r) :
    r.value.IsLegible limit depth ∨ (t.opens = true ∧ Confined ts) := by
  cases fuel with
  | zero => cases h
  | succ fuel =>
      rw [read] at h
      cases ho : t.opens with
      | false =>
          rw [if_pos (by simp [ho])] at h
          cases h
          exact .inl ⟨ho, ht⟩
      | true =>
          rw [if_neg (by simp [ho])] at h
          rcases closed_or_confined ts with ⟨xs, c, us, rfl, hx, hc⟩ | hconf
          · refine .inl ?_
            split at h
            · rename_i hdepth
              obtain ⟨s, hs, hr⟩ := exists_of_bind_eq_ok h
              cases hr
              exact ⟨hdepth, isForm_take_extent ho hx hc hs⟩
            · obtain ⟨elements, hel, hr⟩ := exists_of_bind_eq_ok h
              unfold finish at hr
              cases hclosing : elements.value.closing with
              | some c =>
                  rw [hclosing] at hr
                  cases hr
                  exact areLegible_of_readElements limit endOfInput fuel depth _ hel hclosing
              | none =>
                  have hgathers := gathers_of_readElements limit endOfInput fuel depth _ hel
                  exact absurd (hgathers.unclosed hclosing).1
                    (not_confined_of_balanced_append hx hc)
          · exact .inr ⟨rfl, hconf⟩

theorem areLegible_of_readElements (limit : Int) (endOfInput : Span) (fuel depth : Nat)
    (ts : List Token) {r : Reading Elements} {c : Token}
    (h : readElements limit endOfInput fuel (depth + 1) ts = .ok r)
    (hc : r.value.closing = some c) : AreLegible limit (depth + 1) r.value.children := by
  cases fuel with
  | zero => cases h
  | succ fuel =>
      cases ts with
      | nil =>
          cases h
          cases hc
      | cons t ts =>
          rw [readElements] at h
          split at h
          · cases h
            trivial
          · rename_i ht
            have ht : t.closes = false := by simpa using ht
            obtain ⟨first, hfirst, h⟩ := exists_of_bind_eq_ok h
            obtain ⟨more, hmore, hr⟩ := exists_of_bind_eq_ok h
            cases hr
            have hsettles := settles_of_read limit endOfInput fuel (depth + 1) t ts ht hfirst
            rw [hsettles.depth_eq] at hmore
            refine ⟨?_, areLegible_of_readElements limit endOfInput fuel depth first.rest hmore hc⟩
            have hone := isLegible_of_read limit endOfInput fuel (depth + 1) t ts ht hfirst
            refine hone.resolve_right ?_
            -- Where no tokens are left, there is no closing bracket either.
            rintro ⟨ho, hconf⟩
            rw [(read_of_confined ho hconf hfirst).1] at hmore
            cases fuel <;> cases hmore
            cases hc

end

/-- Data at top level that can be read again: also brackets without a partner, and perhaps a list
at the end that is never closed. -/
inductive Legible (limit : Int) (endOfInput : Span) : List Datum → Prop
  | nil : Legible limit endOfInput []
  | stray {t : Token} {ds : List Datum} (ht : t.closes = true)
      (more : Legible limit endOfInput ds) : Legible limit endOfInput (broken [t] t.span :: ds)
  | whole {d : Datum} {ds : List Datum} (hd : d.IsLegible limit 0)
      (more : Legible limit endOfInput ds) : Legible limit endOfInput (d :: ds)
  | never {t : Token} {ts : List Token} {s : Span} (ht : t.opens = true) (hts : Confined ts)
      (hasc : Ascending (t :: ts)) (hs : cover (t :: ts) endOfInput = .ok s) :
      Legible limit endOfInput [broken (t :: ts) s]

/-- Under a lower limit data can be read as well. -/
theorem Legible.mono {limit' : Int} (hlimit : limit' ≤ limit) (h : Legible limit endOfInput ds) :
    Legible limit' endOfInput ds := by
  induction h with
  | nil => exact .nil
  | stray ht more ih => exact .stray ht ih
  | whole hd more ih => exact .whole (IsLegible.mono _ hlimit (Nat.le_refl 0) hd) ih
  | never ht hts hasc hs => exact .never ht hts hasc hs

theorem legible_of_readFrom {r : Reading (List Datum)} (hasc : Ascending ts)
    (h : readFrom limit endOfInput rounds 0 ts = .ok r) : Legible limit endOfInput r.value := by
  induction rounds generalizing ts r with
  | zero =>
      cases ts with
      | nil =>
          cases h
          exact .nil
      | cons t ts => cases h
  | succ rounds ih =>
      cases ts with
      | nil =>
          cases h
          exact .nil
      | cons t ts =>
          rw [readFrom] at h
          obtain ⟨first, hfirst, h⟩ := exists_of_bind_eq_ok h
          obtain ⟨more, hmore, hr⟩ := exists_of_bind_eq_ok h
          cases hr
          rw [readNext] at hfirst
          cases hc : t.closes with
          | true =>
              rw [if_pos hc] at hfirst
              cases hfirst
              exact .stray hc (ih (hasc.of_suffix (List.suffix_cons t ts)) hmore)
          | false =>
              rw [if_neg (by simp [hc])] at hfirst
              have hrest := rest_suffix_of_read hfirst
              have hsettles := settles_of_read limit endOfInput _ 0 t ts hc hfirst
              rw [hsettles.depth_eq] at hmore
              rcases isLegible_of_read limit endOfInput _ 0 t ts hc hfirst with hd | ⟨ho, hconf⟩
              · exact .whole hd (ih (hasc.of_suffix (hrest.trans (List.suffix_cons t ts))) hmore)
              · -- All tokens were taken, so nothing more is read.
                obtain ⟨hnil, s, hs, hvalue⟩ := read_of_confined ho hconf hfirst
                rw [hnil] at hmore
                have hmore : more.value = [] := by
                  cases rounds <;> cases hmore <;> rfl
                rw [hvalue, hmore]
                exact .never ho hconf hasc hs

/-- All data of tokens in order can be read again within the same limit. -/
theorem legible_of_readAll {r : Reading (List Datum)} (hasc : Ascending ts)
    (h : readAll limit endOfInput ts = .ok r) : Legible limit endOfInput r.value :=
  legible_of_readFrom hasc h

/-! ## Reading all data again -/

theorem readFrom_flattenAll (h : Legible limit endOfInput ds) (rounds : Nat)
    (hrounds : (flattenAll ds).length ≤ rounds) :
    ∃ notes, readFrom limit endOfInput rounds 0 (flattenAll ds) =
      .ok ⟨rereadAll limit 0 ds, notes, 0, []⟩ := by
  induction h generalizing rounds with
  | nil => exact ⟨[], by rw [flattenAll, readFrom]; rfl⟩
  | @stray t ds ht more ih =>
      have hsplit : flattenAll (broken [t] t.span :: ds) = t :: flattenAll ds := rfl
      rw [hsplit] at hrounds ⊢
      cases rounds with
      | zero => exact absurd hrounds (Nat.not_succ_le_zero _)
      | succ rounds =>
          obtain ⟨notes, hmore⟩ := ih rounds (Nat.le_of_succ_le_succ hrounds)
          rw [readFrom, readNext, if_pos ht]
          simp only [bind, Except.bind, hmore]
          exact ⟨_, rfl⟩
  | @whole d ds hd more ih =>
      obtain ⟨t, us, hflat, ht⟩ := hd.exists_head
      have hsplit : flattenAll (d :: ds) = t :: (us ++ flattenAll ds) := by
        rw [flattenAll, hflat, List.cons_append]
      rw [hsplit] at hrounds ⊢
      cases rounds with
      | zero => exact absurd hrounds (Nat.not_succ_le_zero _)
      | succ rounds =>
          rw [List.length_cons, List.length_append] at hrounds
          have htokens : t :: (us ++ flattenAll ds) = d.flatten ++ flattenAll ds := by
            rw [hflat, List.cons_append]
          have hfuel : 2 * d.flatten.length ≤ fuelFor (t :: (us ++ flattenAll ds)) := by
            rw [htokens, fuelFor, List.length_append]
            omega
          obtain ⟨early, hfirst⟩ := read_flatten limit endOfInput _ d hfuel hd htokens
          obtain ⟨notes, hmore⟩ := ih rounds (by omega)
          rw [readFrom, readNext, if_neg (by simp [ht]), hfirst]
          simp only [bind, Except.bind, hmore]
          exact ⟨_, rfl⟩
  | @never t ts s ht hts hasc hs =>
      have hsplit : flattenAll [broken (t :: ts) s] = t :: ts := by
        rw [flattenAll, flattenAll, List.append_nil, flatten]
      rw [hsplit] at hrounds ⊢
      cases rounds with
      | zero => exact absurd hrounds (Nat.not_succ_le_zero _)
      | succ rounds =>
          obtain ⟨r, hr, htakes⟩ := read_takes (P := fun _ => True) limit endOfInput
            (fuelFor (t :: ts)) 0 t ts (Nat.le_refl _) hasc (restores_lexeme _)
          obtain ⟨hrest, s', hs', hvalue⟩ := read_of_confined ht hts hr
          cases hs.symm.trans hs'
          rw [readFrom, readNext, if_neg (by simp [closes_eq_false_of_opens ht]), hr]
          simp only [bind, Except.bind, hrest, htakes.depth_eq, readFrom, hvalue]
          exact ⟨_, rfl⟩

/-- Data that can be read are read again from their tokens. -/
theorem readAll_flattenAll (h : Legible limit endOfInput ds) :
    ∃ notes, readAll limit endOfInput (flattenAll ds) =
      .ok ⟨rereadAll limit 0 ds, notes, 0, []⟩ :=
  readFrom_flattenAll h _ (Nat.le_refl _)

/-! ## Lists with room for their brackets -/

/-- A list with an empty span has no room for its brackets. -/
def IsWide : Datum → Prop
  | list _ s => s.start < s.stop
  | _ => True

mutual

/-- If all lists have room for their brackets, reading again changes no tokens. -/
theorem flatten_reread (limit : Int) (depth : Nat) (d : Datum) (h : ∀ e ∈ d.subdata, e.IsWide) :
    (d.reread limit depth).flatten = d.flatten := by
  cases d with
  | leaf l s => rfl
  | broken ts s => rfl
  | list ds s =>
      rw [reread]
      split
      · rfl
      · have hs : s.start < s.stop := h _ List.mem_cons_self
        rw [Span.join_first_final hs, flatten, flatten, flattenAll_rereadAll limit (depth + 1) ds
          fun e he => h e (List.mem_cons_of_mem _ he)]

theorem flattenAll_rereadAll (limit : Int) (depth : Nat) (ds : List Datum)
    (h : ∀ e ∈ subdataAll ds, e.IsWide) :
    flattenAll (rereadAll limit depth ds) = flattenAll ds := by
  cases ds with
  | nil => rfl
  | cons d ds =>
      rw [rereadAll, flattenAll, flattenAll,
        flatten_reread limit depth d fun e he => h e (List.mem_append_left _ he),
        flattenAll_rereadAll limit depth ds fun e he => h e (List.mem_append_right _ he)]

end

mutual

/-- The tokens of a list are in order only if it has room for its brackets. -/
theorem isWide_of_ascending (d : Datum) (h : Ascending d.flatten) : ∀ e ∈ d.subdata, e.IsWide := by
  cases d with
  | leaf l s => exact List.forall_mem_singleton.2 trivial
  | broken ts s => exact List.forall_mem_singleton.2 trivial
  | list ds s =>
      rw [flatten] at h
      obtain ⟨hfront, -, hlast⟩ := List.pairwise_append.1 h
      have hends := hlast _ List.mem_cons_self _ List.mem_cons_self
      rw [Span.first_start, Span.final_start] at hends
      refine List.forall_mem_cons.2 ⟨?_, areWide_of_ascending ds (List.pairwise_cons.1 hfront).2⟩
      show s.start < s.stop
      omega

theorem areWide_of_ascending (ds : List Datum) (h : Ascending (flattenAll ds)) :
    ∀ e ∈ subdataAll ds, e.IsWide := by
  cases ds with
  | nil => simp [subdataAll]
  | cons d ds =>
      obtain ⟨hd, hds, -⟩ := List.pairwise_append.1 h
      exact List.forall_mem_append.2 ⟨isWide_of_ascending d hd, areWide_of_ascending ds hds⟩

end

/-! ## Data nested within the limit -/

mutual

theorem isLegible_of_nests (limit : Int) (depth : Nat) (d : Datum) (h : d.Nests limit depth) :
    d.IsLegible limit depth := by
  cases d with
  | leaf l s => exact h
  | list ds s => exact areLegible_of_nestAll limit (depth + 1) ds h.2
  | broken ts s => exact h.elim

theorem areLegible_of_nestAll (limit : Int) (depth : Nat) (ds : List Datum)
    (h : NestAll limit depth ds) : AreLegible limit depth ds := by
  cases ds with
  | nil => trivial
  | cons d ds =>
      exact ⟨isLegible_of_nests limit depth d h.1, areLegible_of_nestAll limit depth ds h.2⟩

end

theorem legible_of_nestAll (endOfInput : Span) (h : NestAll limit 0 ds) :
    Legible limit endOfInput ds := by
  induction ds with
  | nil => exact .nil
  | cons d ds ih => exact .whole (isLegible_of_nests limit 0 d h.1) (ih h.2)

mutual

/-- The brackets of data nested within the limit are within it. -/
theorem fits_flatten (limit : Int) (depth : Nat) (d : Datum) {rest : List Token}
    (h : d.Nests limit depth) (hrest : Fits limit depth rest) :
    Fits limit depth (d.flatten ++ rest) := by
  cases d with
  | leaf l s => exact .plain h.1 h.2 hrest
  | broken ts s => exact h.elim
  | list ds s =>
      rw [flatten, List.cons_append, List.cons_append, List.append_assoc]
      exact .opening rfl h.1 (fits_flattenAll limit (depth + 1) ds h.2 (.closing rfl hrest))

theorem fits_flattenAll (limit : Int) (depth : Nat) (ds : List Datum) {rest : List Token}
    (h : NestAll limit depth ds) (hrest : Fits limit depth rest) :
    Fits limit depth (flattenAll ds ++ rest) := by
  cases ds with
  | nil => exact hrest
  | cons d ds =>
      rw [flattenAll, List.append_assoc]
      exact fits_flatten limit depth d h.1 (fits_flattenAll limit depth ds h.2 hrest)

end

mutual

/-- Within the limit nothing but spans changes. -/
theorem same_reread (limit : Int) (depth : Nat) (d : Datum) (h : d.Nests limit depth) :
    (d.reread limit depth).same d = true := by
  cases d with
  | leaf l s => exact beq_self_eq_true _
  | broken ts s => exact h.elim
  | list ds s =>
      rw [reread, if_neg (Int.not_le.2 h.1)]
      exact sameAll_rereadAll limit (depth + 1) ds h.2

theorem sameAll_rereadAll (limit : Int) (depth : Nat) (ds : List Datum)
    (h : NestAll limit depth ds) : sameAll (rereadAll limit depth ds) ds = true := by
  cases ds with
  | nil => rfl
  | cons d ds =>
      rw [rereadAll, sameAll, same_reread limit depth d h.1, sameAll_rereadAll limit depth ds h.2]
      rfl

end

mutual

theorem reread_eq_self (limit : Int) (depth : Nat) (d : Datum) (h : d.Nests limit depth)
    (hwide : ∀ e ∈ d.subdata, e.IsWide) : d.reread limit depth = d := by
  cases d with
  | leaf l s => rfl
  | broken ts s => exact h.elim
  | list ds s =>
      have hs : s.start < s.stop := hwide _ List.mem_cons_self
      rw [reread, if_neg (Int.not_le.2 h.1), Span.join_first_final hs,
        rereadAll_eq_self limit (depth + 1) ds h.2 fun e he => hwide e (List.mem_cons_of_mem _ he)]

theorem rereadAll_eq_self (limit : Int) (depth : Nat) (ds : List Datum)
    (h : NestAll limit depth ds) (hwide : ∀ e ∈ subdataAll ds, e.IsWide) :
    rereadAll limit depth ds = ds := by
  cases ds with
  | nil => rfl
  | cons d ds =>
      rw [rereadAll,
        reread_eq_self limit depth d h.1 fun e he => hwide e (by simp [subdataAll, he]),
        rereadAll_eq_self limit depth ds h.2 fun e he => hwide e (by simp [subdataAll, he])]

end

/-- **Reading inverts flattening.** Data without malformed regions, whose lists are nested within
the limit and whose leaves are no brackets, are read from their tokens without any findings, as data
that say the same. If moreover all lists have room for their brackets, they come back with all
spans. -/
theorem ofTokens_flattenAll (src : Source) (h : NestAll limit 0 ds) :
    ∃ es, ofTokens limit src (flattenAll ds) = .ok (es, none) ∧ sameAll es ds = true ∧
      ((∀ d ∈ subdataAll ds, d.IsWide) → es = ds) := by
  obtain ⟨notes, hread⟩ := readAll_flattenAll (legible_of_nestAll src.endOfInput h)
  have hfits : Fits limit 0 (flattenAll ds) := by
    simpa using fits_flattenAll limit 0 ds h .nil
  have hnotes : notes = [] := notes_eq_nil_of_fits hfits hread
  refine ⟨rereadAll limit 0 ds, ?_, sameAll_rereadAll limit 0 ds h,
    rereadAll_eq_self limit 0 ds h⟩
  rw [ofTokens, hread, hnotes]
  rfl

/-- Data that were not read from a text: the second list stands behind the one around it, which is
nested as deeply as is allowed, and a number says nothing about the sign that was written. -/
theorem ofTokens_flattenAll_displaced :
    ∃ ds, ds = [leaf (.keyword .lambda) (Span.point "b.scm" 9),
        list [list [] ⟨"b.scm", 7, 9, by decide⟩,
          leaf (.atom (.real ⟨-150, 2, false⟩)) (Span.point "c.scm" 0)] ⟨"b.scm", 2, 6, by decide⟩] ∧
      NestAll 2 0 ds ∧ (∀ d ∈ subdataAll ds, d.IsWide) ∧
      ofTokens 2 ⟨"a.scm", []⟩ (flattenAll ds) = .ok (ds, none) := by
  refine ⟨_, rfl, ?_⟩
  have hnest : NestAll 2 0 [leaf (.keyword .lambda) (Span.point "b.scm" 9),
      list [list [] ⟨"b.scm", 7, 9, by decide⟩,
        leaf (.atom (.real ⟨-150, 2, false⟩)) (Span.point "c.scm" 0)] ⟨"b.scm", 2, 6, by decide⟩] :=
    ⟨⟨rfl, rfl⟩, ⟨by decide, ⟨by decide, trivial⟩, ⟨rfl, rfl⟩, trivial⟩, trivial⟩
  have hwide : ∀ d ∈ subdataAll [leaf (.keyword .lambda) (Span.point "b.scm" 9),
      list [list [] ⟨"b.scm", 7, 9, by decide⟩,
        leaf (.atom (.real ⟨-150, 2, false⟩)) (Span.point "c.scm" 0)] ⟨"b.scm", 2, 6, by decide⟩],
      d.IsWide := by
    simp [subdataAll, subdata, IsWide]
  obtain ⟨es, hes, -, hsame⟩ := ofTokens_flattenAll ⟨"a.scm", []⟩ hnest
  exact ⟨hnest, hwide, hsame hwide ▸ hes⟩

end Datum

end SchemeFront
